import CallEvolution.Proofs.QuietGenes

/-! Randomizing ends without a certain fault, if all genes keep clear of it. The other reasons for a fault are
out of the way: every id is in range, and there is room for every new node. -/

namespace CallEvolution

open GeneTerm GeneTree

namespace Edit

variable {t : GeneTree} {id : NodeId}

/-- No fault stands in the way of a new list of members. -/
theorem ensures_setMembers_any (items : List NodeId) : Ensures (setMembers id items) t fun _ _ => True := by
  have hcheck : ∀ (maxSize : Nat) (name : String) (g : Gene), Ensures
      ((if maxSize < items.length then throw (.tooManyMembers name items.length maxSize) else pure ()) >>=
        fun _ => update (·.setGene id g)) t fun _ _ => True := by
    intro maxSize name g
    refine Ensures.bind (P := fun _ u => u = t) ?_ (fun _ _ _ => ensures_update trivial) fun _ _ _ => trivial
    split
    · exact Ensures.throw rfl
    · exact Ensures.pure rfl
  refine views_query.ensures_bind (fun n _ => ?_) fun _ => trivial
  obtain ⟨name, gene, parent⟩ := n
  cases gene
  case array | map => exact hcheck _ _ _
  all_goals exact Ensures.throw trivial

theorem ensures_setActive_any (on : Bool) : Ensures (setActive id on) t fun _ _ => True := by
  refine views_query.ensures_bind (fun n _ => ?_) fun _ => trivial
  obtain ⟨name, gene, parent⟩ := n
  cases gene
  case optional => exact ensures_update trivial
  all_goals exact Ensures.throw trivial

theorem ensures_release_any : Ensures (release id) t fun _ _ => True :=
  views_query.ensures_bind (fun _ _ => ensures_update trivial) fun _ => trivial

end Edit

namespace RandomEdit

variable {γ α β : Type} {f : Fault} {t : GeneTree} {id : NodeId} {content : GeneNode}

/-- Does no stream of random words make a step on the tree end with the fault? -/
def Spares (f : Fault) (x : RandomEdit γ α) (t : GeneTree) : Prop := Draw.Spares f (x.run.run t)

namespace Spares

theorem pure (a : α) : Spares f (Pure.pure a : RandomEdit γ α) t := Draw.Spares.pure _

theorem throw (e : GeneError) : Spares f (MonadExcept.throw e : RandomEdit γ α) t := Draw.Spares.pure _

theorem bind {x : RandomEdit γ α} {k : α → RandomEdit γ β} {Q : Except GeneError α → GeneTree → Prop}
    (hx : Spares f x t) (hQ : Ensures x t Q) (hk : ∀ a u, Q (.ok a) u → Spares f (k a) u) :
    Spares f (x >>= k) t := by
  have hrun : (x >>= k).run.run t = x.run.run t >>= fun r => (ExceptT.bindCont k r.1).run r.2 := rfl
  rw [Spares, hrun]
  refine Draw.Spares.bind hx ?_
  rintro ⟨r, u⟩ hr
  have hout := hQ.2 r u hr
  cases r with
  | ok a => exact hk a u hout
  | error e => exact Draw.Spares.pure _

theorem throw_bind (e : GeneError) {k : α → RandomEdit γ β} :
    Spares f (MonadExcept.throw e >>= k) t := by
  refine (throw e).bind (Q := fun r _ => r = .error e) (Ensures.throw rfl) ?_
  rintro a u ⟨⟩

/-- What follows may be ready for anything. -/
theorem bind_any {x : RandomEdit γ α} {k : α → RandomEdit γ β} (hx : Spares f x t)
    (hk : ∀ a u, Spares f (k a) u) : Spares f (x >>= k) t :=
  hx.bind (Q := fun _ _ => True) ⟨trivial, fun _ _ _ => trivial⟩ fun a u _ => hk a u

theorem map {x : RandomEdit γ α} (hx : Spares f x t) (h : α → β) : Spares f (h <$> x) t := by
  rw [map_eq_pure_bind]
  exact hx.bind_any fun _ _ => pure _

theorem pure_bind {a : α} {k : α → RandomEdit γ β} (h : Spares f (k a) t) :
    Spares f (Pure.pure a >>= k) t := by
  rwa [LawfulMonad.pure_bind]

/-- A step without draws that ends somehow ends without the fault. -/
theorem lift {e : Edit α} {Q : Except GeneError α → GeneTree → Prop} (h : Ensures e t Q) :
    Spares f (RandomEdit.lift e : RandomEdit γ α) t := by
  obtain ⟨⟨r, hr⟩, -⟩ := h
  intro s hs
  change (e.run.run t).map (fun r => (r, s)) = _ at hs
  rw [hr] at hs
  cases hs

theorem lift_bind {e : Edit α} {k : α → RandomEdit γ β} {Q : Except GeneError α → GeneTree → Prop}
    (h : Ensures e t Q) (hk : ∀ a u, Q (.ok a) u → Spares f (k a) u) :
    Spares f (RandomEdit.lift e >>= k) t :=
  (lift h).bind (ensures_lift h) hk

theorem query_bind {q : GeneTree → Except GeneError α} {k : α → RandomEdit γ β}
    (hk : ∀ a, q t = .ok a → Spares f (k a) t) : Spares f (RandomEdit.lift (Edit.query q) >>= k) t := by
  refine lift_bind Edit.views_query ?_
  rintro a u ⟨rfl, hq⟩
  exact hk a (hq a rfl)

theorem update (change : GeneTree → GeneTree) :
    Spares f (RandomEdit.lift (Edit.update change) : RandomEdit γ Unit) t :=
  lift (Q := fun _ _ => True) (Edit.ensures_update trivial)

theorem get_bind {k : GeneTree → RandomEdit γ β} (h : Spares f (k t) t) :
    Spares f (RandomEdit.lift get >>= k) t := by
  refine (lift (Q := fun _ _ => True) (Ensures.get_bind (Ensures.pure trivial))).bind views_get ?_
  rintro a u ⟨rfl, ha⟩
  rwa [ha a rfl]

theorem draw {d : Draw γ α} (hd : Draw.Spares f d) : Spares f (RandomEdit.draw d) t := by
  change Draw.Spares f ((d >>= fun a => Pure.pure (a, t)) >>= fun r => Pure.pure (Except.ok r.1, r.2))
  exact Draw.Spares.bind (Draw.Spares.bind hd fun _ _ => Draw.Spares.pure _) fun _ _ => Draw.Spares.pure _

theorem draw_bind {d : Draw γ α} {k : α → RandomEdit γ β} (hd : Draw.Spares f d)
    (hk : ∀ a, Gives d a → Spares f (k a) t) : Spares f (RandomEdit.draw d >>= k) t := by
  refine (draw hd).bind views_draw ?_
  rintro a u ⟨rfl, ha⟩
  exact hk a (ha a rfl)

end Spares

/-- A step that ends without the fault on every held term of a limited height whose genes keep clear of it. -/
def SparesBelow (shifts : List Int64) (f : Fault) (d : Nat) (step : NodeId → RandomEdit γ Unit) : Prop :=
  ∀ (t : GeneTree) (v : GeneTerm), t.FreeExact → t.Holds v → v.height ≤ d →
    v.Every (QuietAt shifts f) → Spares f (step v.id) t

variable {shifts : List Int64} {d : Nat} {step : NodeId → RandomEdit γ Unit} {template : GeneTerm}
  (hstep : Randomizes (QuietAt shifts f) d step) (hspare : SparesBelow shifts f d step)

include hstep hspare

theorem spares_forM_parts (pre : List GeneTerm) {rest : List GeneTerm} (ht : t.FreeExact)
    (hv : t.Holds (.node id content (pre ++ rest))) (hd : ∀ v ∈ rest, v.height ≤ d)
    (hc : content.gene.isCollection = false) (hquiet : ∀ v ∈ rest, v.Every (QuietAt shifts f)) :
    Spares f ((rest.map GeneTerm.id).forM step) t := by
  induction rest generalizing pre t with
  | nil => exact .pure ()
  | cons p rest ih =>
    have hp := hv.parts.each p (by simp)
    have hlow := hd p List.mem_cons_self
    refine (hspare t p ht hp hlow (hquiet p List.mem_cons_self)).bind (hstep t p ht hp hlow) ?_
    rintro - u ⟨-, q, hq⟩
    have hu := (hq.part (lasts_quietAt shifts f) hv fun h => by simp [hc] at h).holds
    rw [← List.singleton_append, ← List.append_assoc] at hu
    exact ih _ hq.frame.exact hu (fun v hv => hd v (List.mem_cons_of_mem _ hv))
      fun v hv => hquiet v (List.mem_cons_of_mem _ hv)

omit hstep in
theorem spares_freshElement (ht : t.FreeExact) (hv : t.Holds template) (hd : template.height ≤ d)
    (hquiet : template.Every (QuietAt shifts f)) (owner : NodeId) :
    Spares f (freshElement step owner template.id) t := by
  obtain ⟨copy, h, hcopy, -⟩ := hv.extract
  refine Spares.query_bind fun a ha => ?_
  obtain rfl := Except.ok.inj (hcopy.symm.trans ha)
  refine Spares.lift_bind (Edit.ensures_graftCopy ht hv hcopy owner) ?_
  rintro element u ⟨w, h', hid, hw, hadds⟩
  cases hid
  have hheight : w.height ≤ d := by rwa [hw, height_withParent, height_rename]
  have hclear : w.Every (QuietAt shifts f) := by
    rw [hw]
    exact (Conserves.copy (lasts_quietAt shifts f) h' _ template).every hquiet
  exact (hspare u w hadds.frame.exact hadds.holds hheight hclear).bind_any fun _ _ => .pure _

theorem spares_freshElements (ht : t.FreeExact) (hv : t.Holds template) (hd : template.height ≤ d)
    (hquiet : template.Every (QuietAt shifts f)) (owner : NodeId) (n : Nat) :
    Spares f (freshElements step owner template.id n) t := by
  induction n generalizing t with
  | zero => exact .pure []
  | succ n ih =>
    refine (spares_freshElement hspare ht hv hd hquiet owner).bind
      (ensures_freshElement (lasts_quietAt shifts f) hstep ht hv hd owner) ?_
    rintro a u ⟨w, -, hw, -⟩
    exact (ih hw.frame.exact (hw.frame.holds hv (Set.disjoint_empty _))).bind_any fun _ _ => .pure _

variable [RandomSource γ] (hf : f ≠ .endlessRedraw)

include hf

omit hstep in
theorem spares_freshEntry (ht : t.FreeExact) (hv : t.Holds template) (hd : template.height ≤ d)
    (hquiet : template.Every (QuietAt shifts f)) (owner : NodeId) (used : List String) :
    Spares f (freshEntry step owner template.id used) t :=
  (spares_freshElement hspare ht hv hd hquiet owner).bind_any fun _ _ =>
    Spares.draw_bind (Draw.spares_key hf used) fun _ _ =>
      (Spares.update _).bind_any fun _ _ => .pure _

theorem spares_freshEntries (ht : t.FreeExact) (hv : t.Holds template) (hd : template.height ≤ d)
    (hquiet : template.Every (QuietAt shifts f)) (owner : NodeId) (n : Nat) (used : List String) :
    Spares f (freshEntries step owner template.id n used) t := by
  induction n generalizing t used with
  | zero => exact .pure []
  | succ n ih =>
    refine (spares_freshEntry hspare hf ht hv hd hquiet owner used).bind
      (ensures_freshEntry (lasts_quietAt shifts f) hstep ht hv hd owner used) ?_
    rintro a u ⟨w, -, hw, -⟩
    exact (ih hw.frame.exact (hw.frame.holds hv (Set.disjoint_empty _)) _).bind_any fun _ _ => .pure _

omit hstep hspare

theorem spares_newSize {maxSize : Nat} (hroom : f = .unboundedRoom → maxSize < roomLimit) :
    Spares f (newSize maxSize : RandomEdit γ Nat) t := by
  refine Spares.draw_bind (Draw.spares_count hf (Nat.zero_le _)) fun n hn => ?_
  have hle := (Draw.count_mem hn).2
  split
  · next hlarge =>
    exact Spares.bind_any (fun _ h => absurd (hroom (Except.error.inj h).symm) (by omega)) fun _ _ => .pure _
  · exact .pure n

theorem spares_renew {old : List GeneTerm} {fresh : Nat → RandomEdit γ (List NodeId)} (ht : t.FreeExact)
    (hv : t.Holds (.node id content (template :: old)))
    (hroom : f = .unboundedRoom → content.gene.capacity < roomLimit)
    (hfresh : ∀ {u : GeneTree} (n : Nat), u.FreeExact → u.Holds template → Spares f (fresh n) u) :
    Spares f (do
        Edit.releaseAll (old.map GeneTerm.id)
        let n ← newSize content.gene.capacity
        Edit.setMembers id (← fresh n) : RandomEdit γ Unit) t := by
  refine Spares.lift_bind (Edit.ensures_releaseAll ht hv.parts.tail) ?_
  rintro - u ⟨-, hu⟩
  have htemplate : u.Holds template := by
    refine hu.holds hv.parts.head ?_
    exact Set.disjoint_left.mpr fun x hx => hv.parts.disjoint hx
  refine (spares_newSize hf hroom).bind (ensures_newSize _) ?_
  rintro n s ⟨-, -, -, rfl⟩
  exact (hfresh n hu.exact htemplate).bind_any fun _ _ => .lift (Edit.ensures_setMembers_any _)

omit [RandomSource γ] hf in
/-- A leaf is put in place, and drawn anew if it has to change. -/
theorem spares_setFresh {v : GeneTerm} {forceNew : Bool} {fresh : Gene} {redraw : Draw γ Gene} (hv : t.Holds v)
    (hredraw : v.changeable = true → Draw.Spares f redraw) :
    Spares f (do
        let changes ← if forceNew then Edit.query (·.isMutable v.id) else pure false
        let fresh ← if changes then draw redraw else pure fresh
        Edit.update (·.setGene v.id fresh) : RandomEdit γ Unit) t := by
  have hput : ∀ g : Gene, Spares f (lift (Edit.update (·.setGene v.id g)) : RandomEdit γ Unit) t :=
    fun g => .update _
  have hrest : ∀ changes : Bool, (changes = true → v.changeable = true) → Spares f (do
      let fresh ← if changes then draw redraw else pure fresh
      Edit.update (·.setGene v.id fresh) : RandomEdit γ Unit) t := by
    intro changes h
    cases changes with
    | false => exact Spares.pure_bind (hput fresh)
    | true => exact Spares.draw_bind (hredraw (h rfl)) fun g _ => hput g
  cases forceNew with
  | false => exact Spares.pure_bind (hrest false (by simp))
  | true =>
    refine Spares.query_bind fun changes hchanges => hrest changes ?_
    rintro rfl
    exact Except.ok.inj (hv.isMutable.symm.trans hchanges)

omit hf in
theorem changeable_of_leaf {name : String} {g fresh : Gene} {parent : Option NodeId} {parts : List GeneTerm}
    (h : Gives (Draw.leaf? g : Draw γ (Option Gene)) (some fresh)) :
    (GeneTerm.node id ⟨name, g, parent⟩ parts).changeable = g.allowsChange := by
  cases g
  case object | optional | primaryKey | base64 => cases Draw.eq_of_gives_pure h
  all_goals
    rw [changeable]
    rfl

/-- A descent of enough depth. -/
theorem sparesBelow_randomizeWithin (hshifts : shifts ≠ []) (forceNew : Bool) (depth : Nat) :
    SparesBelow shifts f depth (randomizeWithin (γ := γ) forceNew depth) := by
  have hP := lasts_quietAt shifts f
  obtain ⟨shift, hshift⟩ := List.exists_mem_of_ne_nil shifts hshifts
  induction depth generalizing forceNew with
  | zero => exact fun _ _ _ _ _ _ => .throw _
  | succ depth ih =>
    rintro t ⟨id, ⟨name, gene, parent⟩, parts⟩ ht hv hd hevery
    have hrand := fun force => randomizes_randomizeWithin (γ := γ) hP force depth
    have hshaped := hv.shaped
    rw [Shaped] at hshaped
    rw [Every] at hevery
    obtain ⟨⟨⟨⟨hdomain, -⟩, -⟩, hquiet⟩, hparts⟩ := hevery
    have hlow : ∀ p ∈ parts, p.height ≤ depth := by
      intro p hp
      have hlt := height_lt_of_part id ⟨name, gene, parent⟩ hp
      omega
    refine Spares.query_bind fun a ha => ?_
    obtain rfl : gene = a := Except.ok.inj ((gene_of_get? hv.get?_id).symm.trans ha)
    have hleaf := Draw.spares_leaf? (γ := γ) hf hdomain (hquiet shift hshift)
    refine Spares.draw_bind hleaf fun r hr => ?_
    cases r with
    | some fresh =>
      refine spares_setFresh hv fun hchanges => ?_
      have hblank := (Draw.varies_of_leaf? hr).1.blank
      rw [changeable_of_leaf hr, ← Gene.allowsChange_blank, ← hblank, Gene.allowsChange_blank] at hchanges
      exact Draw.spares_newLeaf hf hdomain (hquiet shift hshift) hchanges
    | none =>
      cases gene
      case object fields refType =>
        have hforM := spares_forM_parts (hrand forceNew) (ih forceNew) [] ht hv hlow rfl hparts
        rw [hshaped.1] at hforM
        exact hforM
      case optional inner active =>
        obtain ⟨p, rfl, rfl⟩ := List.map_eq_singleton_iff.mp hshaped.1
        refine Spares.draw_bind Draw.spares_half fun on _ => ?_
        refine Spares.lift_bind (Q := fun _ u => u = t.setGene id (.optional p.id on))
          (Edit.ensures_setActive hv.get?_id rfl rfl) ?_
        rintro - u rfl
        have hset := Renews.setGene (g := .optional p.id on) hP ht hv ⟨rfl, fun h => h, fun h => h⟩ rfl
        exact ih forceNew _ p hset.frame.exact (hset.holds.parts.each p (by simp)) (hlow p (by simp))
          (hparts p (by simp))
      case primaryKey table inner uniqueId =>
        obtain ⟨p, rfl, rfl⟩ := List.map_eq_singleton_iff.mp hshaped.1
        exact ih forceNew t p ht (hv.parts.each p (by simp)) (hlow p (by simp)) (hparts p (by simp))
      case base64 data =>
        obtain ⟨p, rfl, rfl⟩ := List.map_eq_singleton_iff.mp hshaped.1
        exact ih forceNew t p ht (hv.parts.each p (by simp)) (hlow p (by simp)) (hparts p (by simp))
      case array template elements maxSize =>
        obtain ⟨p, old, rfl, rfl, rfl⟩ := List.map_eq_cons_iff.mp hshaped.1
        have hroom := Gene.capacity_lt_of_quiet (hquiet shift hshift) rfl
        have hrenew := spares_renew hf ht hv hroom fun n hu htemplate =>
          spares_freshElements (hrand false) (ih false) hu htemplate (hlow p (by simp))
            (hparts p (by simp)) id n
        exact hrenew
      case map template entries maxSize =>
        obtain ⟨p, old, rfl, rfl, rfl⟩ := List.map_eq_cons_iff.mp hshaped.1
        have hroom := Gene.capacity_lt_of_quiet (hquiet shift hshift) rfl
        have hrenew := spares_renew hf ht hv hroom fun n hu htemplate =>
          spares_freshEntries (hrand false) (ih false) hf hu htemplate (hlow p (by simp))
            (hparts p (by simp)) id n []
        exact hrenew
      all_goals exact .pure ()

/-- No stream of random words makes randomizing end with the fault. -/
theorem spares_randomize {v : GeneTerm} (hshifts : shifts ≠ []) (ht : t.FreeExact) (hv : t.Holds v)
    (hquiet : v.Every (QuietAt shifts f)) (forceNew : Bool) :
    Spares f (randomize v.id forceNew : RandomEdit γ Unit) t :=
  Spares.get_bind (sparesBelow_randomizeWithin hf hshifts forceNew _ t v ht hv
    (hv.height_le_depthBound.trans (Nat.le_add_right _ _)) hquiet)

end RandomEdit
end CallEvolution
