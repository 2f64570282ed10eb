import CallEvolution.Proofs.SafeSteps

/-! Faults and their causes. Calls that draw and change values, with allowed settings and an even choice, end
with a fault only where a gene has extreme bounds, or where days are shifted by more than a span can hold. -/

namespace CallEvolution

open GeneTerm GeneTree

namespace RandomEdit

variable {γ : Type} [RandomSource γ] {f : Fault} {t : GeneTree} {id : NodeId} {vs : List GeneTerm}
  (hf : f ≠ .endlessRedraw)

include hf

omit [RandomSource γ] hf in
theorem mapM_uniform (ids : List NodeId) :
    ids.mapM (Steering.uniform.childWeight t) = .ok (List.replicate ids.length 1) := by
  induction ids with
  | nil => rfl
  | cons x ids ih =>
    rw [List.mapM_cons, ih]
    rfl

/-- One of several parts can be picked, if one of them can change. -/
theorem spares_pickMutable (hvs : t.HoldsAll vs) (hsome : (vs.map changeable).or = true) :
    Spares f (pickMutable .uniform (vs.map GeneTerm.id) : RandomEdit γ NodeId) t := by
  refine Spares.query_bind fun candidates hcandidates => Spares.get_bind ?_
  obtain rfl := Except.ok.inj (hvs.filterM_isMutable.symm.trans hcandidates)
  obtain ⟨v, hv, hchanges⟩ : ∃ v ∈ vs, v.changeable = true := by simpa [List.or] using hsome
  have hpos := List.length_pos_of_mem (List.mem_filter.mpr ⟨hv, hchanges⟩)
  rw [mapM_uniform]
  refine Spares.draw_bind (fun _ => nofun) fun weights hweights => ?_
  obtain rfl := Draw.eq_of_gives_pure hweights
  refine Spares.draw_bind (Draw.spares_weighted hf _) fun i hi => ?_
  have hlt := Draw.weighted_lt (by simpa using hpos.ne') hi
  rw [List.length_replicate] at hlt
  rw [List.getElem?_eq_getElem hlt]
  exact .pure _

omit hf in
theorem spares_planResize {c : MutationSettings} (hc : c.validate = .ok ()) (members : List NodeId)
    (maxSize : Nat) : Spares f (planResize c .uniform id members maxSize : RandomEdit γ Resize) t := by
  obtain ⟨⟨hgrow, hgrow'⟩, ⟨hshrink, hshrink'⟩, -⟩ := MutationSettings.chances_of_validate hc
  unfold planResize
  split
  · exact .pure _
  refine Spares.query_bind fun anyMutable _ => Spares.get_bind ?_
  refine Spares.draw_bind (fun _ => nofun) fun p hp => ?_
  obtain rfl := Draw.eq_of_gives_pure hp
  have hrest : ∀ (grow : Bool) (last : Resize), Spares f (do
      if grow then return .grow
      if ← draw (Draw.chance c.shrinkProbability) then return .shrink
      if anyMutable then return .member
      return last : RandomEdit γ Resize) t := by
    intro grow last
    split
    · exact .pure _
    · refine Spares.draw_bind (Draw.spares_chance hshrink hshrink') fun shrink _ => ?_
      split
      · exact .pure _
      · split
        · exact .pure _
        · exact .pure _
  dsimp only
  split
  · exact Spares.draw_bind (Draw.spares_chance hgrow hgrow') fun grow _ => hrest grow _
  · exact Spares.pure_bind (hrest false _)

/-- A step that ends without the fault on every held term whose genes keep clear of it. -/
def SparesAll {α : Type} (shifts : List Int64) (f : Fault) (step : NodeId → RandomEdit γ α) : Prop :=
  ∀ (t : GeneTree) (v : GeneTerm), t.FreeExact → t.Holds v → v.Every (QuietAt shifts f) →
    Spares f (step v.id) t

variable {shifts : List Int64} {content : GeneNode} {template : GeneTerm} {members parts : List GeneTerm}
  {c : MutationSettings} {step : NodeId → RandomEdit γ (List NodeId)}

omit [RandomSource γ] hf in
theorem SparesAll.part (hspare : SparesAll shifts f step) (ht : t.FreeExact) (hvs : t.HoldsAll vs)
    (hquiet : ∀ v ∈ vs, v.Every (QuietAt shifts f)) {x : NodeId} (hx : x ∈ vs.map GeneTerm.id) :
    Spares f (do return id :: (← step x) : RandomEdit γ (List NodeId)) t := by
  obtain ⟨p, hp, rfl⟩ := List.mem_map.mp hx
  exact (hspare t p ht (hvs.each p hp) (hquiet p hp)).bind_any fun _ _ => .pure _

theorem spares_grow (hshifts : shifts ≠ []) (ht : t.FreeExact) (htemplate : t.Holds template)
    (hquiet : template.Every (QuietAt shifts f)) (isMap : Bool) (ids : List NodeId) :
    Spares f (grow id isMap template.id ids : RandomEdit γ NodeId) t := by
  have hspare : SparesBelow shifts f template.height
      fun element => (randomize element false : RandomEdit γ Unit) :=
    fun u v hu hv _ hq => spares_randomize hf hshifts hu hv hq false
  have hlist : ∀ (x : NodeId) (u : GeneTree), Spares f (do
      Edit.setMembers id (ids ++ [x])
      return x : RandomEdit γ NodeId) u :=
    fun x u => (Spares.lift (Edit.ensures_setMembers_any _)).bind_any fun _ _ => .pure _
  unfold grow
  cases isMap with
  | false => exact (spares_freshElement hspare ht htemplate le_rfl hquiet id).bind_any hlist
  | true =>
    refine Spares.query_bind fun used _ => ?_
    exact ((spares_freshEntry hspare hf ht htemplate le_rfl hquiet id used).map _).bind_any hlist

theorem spares_shrink {ids : List NodeId} (hsome : ids ≠ []) :
    Spares f (shrink id ids : RandomEdit γ Unit) t := by
  refine Spares.draw_bind (Draw.spares_index hf (List.length_pos_iff.mpr hsome)) fun i hi => ?_
  refine (Spares.lift (Edit.ensures_setMembers_any _)).bind_any fun _ u => ?_
  rw [List.getElem?_eq_getElem (Draw.index_lt hi)]
  exact .lift Edit.ensures_release_any

/-- A plan for a collection is carried out. -/
theorem spares_collection (hshifts : shifts ≠ []) (hc : c.validate = .ok ()) (hspare : SparesAll shifts f step)
    (ht : t.FreeExact) (hvs : t.HoldsAll (template :: members))
    (hquiet : ∀ v ∈ template :: members, v.Every (QuietAt shifts f)) (isMap : Bool) (maxSize : Nat) :
    Spares f (do
        match ← planResize c .uniform id (members.map GeneTerm.id) maxSize with
        | .grow => return [id, ← grow id isMap template.id (members.map GeneTerm.id)]
        | .shrink => do
          shrink id (members.map GeneTerm.id)
          return [id]
        | .member => do
          let member ← pickMutable .uniform (members.map GeneTerm.id)
          return id :: (← step member) : RandomEdit γ (List NodeId)) t := by
  obtain ⟨htemplate, hmembers⟩ := List.forall_mem_cons.mp hquiet
  refine (spares_planResize hc _ maxSize).bind (finds_planResize c .uniform id hvs.tail maxSize).views ?_
  rintro r u ⟨rfl, hr⟩
  have hsuits := hr r rfl
  cases r with
  | grow => exact (spares_grow hf hshifts ht hvs.head htemplate isMap _).bind_any fun _ _ => .pure _
  | shrink => exact (spares_shrink hf hsuits).bind_any fun _ _ => .pure _
  | member =>
    have hsome : (members.map changeable).or = true :=
      Except.ok.inj (hvs.tail.anyM_isMutable.symm.trans hsuits)
    refine (spares_pickMutable hf hvs.tail hsome).bind (finds_pickMutable .uniform hvs.tail).views ?_
    rintro x u ⟨rfl, hx⟩
    obtain ⟨p, hp, rfl, -⟩ := hx x rfl
    exact hspare.part ht hvs.tail hmembers (List.mem_map_of_mem hp)

omit hf in
theorem spares_optional (hc : c.validate = .ok ()) {inner : NodeId} {active : Bool}
    (hinner : Spares f (do return id :: (← step inner) : RandomEdit γ (List NodeId)) t) :
    Spares f (do
        if !active then
          Edit.setActive id true
          return [id]
        let toggled ← draw (Draw.chance c.toggleProbability)
        let off ← if toggled then pure true else (! ·) <$> Edit.query (·.isMutable inner)
        if off then
          Edit.setActive id false
          return [id]
        else return id :: (← step inner) : RandomEdit γ (List NodeId)) t := by
  obtain ⟨-, -, -, hlow, hhigh⟩ := MutationSettings.chances_of_validate hc
  have hswitch : ∀ on, Spares f (do
      Edit.setActive id on
      return [id] : RandomEdit γ (List NodeId)) t := fun on =>
    (Spares.lift (Edit.ensures_setActive_any on)).bind_any fun _ _ => .pure _
  have hrest : ∀ off : Bool, Spares f (if off then do
        Edit.setActive id false
        return [id]
      else do return id :: (← step inner) : RandomEdit γ (List NodeId)) t := by
    intro off
    cases off with
    | true => exact hswitch false
    | false => exact hinner
  cases active with
  | false => exact hswitch true
  | true =>
    refine Spares.draw_bind (Draw.spares_chance hlow hhigh) fun toggled _ => ?_
    cases toggled with
    | true => exact Spares.pure_bind (hrest true)
    | false =>
      have hview : Views ((! ·) <$> (Edit.query (·.isMutable inner) : RandomEdit γ Bool)) t
          fun _ => True := views_query.map fun _ _ => trivial
      refine (Spares.map (Spares.lift Edit.views_query) _).bind hview ?_
      rintro off u ⟨rfl, -⟩
      exact hrest off

theorem sparesAll_mutateWithin (hc : c.validate = .ok ()) (hshift : c.maxTimeShift ∈ shifts) (depth : Nat) :
    SparesAll shifts f (mutateWithin (γ := γ) c .uniform depth) := by
  have hshifts := List.ne_nil_of_mem hshift
  induction depth with
  | zero => exact fun _ _ _ _ _ => .throw _
  | succ depth ih =>
    rintro t ⟨id, ⟨name, gene, parent⟩, parts⟩ ht hv hevery
    have hshaped := hv.shaped
    rw [Shaped] at hshaped
    rw [Every] at hevery
    obtain ⟨⟨⟨⟨hdomain, -⟩, hbounded, -⟩, hquiet⟩, hparts⟩ := hevery
    refine Spares.query_bind fun changes hmut => ?_
    cases changes with
    | false => exact Spares.query_bind fun _ _ => .throw_bind _
    | true =>
      have hchanges := Except.ok.inj (hv.isMutable.symm.trans hmut)
      refine Spares.query_bind fun a ha => ?_
      obtain rfl : gene = a := Except.ok.inj ((gene_of_get? hv.get?_id).symm.trans ha)
      rw [changeable] at hchanges
      cases gene
      case object fields refType =>
        obtain rfl : parts.map GeneTerm.id = fields := hshaped.1
        refine (spares_pickMutable hf hv.parts hchanges).bind (finds_pickMutable .uniform hv.parts).views ?_
        rintro x u ⟨rfl, hx⟩
        obtain ⟨p, hp, rfl, -⟩ := hx x rfl
        exact ih.part ht hv.parts hparts (List.mem_map_of_mem hp)
      case optional inner active =>
        refine spares_optional hc (ih.part ht hv.parts hparts ?_)
        rw [hshaped.1]
        exact List.mem_singleton_self _
      case primaryKey table inner uniqueId | base64 inner =>
        refine ih.part ht hv.parts hparts ?_
        rw [hshaped.1]
        exact List.mem_singleton_self _
      case array template members maxSize =>
        obtain ⟨p, old, rfl, rfl, rfl⟩ := List.map_eq_cons_iff.mp hshaped.1
        exact spares_collection hf hshifts hc ih ht hv.parts hparts false maxSize
      case map template members maxSize =>
        obtain ⟨p, old, rfl, rfl, rfl⟩ := List.map_eq_cons_iff.mp hshaped.1
        exact spares_collection hf hshifts hc ih ht hv.parts hparts true maxSize
      all_goals
        refine Spares.draw_bind (Draw.spares_mutatedLeaf hf hc hdomain hbounded (hquiet _ hshift) hchanges) ?_
        exact fun _ _ => (Spares.update _).bind_any fun _ _ => .pure _

/-- No stream of random words makes a mutation end with the fault. -/
theorem spares_mutate {v : GeneTerm} (hc : c.validate = .ok ()) (hshift : c.maxTimeShift ∈ shifts)
    (ht : t.FreeExact) (hv : t.Holds v) (hquiet : v.Every (QuietAt shifts f)) :
    Spares f (mutate c .uniform v.id : RandomEdit γ (List NodeId)) t :=
  Spares.get_bind (sparesAll_mutateWithin hf hc hshift _ t v ht hv hquiet)

end RandomEdit

namespace TreeCall

variable {γ : Type} [RandomSource γ] {f : Fault} {t : GeneTree} {id : NodeId} {v : GeneTerm}
  {shifts : List Int64}

/-- Does a call draw or change values only, with settings that are allowed and an even choice? -/
def IsPlain : TreeCall → Prop
  | randomize .. => True
  | mutate c steering _ => c.validate = .ok () ∧ steering = .uniform
  | _ => False

/-- The longest shift of a day that a call may make, in seconds. -/
def shift : TreeCall → Int64
  | mutate c _ _ => c.maxTimeShift
  | _ => 0

theorem spares_randomize_dead (h : t.get? id = none) (forceNew : Bool) :
    RandomEdit.Spares f (RandomEdit.randomize id forceNew : RandomEdit γ Unit) t := by
  refine RandomEdit.Spares.get_bind ?_
  cases RandomEdit.descentBound t with
  | zero => exact .throw _
  | succ depth => exact RandomEdit.Spares.query_bind fun g hg => absurd hg (not_gene_of_dead h)

theorem spares_mutate_dead (h : t.get? id = none) (c : MutationSettings) (steering : Steering) :
    RandomEdit.Spares f (RandomEdit.mutate c steering id : RandomEdit γ (List NodeId)) t := by
  refine RandomEdit.Spares.get_bind ?_
  cases RandomEdit.descentBound t with
  | zero => exact .throw _
  | succ depth =>
    refine RandomEdit.Spares.query_bind fun b hb => ?_
    obtain ⟨g, hg, -⟩ := ok_of_bind hb
    exact absurd hg (not_gene_of_dead h)

/-- A call on a tree whose genes keep clear of the fault ends without it, wherever it is made. -/
theorem spares_perform (hf : f ≠ .endlessRedraw) (ht : t.Sustains (QuietAt shifts f) v) {call : TreeCall}
    (hcall : call.IsPlain) (hshift : call.shift ∈ shifts) :
    RandomEdit.Spares f (call.perform : RandomEdit γ Unit) t := by
  obtain ⟨w, hw, -, -, hquiet⟩ := ht
  have hfind : ∀ {id : NodeId} {n : GeneNode}, t.get? id = some n →
      ∃ p, p.id = id ∧ t.Holds p ∧ p.Every (QuietAt shifts f) := by
    intro id n hid
    obtain ⟨hs, p, rfl, hp, -⟩ := exists_plug (hw.full id (contains_of_get? hid))
    exact ⟨p, hp, hw.holds.of_plug, hquiet.of_plug⟩
  cases call with
  | randomize id forceNew =>
    cases hid : t.get? id with
    | none => exact spares_randomize_dead hid forceNew
    | some n =>
      obtain ⟨p, rfl, hp, hclear⟩ := hfind hid
      exact RandomEdit.spares_randomize hf (List.ne_nil_of_mem hshift) hw.exact hp hclear forceNew
  | mutate c steering id =>
    obtain ⟨hc, rfl⟩ := hcall
    cases hid : t.get? id with
    | none => exact (spares_mutate_dead hid c .uniform).map _
    | some n =>
      obtain ⟨p, rfl, hp, hclear⟩ := hfind hid
      exact (RandomEdit.spares_mutate hf hc hshift hw.exact hp hclear).map _
  | copyFrom | adopt | setLeaf | setActive => exact hcall.elim

theorem spares_leaveAll (hf : f ≠ .endlessRedraw) {calls : List TreeCall} (ht : t.Sustains (QuietAt shifts f) v)
    (hcalls : ∀ call ∈ calls, call.IsPlain ∧ call.shift ∈ shifts) :
    Draw.Spares f (leaveAll calls t : Draw γ GeneTree) := by
  induction calls generalizing t with
  | nil => exact .pure t
  | cons call calls ih =>
    obtain ⟨⟨hcall, hshift⟩, hrest⟩ := List.forall_mem_cons.mp hcalls
    have hupholds : call.Upholds (QuietAt shifts f) t := by
      cases call with
      | randomize | mutate => trivial
      | copyFrom | adopt | setLeaf | setActive => exact hcall.elim
    rw [leaveAll, List.foldlM_cons]
    refine Draw.Spares.bind ?_ fun u hu => ?_
    · exact Draw.Spares.bind (spares_perform hf ht hcall hshift) fun _ _ => .pure _
    · obtain ⟨⟨r, u'⟩, hr, hu⟩ := Draw.gives_of_bind hu
      rw [Draw.eq_of_gives_pure hu]
      exact ih ((ensures_perform_sustains (lasts_quietAt shifts f) call ht hupholds).2 r u' hr) hrest

/-- A run of calls on what the constructors make ends in one of three ways: it gets through, a draw is rejected
over and over, or there is a cause. A cause is a gene that the tree has had from the beginning, with bounds too
wide for a draw, or a day or moment under settings that shift it by more than a span can hold. -/
theorem fault_has_cause {calls : List TreeCall} {s : γ} (ht : Built t) (hcalls : ∀ call ∈ calls, call.IsPlain)
    (h : leaveAll calls t s = .error f) :
    f = .endlessRedraw ∨ ∃ call ∈ calls, ∃ id g, t.gene id = .ok g ∧ g.Provokes call.shift f := by
  by_contra hnot
  obtain ⟨hf, hquiet⟩ := not_or.mp hnot
  obtain ⟨v, hv, hmade⟩ := ht.isMade (lasts_domainAt.and lasts_patternAt) (begins_domainAt.and begins_patternAt)
  have hclear : ∀ id g, t.gene id = .ok g → ∀ n ∈ calls.map shift, ¬ g.Provokes n f := by
    intro id g hg n hn hprovokes
    obtain ⟨call, hcall, rfl⟩ := List.mem_map.mp hn
    exact hquiet ⟨call, hcall, id, g, hg, hprovokes⟩
  have hsustains : t.Sustains (QuietAt (calls.map shift) f) v :=
    ⟨v, hv, rfl, rfl, every_and.mpr ⟨hmade, hv.holds.every_gene hclear⟩⟩
  exact spares_leaveAll hf hsustains (fun call hcall => ⟨hcalls call hcall, List.mem_map_of_mem hcall⟩) s h

/-- Allowed settings shift a moment by more than a span can hold, where a step as long as that would only leave
the moment as it is; and no number is drawn between the least and the greatest one. -/
theorem allowed_calls_fault :
    let c : MutationSettings := { maxTimeShift := Int64.maxValue }
    let widest : Double := 1.7976931348623157e308
    let t := leaf "x" (.double 0 (-widest) widest)
    c.validate = .ok () ∧ Built (GeneTree.moment "at") ∧
      (leave (.mutate c .uniform ⟨0⟩) (GeneTree.moment "at") (⟨[], 1⟩ : WordSource)).map Prod.fst =
        .error .unboundedSpan ∧
      doubleIn "x" (-widest) widest = .ok t ∧ Built t ∧
        (leave (.randomize ⟨0⟩ false) t (⟨[], 1⟩ : WordSource)).map Prod.fst = .error .unboundedRange := by
  intro c widest t
  have ht : doubleIn "x" (-widest) widest = .ok t := by decide +kernel
  exact ⟨by decide +kernel, .moment "at", by decide +kernel, ht, .doubleIn ht, by decide +kernel⟩

/-- The cause is the moment in the object, which is randomized before it is shifted. -/
theorem fault_has_cause_of_moment :
    let calls : List TreeCall := [.randomize ⟨0⟩ true, .mutate { maxTimeShift := Int64.maxValue } .uniform ⟨2⟩]
    let t := object "o" [GeneTree.integer "n", GeneTree.moment "at"]
    leaveAll calls t (⟨[], 1⟩ : WordSource) = .error .unboundedSpan ∧
      ∃ call ∈ calls, ∃ id g, t.gene id = .ok g ∧ g.Provokes call.shift .unboundedSpan := by
  intro calls t
  have hstops : leaveAll calls t (⟨[], 1⟩ : WordSource) = .error .unboundedSpan := by
    have hrun : (leaveAll calls t (⟨[], 1⟩ : WordSource)).map Prod.fst = .error .unboundedSpan := by
      decide +kernel
    exact error_of_map hrun
  have ht : Built t := by
    refine .object "o" ?_
    simp only [List.forall_mem_cons, List.not_mem_nil, false_implies, implies_true, and_true]
    exact ⟨.integer "n", .moment "at"⟩
  have hcalls : ∀ call ∈ calls, call.IsPlain := by
    simp only [calls, List.forall_mem_cons, List.not_mem_nil, false_implies, implies_true, and_true]
    exact ⟨trivial, by decide +kernel, rfl⟩
  exact ⟨hstops, (fault_has_cause ht hcalls hstops).resolve_left nofun⟩

end TreeCall
end CallEvolution
