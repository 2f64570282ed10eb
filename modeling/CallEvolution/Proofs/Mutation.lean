import CallEvolution.Proofs.Randomization

/-! A mutation refills a term, whatever it answers, and a condition on its nodes lasts. It answers the path to
the one thing that it alters: a template has no value of its own, and what an inactive optional hides is left
alone, so neither is on the way. A collection grows only if it has room, so a new member is never left without
its collection. -/

namespace CallEvolution

open GeneTerm

namespace GeneTerm

variable {R : Gene → Gene → Prop}

/-- One thing altered at the head of a term, and the nodes that it touches: a leaf has another gene, an
optional is switched, a collection has a member more or less. -/
inductive Alters (R : Gene → Gene → Prop) : GeneTerm → GeneTerm → List NodeId → Prop where
  | leaf {id : NodeId} {content : GeneNode} {g : Gene} (h : R content.gene g) :
    Alters R (node id content []) (node id { content with gene := g } []) [id]
  | switch {id inner : NodeId} {content : GeneNode} {parts : List GeneTerm} {active : Bool}
      (h : content.gene = .optional inner active) :
    Alters R (node id content parts) (node id { content with gene := .optional inner !active } parts) [id]
  | grow {id : NodeId} {content : GeneNode} {template w : GeneTerm} {members : List GeneTerm}
      (hc : content.gene.isCollection = true) :
    Alters R (node id content (template :: members))
      (node id { content with gene := content.gene.withMembers ((members ++ [w]).map GeneTerm.id) }
        (template :: (members ++ [w]))) [id, w.id]
  | shrink {id : NodeId} {content : GeneNode} {template m : GeneTerm} {before after : List GeneTerm}
      (hc : content.gene.isCollection = true) :
    Alters R (node id content (template :: (before ++ m :: after)))
      (node id { content with gene := content.gene.withMembers ((before ++ after).map GeneTerm.id) }
        (template :: (before ++ after))) [id]

/-- One thing altered somewhere in a term, and the path from its head. -/
inductive Traces (R : Gene → Gene → Prop) : GeneTerm → GeneTerm → List NodeId → Prop where
  | here {v w : GeneTerm} {path : List NodeId} (h : Alters R v w path) : Traces R v w path
  | part {id : NodeId} {content : GeneNode} {before after : List GeneTerm} {p q : GeneTerm}
      {path : List NodeId} (hmember : content.gene.isCollection = true → before ≠ [])
      (hactive : ∀ inner, content.gene ≠ .optional inner false) (h : Traces R p q path) :
    Traces R (node id content (before ++ p :: after)) (node id content (before ++ q :: after)) (id :: path)

end GeneTerm

namespace GeneTree

variable {t u : GeneTree} {id : NodeId} {content : GeneNode}

theorem capacity_pos (hid : t.get? id = some content) (hc : content.gene.isCollection = true)
    (hmut : t.isMutable id = .ok true) : 0 < content.gene.capacity := by
  obtain ⟨name, gene, parent⟩ := content
  have hgene : t.gene id = .ok gene := gene_of_get? hid
  rw [isMutable, depthBound, isMutableWithin, hgene] at hmut
  cases gene
  case array | map => exact of_decide_eq_true (Except.ok.inj hmut)
  all_goals cases hc

theorem filterM_changeable {f : NodeId → Except GeneError Bool} {vs : List GeneTerm}
    (h : ∀ v ∈ vs, f v.id = .ok v.changeable) :
    (vs.map GeneTerm.id).filterM f = .ok ((vs.filter changeable).map GeneTerm.id) := by
  have haux : ∀ acc, (vs.map GeneTerm.id).filterAuxM f acc =
      .ok (((vs.filter changeable).map GeneTerm.id).reverse ++ acc) := by
    induction vs with
    | nil => exact fun _ => rfl
    | cons v vs ih =>
      intro acc
      rw [List.map_cons, List.filterAuxM, h v List.mem_cons_self]
      refine (ih (fun x hx => h x (List.mem_cons_of_mem _ hx)) _).trans ?_
      cases hv : v.changeable <;> simp [hv]
  rw [List.filterM, haux]
  change Except.ok _ = _
  rw [List.append_nil, List.reverse_reverse]

theorem HoldsAll.filterM_isMutable {vs : List GeneTerm} (hvs : t.HoldsAll vs) :
    (vs.map GeneTerm.id).filterM t.isMutable = .ok ((vs.filter changeable).map GeneTerm.id) :=
  filterM_changeable fun v hv => (hvs.each v hv).isMutable

theorem HoldsAll.anyM_isMutable {vs : List GeneTerm} (hvs : t.HoldsAll vs) :
    (vs.map GeneTerm.id).anyM t.isMutable = .ok (vs.map changeable).or :=
  anyM_changeable fun v hv => (hvs.each v hv).isMutable

theorem HoldsAll.mapM_name {vs : List GeneTerm} (hvs : t.HoldsAll vs) :
    (vs.map GeneTerm.id).mapM t.name = .ok (vs.map (·.content.name)) := by
  induction vs with
  | nil => rfl
  | cons v vs ih =>
    have hname : t.name v.id = .ok v.content.name := by
      rw [GeneTree.name, node_of_get? hvs.head.get?_id]
      rfl
    rw [List.map_cons, List.mapM_cons, hname, ih hvs.tail]
    rfl

theorem footprints_perm {vs ws : List GeneTerm} (h : vs.Perm ws) : footprints vs = footprints ws := by
  ext x
  exact (h.flatMap_right _).mem_iff

theorem HoldsAll.perm {vs ws : List GeneTerm} (hvs : t.HoldsAll vs) (h : vs.Perm ws) :
    t.HoldsAll ws where
  each v hv := hvs.each v (h.mem_iff.mpr hv)
  distinct := (h.flatMap_right _).nodup_iff.mp hvs.distinct

theorem HoldsAll.concat {vs : List GeneTerm} {w : GeneTerm} (hvs : t.HoldsAll vs) (hw : t.Holds w)
    (hdis : ∀ x ∈ w.ids, x ∉ allIds vs) : t.HoldsAll (vs ++ [w]) :=
  have hcons : t.HoldsAll ([w] ++ vs) := HoldsAll.cons hw hvs hdis
  hcons.perm List.perm_append_comm

end GeneTree

open GeneTree

/-- Can a change of a collection be carried out: is there room, a member to take out, or one to change? -/
def Resize.Suits (t : GeneTree) (members : List NodeId) (maxSize : Nat) : Resize → Prop
  | grow => members = [] ∨ members.length < maxSize
  | shrink => members ≠ []
  | member => members.anyM t.isMutable = .ok true

/-- What a mutation may make of a leaf that can change. -/
def Gene.MutatesTo (γ : Type) [RandomSource γ] (c : MutationSettings) (g k : Gene) : Prop :=
  g.allowsChange = true ∧ Gives (Draw.mutatedLeaf c g : Draw γ Gene) k

namespace RandomEdit

variable {γ : Type} {d : Nat} {t u : GeneTree} {id : NodeId} {content : GeneNode} {v w : GeneTerm}
  {P : Gene → List GeneTerm → Prop} {R : Gene → Gene → Prop}

/-- What a mutation of a term ends with. Its answer is the path to what it alters, and it has one if the term
can change, is not too deep and has no collection that is too full. -/
structure Answers (P : Gene → List GeneTerm → Prop) (R : Gene → Gene → Prop) (d : Nat) (t : GeneTree)
    (v : GeneTerm) (r : Except GeneError (List NodeId)) (u : GeneTree) (w : GeneTerm) : Prop
    extends Renews P t v u w where
  traces : ∀ path, r = .ok path → Traces R v w path
  answered : v.changeable = true → v.height ≤ d → (v.Every fun g _ => g.InDomain) → ∃ path, r = .ok path

namespace Answers

theorem ok {path : List NodeId} (h : Renews P t v u w) (hpath : Traces R v w path) :
    Answers P R d t v (.ok path) u w :=
  ⟨h, fun _ he => Except.ok.inj he ▸ hpath, fun _ _ _ => ⟨path, rfl⟩⟩

theorem error {e : GeneError} (ht : t.FreeExact) (hv : t.Holds v)
    (h : v.changeable = true → v.height ≤ d → ¬ v.Every fun g _ => g.InDomain) :
    Answers P R d t v (.error e) t v :=
  ⟨.refl ht hv, fun _ he => (by cases he), fun hchanges hd hevery => absurd hevery (h hchanges hd)⟩

end Answers

/-- A step that renews every held term, be it with an answer or with an error. -/
def Mutates (P : Gene → List GeneTerm → Prop) (R : Gene → Gene → Prop) (d : Nat)
    (step : NodeId → RandomEdit γ (List NodeId)) : Prop :=
  ∀ (t : GeneTree) (v : GeneTerm), t.FreeExact → t.Holds v →
    Ensures (step v.id) t fun r u => ∃ w, Answers P R d t v r u w

variable {step : NodeId → RandomEdit γ (List NodeId)}

theorem Mutates.part (hP : Lasts P) (hstep : Mutates P R d step) {parts : List GeneTerm} {p : GeneTerm}
    (ht : t.FreeExact) (hv : t.Holds (.node id content parts))
    (hp : p ∈ if content.gene.isCollection then parts.tail else parts)
    (hactive : ∀ inner, content.gene ≠ .optional inner false) (hchanges : p.changeable = true) :
    Ensures (do return id :: (← step p.id) : RandomEdit γ (List NodeId)) t fun r u =>
      ∃ w, Answers P R (d + 1) t (.node id content parts) r u w := by
  obtain ⟨pre, post, rfl, hpre⟩ : ∃ pre post, parts = pre ++ p :: post ∧
      (content.gene.isCollection = true → pre ≠ []) := by
    by_cases hc : content.gene.isCollection = true
    · rw [if_pos hc] at hp
      cases parts with
      | nil => cases hp
      | cons template members =>
        obtain ⟨pre, post, rfl⟩ := List.append_of_mem hp
        exact ⟨template :: pre, post, rfl, fun _ => by simp⟩
    · rw [if_neg hc] at hp
      obtain ⟨pre, post, rfl⟩ := List.append_of_mem hp
      exact ⟨pre, post, rfl, fun h => absurd h hc⟩
  have hmem : p ∈ pre ++ p :: post := by simp
  refine Ensures.bind (hstep t p ht (hv.parts.each p hmem)) ?_ ?_
  · rintro path u ⟨q, hq⟩
    exact Ensures.pure ⟨_, .ok (hq.part hP hv hpre) (.part hpre hactive (hq.traces path rfl))⟩
  · rintro e u ⟨q, hq⟩
    refine ⟨_, hq.part hP hv hpre, fun _ he => (by cases he), fun _ hd hevery => ?_⟩
    have hlt := height_lt_of_part id content hmem
    obtain ⟨path, hpath⟩ := hq.answered hchanges (by omega) (hevery.of_part hmem)
    cases hpath

variable [RandomSource γ]

/-- What is planned for a collection changes nothing, and can be carried out. -/
theorem finds_planResize (c : MutationSettings) (steering : Steering) (id : NodeId)
    {members : List GeneTerm} (hmembers : t.HoldsAll members) (maxSize : Nat) :
    Finds (planResize c steering id (members.map GeneTerm.id) maxSize : RandomEdit γ Resize) t
      (Resize.Suits t (members.map GeneTerm.id) maxSize) := by
  have hany := hmembers.anyM_isMutable
  generalize members.map GeneTerm.id = ids at hany
  generalize (members.map changeable).or = changes at hany
  unfold planResize
  by_cases hempty : ids = []
  · subst hempty
    exact Finds.pure (.inl rfl)
  rw [if_neg (by simpa using hempty)]
  refine (finds_query hany).bind fun anyMutable he => finds_get.bind fun t' _ => finds_draw.bind fun p _ => ?_
  have hmember : anyMutable = true → Resize.Suits t ids maxSize .member := by
    rintro rfl
    rwa [← he] at hany
  -- only where there is room do the lots hold the growth of a collection
  by_cases hroom : ids.length < maxSize
  · have hgrow : Resize.Suits t ids maxSize .grow := .inr hroom
    simp only [hroom, decide_true, if_true]
    cases p with
    | some p =>
      refine finds_draw.bind fun resize _ => ?_
      split
      · next h => exact Finds.pure (hmember (Bool.and_eq_true_iff.mp h).2)
      · refine finds_draw.bind fun grow _ => Finds.pure ?_
        cases grow with
        | true => exact hgrow
        | false => exact hempty
    | none =>
      refine finds_draw.bind fun grow _ => ?_
      split
      · exact Finds.pure hgrow
      · refine finds_draw.bind fun shrink _ => ?_
        split
        · exact Finds.pure hempty
        · split
          · next h => exact Finds.pure (hmember h)
          · exact Finds.pure hgrow
  · simp only [hroom, decide_false, Bool.false_eq_true, if_false]
    cases p with
    | some p =>
      refine finds_draw.bind fun resize _ => ?_
      split
      · next h => exact Finds.pure (hmember (Bool.and_eq_true_iff.mp h).2)
      · exact Finds.pure hempty
    | none =>
      refine finds_draw.bind fun shrink _ => ?_
      split
      · exact Finds.pure hempty
      · split
        · next h => exact Finds.pure (hmember h)
        · exact Finds.pure hempty

/-- The node that is picked among several can change. -/
theorem finds_pickMutable (steering : Steering) {vs : List GeneTerm} (hvs : t.HoldsAll vs) :
    Finds (pickMutable steering (vs.map GeneTerm.id) : RandomEdit γ NodeId) t fun x =>
      ∃ p ∈ vs, p.id = x ∧ p.changeable = true := by
  refine (finds_query hvs.filterM_isMutable).bind fun candidates hcandidates => finds_get.bind fun t' _ =>
    finds_draw.bind fun weights _ => finds_draw.bind fun i _ => ?_
  subst hcandidates
  cases hi : ((vs.filter changeable).map GeneTerm.id)[i]? with
  | none => exact ensures_fault
  | some x =>
    obtain ⟨p, hp, rfl⟩ := List.mem_map.mp (List.mem_of_getElem? hi)
    obtain ⟨hp, hchanges⟩ := List.mem_filter.mp hp
    exact Finds.pure ⟨p, hp, rfl, hchanges⟩

omit [RandomSource γ] in
theorem ensures_append (hP : Lasts P) {template w : GeneTerm} {members : List GeneTerm}
    (hv : t.Holds (.node id content (template :: members))) (hc : content.gene.isCollection = true)
    (hroom : members.length < content.gene.capacity) {u : GeneTree} (hw : Adds t u id w)
    (hcopy : Conserves P template w)
    (hname : content.gene.variant = .map → w.content.name ∉ members.map (·.content.name)) :
    Ensures (do
        Edit.setMembers id (members.map GeneTerm.id ++ [w.id])
        return w.id : RandomEdit γ NodeId) u fun r s => r = .ok w.id ∧
      Renews P t (.node id content (template :: members)) s
        (.node id { content with gene := content.gene.withMembers ((members ++ [w]).map GeneTerm.id) }
          (template :: (members ++ [w]))) := by
  have hshaped := hv.shaped
  rw [Shaped] at hshaped
  have hid := hw.frame.get?_eq hv.get?_node (Set.notMem_empty _)
  have hframe := hw.frame.widen (footprints members)
  have hfoot : footprints (members ++ [w]) = w.footprint ∪ footprints members := by
    rw [footprints_append, footprints_cons, footprints_nil, Set.union_empty, Set.union_comm]
  rw [Set.empty_union, ← hfoot] at hframe
  have hdis := hw.frame.disjoint_news hv.parts.tail (Set.disjoint_empty _)
  have hnew := (hw.frame.holdsAll hv.parts.tail (Set.disjoint_empty _)).concat hw.holds
    fun x hx => Set.disjoint_right.mp hdis hx
  have hfit : ((members ++ [w]).map GeneTerm.id).length ≤ content.gene.capacity := by
    rw [List.length_map, List.length_append]
    exact hroom
  have howner : ∀ p ∈ members ++ [w], p.content.parent = some id := by
    intro p hp
    rcases List.mem_append.mp hp with hp | hp
    · exact (hshaped.2 p (List.mem_cons_of_mem _ hp)).1
    · rw [List.mem_singleton.mp hp, hw.owner]
  have hrefill := Refills.exchange hv hc hframe hnew howner
  have hrenew := Renews.of_members hc hrefill (hP.more hc hroom hcopy.stencil hname)
    fun htemplate hmembers m hm => ?_
  · have hset := Edit.ensures_setMembers_ok hid hc hfit
    have hids : members.map GeneTerm.id ++ [w.id] = (members ++ [w]).map GeneTerm.id := by simp
    rw [hids]
    refine Ensures.bind_ok (P := fun _ s => s = u.setGene id
      (content.gene.withMembers ((members ++ [w]).map GeneTerm.id))) (ensures_lift (hset.mono ?_)) ?_
    · rintro r s ⟨rfl, rfl⟩
      exact ⟨(), rfl, rfl⟩
    · rintro - s rfl
      exact Ensures.pure ⟨rfl, hrenew⟩
  · rcases List.mem_append.mp hm with hm | hm
    · exact hmembers m hm
    · rw [List.mem_singleton.mp hm]
      exact hcopy.every htemplate

theorem ensures_grow (hP : Lasts P) {template : GeneTerm} {members : List GeneTerm} (ht : t.FreeExact)
    (hv : t.Holds (.node id content (template :: members))) (hc : content.gene.isCollection = true)
    (hroom : members.length < content.gene.capacity) {isMap : Bool}
    (hmap : content.gene.variant = .map → isMap = true) :
    Ensures (grow id isMap template.id (members.map GeneTerm.id) : RandomEdit γ NodeId) t fun r u =>
      ∃ w, r = .ok w.id ∧ Renews P t (.node id content (template :: members)) u
        (.node id { content with gene := content.gene.withMembers ((members ++ [w]).map GeneTerm.id) }
          (template :: (members ++ [w]))) := by
  have hstep : Randomizes P template.height
      fun element => (randomize element false : RandomEdit γ Unit) :=
    fun u v hu hv _ => renews_randomize hP hu hv false
  unfold grow
  cases isMap with
  | false =>
    refine Ensures.bind_ok (P := fun a u => ∃ w, a = w.id ∧ Adds t u id w ∧ Conserves P template w)
      ((ensures_freshElement hP hstep ht hv.parts.head le_rfl id).mono ?_) ?_
    · rintro r u ⟨w, rfl, hw⟩
      exact ⟨w.id, rfl, w, rfl, hw⟩
    · rintro a u ⟨w, rfl, hw, hcopy⟩
      refine (ensures_append hP hv hc hroom hw hcopy fun h => absurd (hmap h) Bool.false_ne_true).mono ?_
      exact fun r s h => ⟨w, h⟩
  | true =>
    refine (finds_query hv.parts.tail.mapM_name).ensures_bind fun used hused => ?_
    subst hused
    refine Ensures.bind_ok (P := fun a u => ∃ w, a = w.id ∧ Adds t u id w ∧ Conserves P template w ∧
      w.content.name ∉ members.map (·.content.name))
      (Ensures.map ((ensures_freshEntry hP hstep ht hv.parts.head le_rfl id _).mono ?_)) ?_
    · rintro r u ⟨w, rfl, hw⟩
      exact ⟨w.id, rfl, w, rfl, hw⟩
    · rintro a u ⟨w, rfl, hw, hcopy, hname⟩
      exact (ensures_append hP hv hc hroom hw hcopy fun _ => hname).mono fun r s h => ⟨w, h⟩

/-- A member that is listed no longer is released. -/
theorem ensures_release_member (hP : Lasts P) {template m : GeneTerm} {before after : List GeneTerm}
    (ht : t.FreeExact) (hv : t.Holds (.node id content (template :: (before ++ m :: after))))
    (hc : content.gene.isCollection = true) :
    Ensures (Edit.release m.id)
      (t.setGene id (content.gene.withMembers ((before ++ after).map GeneTerm.id))) fun r u =>
        r = .ok () ∧ Renews P t (.node id content (template :: (before ++ m :: after))) u
          (.node id { content with gene := content.gene.withMembers ((before ++ after).map GeneTerm.id) }
            (template :: (before ++ after))) := by
  have hshaped := hv.shaped
  rw [Shaped] at hshaped
  -- the member that goes and the rest are the old members in another order
  have hperm : (m :: (before ++ after)).Perm (before ++ m :: after) := List.perm_middle.symm
  have hrestmem : ∀ p ∈ before ++ after, p ∈ before ++ m :: after :=
    fun p hp => hperm.mem_iff.mp (List.mem_cons_of_mem _ hp)
  have hold := hv.parts.tail.perm hperm.symm
  have hnot : id ∉ footprints (m :: (before ++ after)) := by
    rw [footprints_perm hperm]
    exact fun hx => id_notMem_allIds hv.distinct (List.mem_append_right _ hx)
  rw [footprints_cons, Set.mem_union, not_or] at hnot
  have hset := frame_setGene ht hv.get?_node (content.gene.withMembers ((before ++ after).map GeneTerm.id))
  have hrest := hset.holdsAll hold.tail (Set.disjoint_singleton_right.mpr hnot.2)
  apply (Edit.ensures_release hset.exact
    (hset.holds hold.head (Set.disjoint_singleton_right.mpr hnot.1))).mono
  rintro r w ⟨rfl, hw⟩
  have hdis : Disjoint (footprints (before ++ after)) m.footprint :=
    Set.disjoint_right.mpr fun x hx => hold.disjoint hx
  have hid := hw.get?_eq (get?_setGene hv.get?_node _) hnot.1
  have hrefill := Refills.members hv ?_ hid (hw.holdsAll hrest hdis) (fun p hp => ?_) hnot.2 ?_ ?_ hc
  · have hfewer : (before ++ after).Sublist (before ++ m :: after) :=
      List.Sublist.append (.refl _) (List.sublist_cons_self _ _)
    refine ⟨rfl, .of_members hc hrefill ?_ ?_⟩
    · exact hP.fewer hc hshaped.1 hfewer
    · exact fun _ hmembers p hp => hmembers p (hrestmem p hp)
  · have hboth := (hset.both hw (Set.disjoint_singleton_right.mpr hnot.1)).widen
      (footprints (before ++ after))
    rwa [Set.union_empty, Set.union_assoc, ← footprints_cons, footprints_perm hperm] at hboth
  · exact (hshaped.2 p (List.mem_cons_of_mem _ (hrestmem p hp))).1
  · exact Gene.owned_withMembers hc hshaped.1.symm _
  · exact Gene.blank_withMembers _ _

/-- A collection loses a member, unless it holds more of them than it may. -/
theorem ensures_shrink (hP : Lasts P) {template : GeneTerm} {members : List GeneTerm} (ht : t.FreeExact)
    (hv : t.Holds (.node id content (template :: members))) (hc : content.gene.isCollection = true) :
    Ensures (shrink id (members.map GeneTerm.id) : RandomEdit γ Unit) t fun r u =>
      (content.gene.capacity < members.length ∧ (∃ e, r = .error e) ∧ u = t) ∨
        ∃ before m after, members = before ++ m :: after ∧ r = .ok () ∧
          Renews P t (.node id content (template :: members)) u
            (.node id { content with gene := content.gene.withMembers ((before ++ after).map GeneTerm.id) }
              (template :: (before ++ after))) := by
  refine finds_draw.ensures_bind fun i _ => ?_
  rw [List.eraseIdx_map, List.getElem?_map]
  refine Ensures.bind (ensures_lift (Edit.ensures_setMembers hv.get?_node hc _)) ?_ ?_
  · rintro a u (⟨-, ⟨e, he⟩, -⟩ | ⟨-, rfl⟩)
    · cases he
    cases hi : members[i]? with
    | none => exact ensures_fault
    | some m =>
      obtain ⟨hlt, hm⟩ := List.getElem?_eq_some_iff.mp hi
      have hsplit : members = members.take i ++ m :: members.drop (i + 1) := by
        rw [← hm, List.getElem_cons_drop, List.take_append_drop]
      rw [List.eraseIdx_eq_take_drop_succ]
      generalize members.take i = before at hsplit
      generalize members.drop (i + 1) = after at hsplit
      subst hsplit
      apply (ensures_lift (ensures_release_member hP ht hv hc)).mono
      exact fun r u ⟨hr, hu⟩ => .inr ⟨before, m, after, rfl, hr, hu⟩
  · rintro e u (⟨hlt, he, rfl⟩ | ⟨he, -⟩)
    · have hle := List.length_eraseIdx_le members i
      rw [List.length_map] at hlt
      exact .inl ⟨by omega, ⟨e, rfl⟩, rfl⟩
    · cases he

variable {c : MutationSettings} {steering : Steering}

theorem mutates_collection (hP : Lasts P) (hstep : Mutates P R d step) {template : GeneTerm}
    {members : List GeneTerm} (ht : t.FreeExact) (hv : t.Holds (.node id content (template :: members)))
    (hc : content.gene.isCollection = true) (hroom : 0 < content.gene.capacity) {isMap : Bool}
    (hmap : content.gene.variant = .map → isMap = true) :
    Ensures (do
        match ← planResize c steering id (members.map GeneTerm.id) content.gene.capacity with
        | .grow => return [id, ← grow id isMap template.id (members.map GeneTerm.id)]
        | .shrink => do
          shrink id (members.map GeneTerm.id)
          return [id]
        | .member => do
          let member ← pickMutable steering (members.map GeneTerm.id)
          return id :: (← step member) : RandomEdit γ (List NodeId)) t fun r u =>
      ∃ w, Answers P R (d + 1) t (.node id content (template :: members)) r u w := by
  have hshaped := hv.shaped
  rw [Shaped] at hshaped
  refine (finds_planResize c steering id hv.parts.tail _).ensures_bind fun plan hplan => ?_
  cases plan with
  | grow =>
    have hlt : members.length < content.gene.capacity := by
      rcases hplan with hempty | hlt
      · rw [List.map_eq_nil_iff.mp hempty]
        exact hroom
      · rwa [List.length_map] at hlt
    refine Ensures.bind (ensures_grow hP ht hv hc hlt hmap) ?_ ?_
    · rintro a u ⟨w, ha, hw⟩
      obtain rfl := Except.ok.inj ha
      exact Ensures.pure ⟨_, .ok hw (.here (.grow hc))⟩
    · rintro e u ⟨w, he, -⟩
      cases he
  | shrink =>
    refine Ensures.bind (ensures_shrink hP ht hv hc) ?_ ?_
    · rintro a u (⟨-, ⟨e, he⟩, -⟩ | ⟨before, m, after, rfl, -, hw⟩)
      · cases he
      · exact Ensures.pure ⟨_, .ok hw (.here (.shrink hc))⟩
    · rintro e u (⟨hfull, -, rfl⟩ | ⟨before, m, after, -, he, -⟩)
      · refine ⟨_, .error ht hv fun _ _ hevery => ?_⟩
        rw [Every] at hevery
        have hle := Gene.length_le_capacity hc hshaped.1 hevery.1
        rw [List.length_map] at hle
        omega
      · cases he
  | member =>
    refine (finds_pickMutable steering hv.parts.tail).ensures_bind ?_
    rintro x ⟨p, hp, rfl, hchanges⟩
    refine hstep.part hP ht hv ?_ (fun inner he => ?_) hchanges
    · rwa [if_pos hc]
    · rw [he] at hc
      cases hc

/-- An optional gene is switched, or the gene in it is mutated. -/
theorem mutates_optional (hP : Lasts P) (hstep : Mutates P R d step) {name : String} {inner : NodeId}
    {active : Bool} {parent : Option NodeId} {parts : List GeneTerm} (ht : t.FreeExact)
    (hv : t.Holds (.node id ⟨name, .optional inner active, parent⟩ parts))
    (hchanges : (GeneTerm.node id ⟨name, .optional inner active, parent⟩ parts).changeable = true) :
    Ensures (do
        if !active then
          Edit.setActive id true
          return [id]
        let toggled ← draw (Draw.chance c.toggleProbability)
        let off ← if toggled then pure true else (! ·) <$> Edit.query (·.isMutable inner)
        if off then
          Edit.setActive id false
          return [id]
        else return id :: (← step inner) : RandomEdit γ (List NodeId)) t fun r u =>
      ∃ w, Answers P R (d + 1) t (.node id ⟨name, .optional inner active, parent⟩ parts) r u w := by
  have hswitch : Ensures (do
      Edit.setActive id !active
      return [id] : RandomEdit γ (List NodeId)) t fun r u =>
        ∃ w, Answers P R (d + 1) t (.node id ⟨name, .optional inner active, parent⟩ parts) r u w := by
    refine Ensures.bind_ok (P := fun _ u => u = t.setGene id (.optional inner !active))
      (ensures_lift (Edit.ensures_setActive hv.get?_node rfl ⟨(), rfl, rfl⟩)) ?_
    rintro - u rfl
    exact Ensures.pure
      ⟨_, .ok (.setGene hP ht hv ⟨rfl, fun h => h, fun h => h⟩ rfl) (.here (.switch rfl))⟩
  have hshaped := hv.shaped
  rw [Shaped] at hshaped
  obtain ⟨p, rfl, rfl⟩ := List.map_eq_singleton_iff.mp hshaped.1
  have hp : p.changeable = true := by simpa [changeable, Gene.changesByParts] using hchanges
  cases active with
  | false => exact hswitch
  | true =>
    refine finds_draw.ensures_bind fun toggled _ => ?_
    have hoff : ∀ off : Bool, Ensures (if off then do
          Edit.setActive id false
          return [id]
        else do return id :: (← step p.id) : RandomEdit γ (List NodeId)) t fun r u =>
          ∃ w, Answers P R (d + 1) t (.node id ⟨name, .optional p.id true, parent⟩ [p]) r u w := by
      intro off
      cases off with
      | true => exact hswitch
      | false => exact hstep.part hP ht hv (List.mem_singleton_self p) (fun inner he => by cases he) hp
    cases toggled with
    | true => exact hoff true
    | false =>
      have hinner := (hv.parts.each p (List.mem_singleton_self p)).isMutable
      have hfinds : Finds ((! ·) <$> (Edit.query (·.isMutable p.id) : RandomEdit γ Bool)) t
          fun _ => True := (finds_query hinner).map fun _ _ => trivial
      exact hfinds.ensures_bind fun off _ => hoff off

theorem mutates_mutateWithin (hP : Lasts P) (c : MutationSettings) (steering : Steering) (depth : Nat) :
    Mutates P (Gene.MutatesTo γ c) depth (mutateWithin (γ := γ) c steering depth) := by
  induction depth with
  | zero =>
    rintro t ⟨id, content, parts⟩ ht hv
    exact Ensures.throw ⟨_, .error ht hv fun _ hd => by simp [height] at hd⟩
  | succ depth ih =>
    rintro t ⟨id, content, parts⟩ ht hv
    have hshaped := hv.shaped
    rw [Shaped] at hshaped
    refine (finds_query hv.isMutable).ensures_bind fun changes hmut => ?_
    cases changes with
    | false =>
      refine views_query.ensures_bind (fun name _ => ?_) fun e => ⟨_, .error ht hv fun h => ?_⟩
      · refine Ensures.bind (P := fun r u => (∃ e, r = .error e) ∧ u = t) (Ensures.throw ⟨⟨_, rfl⟩, rfl⟩) ?_ ?_
        · rintro a u ⟨⟨e, he⟩, -⟩
          cases he
        · rintro e u ⟨-, rfl⟩
          exact ⟨_, .error ht hv fun h => by simp [← hmut] at h⟩
      · simp [← hmut] at h
    | true =>
      have hchanges : (GeneTerm.node id content parts).changeable = true := hmut.symm
      refine (finds_query (gene_of_get? hv.get?_id)).ensures_bind fun gene hgene => ?_
      obtain rfl : gene = content.gene := hgene
      have hmutable : t.isMutable id = .ok true := hmut ▸ hv.isMutable
      obtain ⟨name, gene, parent⟩ := content
      cases gene
      case object fields refType =>
        obtain rfl : parts.map GeneTerm.id = fields := hshaped.1
        refine (finds_pickMutable steering hv.parts).ensures_bind ?_
        rintro x ⟨p, hp, rfl, hpchanges⟩
        exact ih.part hP ht hv hp (fun inner he => by cases he) hpchanges
      case optional inner active =>
        exact mutates_optional hP ih ht hv hchanges
      case primaryKey | base64 =>
        obtain ⟨p, rfl, rfl⟩ := List.map_eq_singleton_iff.mp hshaped.1
        refine ih.part hP ht hv (List.mem_singleton_self p) (fun inner he => by cases he) ?_
        simpa [changeable, Gene.changesByParts] using hchanges
      case array template members maxSize =>
        obtain ⟨p, old, rfl, rfl, rfl⟩ := List.map_eq_cons_iff.mp hshaped.1
        exact mutates_collection hP ih ht hv rfl (capacity_pos hv.get?_node rfl hmutable) fun h => by cases h
      case map template members maxSize =>
        obtain ⟨p, old, rfl, rfl, rfl⟩ := List.map_eq_cons_iff.mp hshaped.1
        exact mutates_collection hP ih ht hv rfl (capacity_pos hv.get?_node rfl hmutable) fun _ => rfl
      -- what is left are genes without parts
      all_goals
        obtain rfl : parts = [] := List.map_eq_nil_iff.mp hshaped.1
        rw [changeable, if_neg (by simp [Gene.changesByParts])] at hchanges
        refine finds_draw.ensures_bind fun fresh hfresh => ?_
        have hset := Renews.setGene (P := P) hP ht hv (Draw.varies_of_mutatedLeaf hfresh) rfl
        refine Ensures.bind_ok (P := fun _ u => u = t.setGene id fresh)
          (ensures_lift (Edit.ensures_update ⟨(), rfl, rfl⟩)) ?_
        rintro - u rfl
        exact Ensures.pure ⟨_, .ok hset (.here (.leaf ⟨hchanges, hfresh⟩))⟩

/-- A mutation renews the term at a node, and answers the path to what it alters. -/
theorem answers_mutate {v : GeneTerm} (hP : Lasts P) (ht : t.FreeExact) (hv : t.Holds v)
    (c : MutationSettings) (steering : Steering) :
    Ensures (mutate c steering v.id : RandomEdit γ (List NodeId)) t fun r u =>
      ∃ w, Answers P (Gene.MutatesTo γ c) (descentBound t) t v r u w := by
  refine finds_get.ensures_bind ?_
  rintro a rfl
  exact mutates_mutateWithin hP c steering _ a v ht hv

theorem renews_mutate {v : GeneTerm} (hP : Lasts P) (ht : t.FreeExact) (hv : t.Holds v)
    (c : MutationSettings) (steering : Steering) :
    Ensures (mutate c steering v.id : RandomEdit γ (List NodeId)) t fun _ u =>
      ∃ w, Renews P t v u w := by
  refine (answers_mutate hP ht hv c steering).mono ?_
  rintro r u ⟨w, hw⟩
  exact ⟨w, hw.toRenews⟩

theorem ensures_mutate {v : GeneTerm} (ht : t.FreeExact) (hv : t.Holds v) (c : MutationSettings)
    (steering : Steering) :
    Ensures (mutate c steering v.id : RandomEdit γ (List NodeId)) t fun _ u =>
      ∃ w, Refills t v u w := by
  refine (renews_mutate lasts_true ht hv c steering).mono ?_
  rintro r u ⟨w, hw⟩
  exact ⟨w, hw.toRefills⟩

end RandomEdit
end CallEvolution
