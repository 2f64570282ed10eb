import CallEvolution.Proofs.ArenaIntegrity

/-! Conditions on nodes that last over runs of calls. A call changes the term at one node, wherever that
stands, and the owners of the node see no difference. -/

namespace CallEvolution

open GeneTerm GeneTree

namespace GeneTerm

variable {P : Gene → List GeneTerm → Prop} {v w : GeneTerm} {hs : List Hole}

theorem face_plug (h : w.face = v.face) : (plug hs w).face = (plug hs v).face := by
  induction hs with
  | nil => exact h
  | cons hole hs ih => exact congrArg (Prod.mk hole.content.name) (stencil_part (congrArg Prod.snd ih))

/-- A part may give way to one that looks the same to its owner. -/
theorem every_plug (hP : Lasts P) (hface : w.face = v.face) (hw : v.Every P → w.Every P)
    (h : (plug hs v).Every P) : (plug hs w).Every P := by
  induction hs with
  | nil => exact hw h
  | cons hole hs ih =>
    have hpart : (plug hs w).face = (plug hs v).face := face_plug hface
    rw [plug, Every] at h ⊢
    refine ⟨hP.faces ?_ h.1, fun p hp => ?_⟩
    · rw [List.map_append, List.map_append, List.map_cons, List.map_cons, hpart]
    · rcases List.mem_append.mp hp with hp | hp
      · exact h.2 p (List.mem_append_left _ hp)
      · rcases List.mem_cons.mp hp with rfl | hp
        · exact ih (h.2 _ (List.mem_append_right _ List.mem_cons_self))
        · exact h.2 p (List.mem_append_right _ (List.mem_cons_of_mem _ hp))

end GeneTerm

/-- Does a tree unfold into a term that has the root and the bounds of `v`, and that satisfies a condition? -/
def GeneTree.Sustains (P : Gene → List GeneTerm → Prop) (v : GeneTerm) (t : GeneTree) : Prop :=
  ∃ w, t.Unfolds w ∧ w.id = v.id ∧ w.stencil = v.stencil ∧ w.Every P

namespace TreeCall

variable {γ : Type} {t u : GeneTree} {P : Gene → List GeneTerm → Prop} {v : GeneTerm} {id : NodeId}

/-- What a call has to fulfil so that a condition lasts: a leaf is not set by hand, and the values that are
taken over are accepted. -/
def Upholds (P : Gene → List GeneTerm → Prop) (t : GeneTree) : TreeCall → Prop
  | copyFrom id src srcId | adopt id src srcId =>
    src.WellFormed ∧ ∀ v s : GeneTerm, v.id = id → s.id = srcId → t.Holds v → src.Holds s →
      v.Accepts P s ∧ v.core.Accepts P s
  | setLeaf .. => False
  | _ => True

theorem ensures_sustains {α : Type} {x : RandomEdit γ α} (hP : Lasts P) (ht : t.Sustains P v)
    (hdead : t.get? id = none → Ensures x t fun _ u => u = t)
    (hlive : ∀ p, p.id = id → t.Holds p → Ensures x t fun _ u => ∃ w, Renews P t p u w) :
    Ensures x t fun _ u => u.Sustains P v := by
  cases hid : t.get? id with
  | none =>
    refine (hdead hid).mono ?_
    rintro r u rfl
    exact ht
  | some n =>
    obtain ⟨x, hx, hroot, hbounds, hold⟩ := ht
    obtain ⟨hs, p, rfl, hpid, -⟩ := exists_plug (hx.full id (contains_of_get? hid))
    refine (hlive p hpid hx.holds.of_plug).mono ?_
    rintro r u ⟨w, hw⟩
    -- the owners see the same face, so their conditions are not touched
    have hbecomes := hw.becomes.plug hx.holds
    refine ⟨plug hs w, hx.becomes hbecomes, hbecomes.id.trans hroot, ?_,
      every_plug hP hw.face_eq hw.every hold⟩
    rw [← hbounds]
    exact congrArg Prod.snd (face_plug hw.face_eq)

/-- The like for a step that reads a second tree. -/
theorem ensures_sustains_from {α : Type} {x : Edit α} {src : GeneTree} {srcId : NodeId} (hP : Lasts P)
    (ht : t.Sustains P v) (hsrc : src.WellFormed)
    (hdead : t.get? id = none ∨ src.get? srcId = none → Ensures x t fun _ u => u = t)
    (hlive : ∀ p s, p.id = id → s.id = srcId → t.Holds p → src.Holds s →
      Ensures x t fun _ u => ∃ w, Renews P t p u w) :
    Ensures (RandomEdit.lift x : RandomEdit γ α) t fun _ u => u.Sustains P v := by
  cases hsid : src.get? srcId with
  | none =>
    refine (RandomEdit.ensures_lift (hdead (.inr hsid))).mono ?_
    rintro r u rfl
    exact ht
  | some n =>
    obtain ⟨s, hsx, hs, -⟩ := hsrc.exists_term hsid
    refine ensures_sustains hP ht (fun h => RandomEdit.ensures_lift (hdead (.inl h))) ?_
    exact fun p hpid hp => RandomEdit.ensures_lift (hlive p s hpid hsx hp hs)

variable [RandomSource γ]

theorem ensures_perform_sustains (hP : Lasts P) (call : TreeCall) (ht : t.Sustains P v)
    (hcall : call.Upholds P t) :
    Ensures (call.perform : RandomEdit γ Unit) t fun _ u => u.Sustains P v := by
  have hfree : t.FreeExact := by
    obtain ⟨w, hw, -⟩ := ht
    exact hw.exact
  cases call with
  | randomize id forceNew =>
    refine ensures_sustains hP ht (fun h => randomize_dead h forceNew) ?_
    rintro p rfl hp
    refine (RandomEdit.renews_randomize hP hfree hp forceNew).mono ?_
    rintro r u ⟨-, hw⟩
    exact hw
  | mutate c steering id =>
    refine Ensures.map (ensures_sustains hP ht (fun h => mutate_dead h c steering) ?_)
    rintro p rfl hp
    exact RandomEdit.renews_mutate hP hfree hp c steering
  | copyFrom id src srcId =>
    refine ensures_sustains_from hP ht hcall.1 copyFrom_dead ?_
    rintro p s rfl rfl hp hs
    cases h : t.assessCopy p.id src s.id with
    | ok =>
      refine (Edit.renews_copyFrom hP hfree hp hs (hcall.2 p s rfl rfl hp hs).1 h).mono ?_
      rintro r u ⟨-, hw⟩
      exact hw
    | error e =>
      refine (Edit.ensures_copyFrom_error h).mono ?_
      rintro r u ⟨-, rfl⟩
      exact ⟨p, .refl hfree hp⟩
  | adopt id src srcId =>
    refine Ensures.map (ensures_sustains_from hP ht hcall.1 adopt_dead ?_)
    rintro p s rfl rfl hp hs
    obtain ⟨haccepts, hcore⟩ := hcall.2 p s rfl rfl hp hs
    exact Edit.renews_adopt hP hfree hp hs haccepts hcore
  | setLeaf id g => exact hcall.elim
  | setActive id on =>
    refine ensures_sustains hP ht (fun h => RandomEdit.ensures_lift (setActive_dead h on)) ?_
    rintro p rfl hp
    exact RandomEdit.ensures_lift (Edit.keeps_setActive hP hfree hp on)

/-- A condition lasts over a run, if every call upholds it in the trees that the run may come to. -/
theorem sustains_of_leaveAll {calls : List TreeCall} (hP : Lasts P) (ht : t.Sustains P v)
    (hcalls : ∀ call ∈ calls, ∀ t : GeneTree, t.Sustains P v → call.Upholds P t)
    (h : Gives (leaveAll calls t : Draw γ GeneTree) u) : u.Sustains P v :=
  preserved_by_leaveAll ht
    (fun call hcall t ht => ensures_perform_sustains hP call ht (hcalls call hcall t ht)) h

end TreeCall
end CallEvolution
