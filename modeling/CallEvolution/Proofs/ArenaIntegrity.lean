import CallEvolution.Proofs.Adoption
import CallEvolution.Proofs.Construction
import CallEvolution.Proofs.Mutation
import CallEvolution.Random.Words

/-! Calls that change values leave well-formed trees behind, also when they fail. The state of a call is
the tree; what it answers is looked at by nobody here. -/

namespace CallEvolution

open GeneTree

/-- The calls that change the values of a gene tree. -/
inductive TreeCall where
  | randomize (id : NodeId) (forceNew : Bool)
  | mutate (c : MutationSettings) (steering : Steering) (id : NodeId)
  | copyFrom (id : NodeId) (src : GeneTree) (srcId : NodeId)
  | adopt (id : NodeId) (src : GeneTree) (srcId : NodeId)
  | setLeaf (id : NodeId) (g : Gene)
  | setActive (id : NodeId) (on : Bool)

namespace TreeCall

/-- The tree that a call takes a value from. -/
def source? : TreeCall → Option GeneTree
  | copyFrom _ src _ | adopt _ src _ => some src
  | _ => none

variable {γ : Type} {t : GeneTree} {id : NodeId}

theorem not_gene_of_dead {t : GeneTree} (h : t.get? id = none) {g : Gene} : t.gene id ≠ .ok g := by
  intro hg
  obtain ⟨n, hn, -⟩ := live_of_gene hg
  rw [h] at hn
  cases hn

theorem not_node_of_dead {t : GeneTree} (h : t.get? id = none) {n : GeneNode} : t.node id ≠ .ok n := by
  intro hn
  exact not_gene_of_dead h (congrArg (Except.map GeneNode.gene) hn)

theorem not_variant_of_dead {t : GeneTree} (h : t.get? id = none) {k : Variant} :
    t.variant id ≠ .ok k := by
  intro hk
  rw [variant, node, h] at hk
  cases hk

/-- Without a node, no step gets past its first look at the tree. -/
theorem copyFrom_dead {src : GeneTree} {srcId : NodeId}
    (h : t.get? id = none ∨ src.get? srcId = none) :
    Ensures (Edit.copyFrom id src srcId) t fun _ u => u = t := by
  refine Edit.views_query.ensures_bind ?_ fun _ => rfl
  intro a ha
  rw [assessCopy, pairBound, depthBound, depthBound, Nat.succ_mul, Nat.add_succ, assessCopyWithin] at ha
  obtain ⟨mine, hmine, ha⟩ := ok_of_bind ha
  obtain ⟨theirs, htheirs, -⟩ := ok_of_bind ha
  rcases h with h | h
  · exact absurd hmine (not_node_of_dead h)
  · exact absurd htheirs (not_node_of_dead h)

theorem adopt_dead {src : GeneTree} {srcId : NodeId}
    (h : t.get? id = none ∨ src.get? srcId = none) :
    Ensures (Edit.adopt id src srcId) t fun _ u => u = t := by
  refine Edit.views_query.ensures_bind ?_ fun _ => rfl
  intro target htarget
  refine Edit.views_query.ensures_bind ?_ fun _ => rfl
  intro source hsource
  rcases h with h | h
  · exact absurd htarget (not_variant_of_dead h)
  · exact absurd hsource (not_variant_of_dead h)

theorem setLeaf_dead (h : t.get? id = none) (g : Gene) :
    Ensures (Edit.setLeaf id g) t fun _ u => u = t := by
  refine Edit.views_query.ensures_bind ?_ fun _ => rfl
  intro n hn
  exact absurd hn (not_node_of_dead h)

theorem setActive_dead (h : t.get? id = none) (on : Bool) :
    Ensures (Edit.setActive id on) t fun _ u => u = t := by
  refine Edit.views_query.ensures_bind ?_ fun _ => rfl
  intro n hn
  exact absurd hn (not_node_of_dead h)

/-- A step keeps a tree well-formed if it refills terms and leaves the tree alone without one. -/
theorem ensures_wellFormed {α : Type} {x : RandomEdit γ α} (ht : t.WellFormed)
    (hdead : t.get? id = none → Ensures x t fun _ u => u = t)
    (hlive : ∀ p, p.id = id → t.Holds p → Ensures x t fun _ u => ∃ w, Becomes t p u w) :
    Ensures x t fun _ u => u.WellFormed := by
  cases hid : t.get? id with
  | none =>
    refine (hdead hid).mono ?_
    rintro r u rfl
    exact ht
  | some n =>
    obtain ⟨p, hpid, hp, hkeep⟩ := ht.exists_term hid
    refine (hlive p hpid hp).mono ?_
    rintro r u ⟨w, hw⟩
    exact hkeep u w hw

/-- The like for a step that reads a second tree. -/
theorem ensures_wellFormed_from {α : Type} {x : Edit α} {src : GeneTree} {srcId : NodeId}
    (ht : t.WellFormed) (hsrc : src.WellFormed)
    (hdead : t.get? id = none ∨ src.get? srcId = none → Ensures x t fun _ u => u = t)
    (hlive : ∀ p s, p.id = id → s.id = srcId → t.Holds p → src.Holds s →
      Ensures x t fun _ u => ∃ w, Refills t p u w) :
    Ensures (RandomEdit.lift x : RandomEdit γ α) t fun _ u => u.WellFormed := by
  cases hsid : src.get? srcId with
  | none =>
    refine (RandomEdit.ensures_lift (hdead (.inr hsid))).mono ?_
    rintro r u rfl
    exact ht
  | some n =>
    obtain ⟨s, hsx, hs, -⟩ := hsrc.exists_term hsid
    refine ensures_wellFormed ht (fun h => RandomEdit.ensures_lift (hdead (.inl h))) ?_
    intro p hpid hp
    refine RandomEdit.ensures_lift ((hlive p s hpid hsx hp hs).mono ?_)
    rintro r u ⟨w, hw⟩
    exact ⟨w, hw.becomes⟩

variable [RandomSource γ]

theorem randomizeWithin_dead (h : t.get? id = none) (forceNew : Bool) (depth : Nat) :
    Ensures (RandomEdit.randomizeWithin forceNew depth id : RandomEdit γ Unit) t fun _ u => u = t := by
  cases depth with
  | zero => exact Ensures.throw rfl
  | succ depth =>
    refine RandomEdit.views_query.ensures_bind ?_ fun _ => rfl
    intro g hg
    exact absurd hg (not_gene_of_dead h)

theorem randomize_dead (h : t.get? id = none) (forceNew : Bool) :
    Ensures (RandomEdit.randomize id forceNew : RandomEdit γ Unit) t fun _ u => u = t := by
  refine RandomEdit.views_get.ensures_bind ?_ fun _ => rfl
  rintro a rfl
  exact randomizeWithin_dead h forceNew _

theorem mutateWithin_dead (h : t.get? id = none) (c : MutationSettings) (steering : Steering)
    (depth : Nat) :
    Ensures (RandomEdit.mutateWithin c steering depth id : RandomEdit γ (List NodeId)) t
      fun _ u => u = t := by
  cases depth with
  | zero => exact Ensures.throw rfl
  | succ depth =>
    refine RandomEdit.views_query.ensures_bind ?_ fun _ => rfl
    intro b hb
    obtain ⟨g, hg, -⟩ := ok_of_bind hb
    exact absurd hg (not_gene_of_dead h)

theorem mutate_dead (h : t.get? id = none) (c : MutationSettings) (steering : Steering) :
    Ensures (RandomEdit.mutate c steering id : RandomEdit γ (List NodeId)) t fun _ u => u = t := by
  refine RandomEdit.views_get.ensures_bind ?_ fun _ => rfl
  rintro a rfl
  exact mutateWithin_dead h c steering _

def perform : TreeCall → RandomEdit γ Unit
  | randomize id forceNew => RandomEdit.randomize id forceNew
  | mutate c steering id => discard (RandomEdit.mutate c steering id)
  | copyFrom id src srcId => RandomEdit.lift (Edit.copyFrom id src srcId)
  | adopt id src srcId => discard (RandomEdit.lift (Edit.adopt id src srcId))
  | setLeaf id g => RandomEdit.lift (Edit.setLeaf id g)
  | setActive id on => RandomEdit.lift (Edit.setActive id on)

/-- The tree that a call leaves behind, whether it fails or not. -/
def leave (call : TreeCall) (t : GeneTree) : Draw γ GeneTree := do
  let (_, u) ← call.perform.run.run t
  return u

/-- The tree that is left behind by calls in a row. -/
def leaveAll (calls : List TreeCall) (t : GeneTree) : Draw γ GeneTree :=
  calls.foldlM (fun t call => call.leave t) t

theorem ensures_perform (call : TreeCall) (ht : t.WellFormed)
    (hsrc : ∀ src ∈ call.source?, src.WellFormed) :
    Ensures (call.perform : RandomEdit γ Unit) t fun _ u => u.WellFormed := by
  cases call with
  | randomize id forceNew =>
    refine ensures_wellFormed ht (fun h => randomize_dead h forceNew) ?_
    rintro p rfl hp
    refine (RandomEdit.ensures_randomize ht.exact hp forceNew).mono ?_
    rintro r u ⟨-, w, hw⟩
    exact ⟨w, hw.becomes⟩
  | mutate c steering id =>
    refine Ensures.map (ensures_wellFormed ht (fun h => mutate_dead h c steering) ?_)
    rintro p rfl hp
    refine (RandomEdit.ensures_mutate ht.exact hp c steering).mono ?_
    rintro r u ⟨w, hw⟩
    exact ⟨w, hw.becomes⟩
  | copyFrom id src srcId =>
    refine ensures_wellFormed_from ht (hsrc src rfl) copyFrom_dead ?_
    rintro p s rfl rfl hp hs
    cases h : t.assessCopy p.id src s.id with
    | ok =>
      refine (Edit.ensures_copyFrom ht.exact hp hs h).mono ?_
      rintro r u ⟨-, w, -, hw⟩
      exact ⟨w, hw⟩
    | error e =>
      refine (Edit.ensures_copyFrom_error h).mono ?_
      rintro r u ⟨-, rfl⟩
      exact ⟨p, .refl ht.exact hp⟩
  | adopt id src srcId =>
    refine Ensures.map (ensures_wellFormed_from ht (hsrc src rfl) adopt_dead ?_)
    rintro p s rfl rfl hp hs
    exact Edit.keeps_adopt ht.exact hp hs
  | setLeaf id g =>
    refine ensures_wellFormed ht (fun h => RandomEdit.ensures_lift (setLeaf_dead h g)) ?_
    rintro p rfl hp
    exact RandomEdit.ensures_lift (Edit.keeps_setLeaf ht.exact hp g)
  | setActive id on =>
    refine ensures_wellFormed ht (fun h => RandomEdit.ensures_lift (setActive_dead h on)) ?_
    rintro p rfl hp
    refine (RandomEdit.ensures_lift (Edit.keeps_setActive lasts_true ht.exact hp on)).mono ?_
    rintro r u ⟨w, hw⟩
    exact ⟨w, hw.becomes⟩

/-- What every call preserves, a run of them preserves. -/
theorem preserved_by_leaveAll {Q : GeneTree → Prop} {calls : List TreeCall} {u : GeneTree} (ht : Q t)
    (hstep : ∀ call ∈ calls, ∀ t, Q t → Ensures (call.perform : RandomEdit γ Unit) t fun _ u => Q u)
    (h : Gives (leaveAll calls t : Draw γ GeneTree) u) : Q u := by
  induction calls generalizing t with
  | nil =>
    rw [Draw.eq_of_gives_pure h]
    exact ht
  | cons call calls ih =>
    rw [leaveAll, List.foldlM_cons] at h
    obtain ⟨t', ht', h⟩ := Draw.gives_of_bind h
    obtain ⟨⟨r, t''⟩, hr, hu⟩ := Draw.gives_of_bind ht'
    obtain rfl := Draw.eq_of_gives_pure hu
    have hcall := (hstep call List.mem_cons_self t ht).2 r t' hr
    exact ih hcall (fun c hc => hstep c (List.mem_cons_of_mem _ hc)) h

theorem wellFormed_of_leaveAll {calls : List TreeCall} {u : GeneTree} (ht : t.WellFormed)
    (hsrc : ∀ call ∈ calls, ∀ src ∈ call.source?, src.WellFormed)
    (h : Gives (leaveAll calls t : Draw γ GeneTree) u) : u.WellFormed :=
  preserved_by_leaveAll ht (fun call hcall _ ht => ensures_perform call ht (hsrc call hcall)) h

/-- No run of calls leaks a node, shares one between two owners or leaves a dangling id: it starts with
a tree of the constructors or another well-formed one, and what it leaves is well-formed again. -/
theorem arena_integrity :
    (∀ t, Built t → t.WellFormed) ∧
      ∀ (calls : List TreeCall) (t u : GeneTree) (s s' : γ), t.WellFormed →
        (∀ call ∈ calls, ∀ src ∈ call.source?, src.WellFormed) →
        leaveAll calls t s = .ok (u, s') → u.WellFormed :=
  ⟨fun _ h => h.wellFormed, fun _ _ _ s s' ht hsrc h => wellFormed_of_leaveAll ht hsrc ⟨s, s', h⟩⟩

/-- An array gets two elements, loses one of them and refuses the value of a number. -/
theorem arena_integrity_of_array :
    ∃ (u : GeneTree) (s : WordSource), leaveAll
      [.randomize ⟨0⟩ true, .mutate {} .uniform ⟨0⟩, .copyFrom ⟨0⟩ (integer "n") ⟨0⟩]
      (array "xs" (integer "x") 3) ⟨[], 8⟩ = .ok (u, s) ∧ u.free.length = 1 ∧ u.WellFormed := by
  have hfree : (leaveAll [.randomize ⟨0⟩ true, .mutate {} .uniform ⟨0⟩,
      .copyFrom ⟨0⟩ (integer "n") ⟨0⟩] (array "xs" (integer "x") 3) (⟨[], 8⟩ : WordSource)).map
      (fun r => r.1.free.length) = .ok 1 := by decide +kernel
  cases hleave : leaveAll [.randomize ⟨0⟩ true, .mutate {} .uniform ⟨0⟩,
      .copyFrom ⟨0⟩ (integer "n") ⟨0⟩] (array "xs" (integer "x") 3) (⟨[], 8⟩ : WordSource) with
  | error e =>
    rw [hleave] at hfree
    cases hfree
  | ok r =>
    obtain ⟨u, s⟩ := r
    rw [hleave] at hfree
    have hbuilt := arena_integrity (γ := WordSource).1
    have ht := hbuilt _ (.array "xs" 3 (.integer "x"))
    refine ⟨u, s, rfl, Except.ok.inj hfree, arena_integrity.2 _ _ u _ s ht ?_ hleave⟩
    simp only [List.forall_mem_cons, List.not_mem_nil, false_implies, implies_true, and_true]
    refine ⟨?_, ?_, ?_⟩
    · rintro src ⟨⟩
    · rintro src ⟨⟩
    · rintro src ⟨⟩
      exact hbuilt _ (.integer "n")

end TreeCall
end CallEvolution
