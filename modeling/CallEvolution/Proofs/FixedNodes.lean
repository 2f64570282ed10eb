import CallEvolution.Linking.Key
import CallEvolution.Linking.Site
import CallEvolution.Proofs.Cores
import CallEvolution.Proofs.Ownership
import CallEvolution.Proofs.Places
import CallEvolution.Proofs.Transfer

/-! Nodes outside of all collections. Whoever starts at the root and leaves collections closed meets no
others. Among them are those at which links start and end: cores, and optionals around cores. -/

namespace CallEvolution

open GeneTerm

namespace GeneTerm

/-- The owner of a part outside of all collections stands there too. -/
theorem exists_parent_plug {hs : List GeneTree.Hole} {p : GeneTerm}
    (hplain : ∀ h ∈ hs, h.content.gene.isCollection = false) (h : (GeneTree.plug hs p).Shaped)
    (hne : hs ≠ []) : ∃ x ∈ (GeneTree.plug hs p).fixed, p.content.parent = some x := by
  induction hs with
  | nil => exact absurd rfl hne
  | cons k hs ih =>
    obtain ⟨hk, hrest⟩ := List.forall_mem_cons.mp hplain
    have hmem : GeneTree.plug hs p ∈ k.before ++ GeneTree.plug hs p :: k.after := by simp
    rw [GeneTree.plug] at h
    by_cases hnil : hs = []
    · subst hnil
      rw [Shaped] at h
      exact ⟨_, GeneTerm.id_mem_fixed _, (h.2 p hmem).1⟩
    · obtain ⟨x, hx, hparent⟩ := ih hrest (h.part hmem) hnil
      refine ⟨x, ?_, hparent⟩
      rw [GeneTree.plug, fixed, if_neg (by simp [hk])]
      exact List.mem_cons_of_mem _ (List.mem_flatMap.mpr ⟨_, hmem, hx⟩)

end GeneTerm

namespace GeneTree

/-- Does a node stand outside of all collections? -/
def Fixes (t : GeneTree) (x : NodeId) : Prop := ∀ v, t.Unfolds v → x ∈ v.fixed

variable {t : GeneTree} {x y : NodeId} {n : GeneNode} {g : Gene}

theorem fixes_root (t : GeneTree) : t.Fixes t.root := fun v hv => hv.root ▸ v.id_mem_fixed

theorem Fixes.exists_part (h : t.Fixes x) {v : GeneTerm} (hv : t.Unfolds v) :
    ∃ hs p, v = plug hs p ∧ p.id = x ∧ t.Holds p ∧
      ∀ k ∈ hs, k.content.gene.isCollection = false := by
  obtain ⟨hs, _, p, _, rfl, -, hp, -, -, hplain, -⟩ :=
    exists_plugs hv.holds.shaped hv.holds.shaped rfl (h v hv)
  exact ⟨hs, p, rfl, hp, hv.holds.of_plug, hplain⟩

theorem Fixes.core (h : t.Fixes x) (hcore : t.coreNode x = .ok y) : t.Fixes y := by
  intro v hv
  obtain ⟨hs, p, rfl, rfl, hp, hplain⟩ := h.exists_part hv
  rw [hp.coreNode, Except.ok.injEq] at hcore
  rw [← hcore]
  exact fixed_plug hplain (core_mem_fixed hp.shaped)

theorem Fixes.owned (h : t.Fixes x) (hx : t.gene x = .ok g) (hg : g.isCollection = false)
    (hy : y ∈ g.owned) : t.Fixes y := by
  intro v hv
  obtain ⟨hs, ⟨id, content, parts⟩, rfl, rfl, hp, hplain⟩ := h.exists_part hv
  have hgene : t.gene id = .ok content.gene := gene_of_get? hp.get?_node
  obtain rfl : g = content.gene := Except.ok.inj (hx.symm.trans hgene)
  have hshaped := hp.shaped
  rw [Shaped] at hshaped
  rw [← hshaped.1] at hy
  obtain ⟨q, hq, rfl⟩ := List.mem_map.mp hy
  refine fixed_plug hplain ?_
  rw [fixed, if_neg (by simp [hg])]
  exact List.mem_cons_of_mem _ (List.mem_flatMap.mpr ⟨q, hq, q.id_mem_fixed⟩)

theorem Fixes.child (h : t.Fixes x) (hx : t.gene x = .ok g) (hg : g.isCollection = false)
    (hy : y ∈ g.children) : t.Fixes y := by
  refine h.owned hx hg ?_
  cases g
  case array | map => cases hg
  all_goals exact hy

theorem Fixes.parent (h : t.Fixes x) (hx : t.get? x = some n) (hn : n.parent = some y) :
    t.Fixes y := by
  intro v hv
  obtain ⟨hs, p, rfl, rfl, hp, hplain⟩ := h.exists_part hv
  obtain rfl : n = p.content := Option.some.inj (hx.symm.trans hp.get?_id)
  by_cases hnil : hs = []
  · subst hnil
    have horphan := hv.orphan
    rw [plug, hn] at horphan
    cases horphan
  · obtain ⟨z, hz, hparent⟩ := exists_parent_plug hplain hv.holds.shaped hnil
    rw [hn, Option.some.injEq] at hparent
    rwa [hparent]

/-- Is a node no optional and no primary key? -/
def IsCore (t : GeneTree) (x : NodeId) : Prop := ∃ g, t.gene x = .ok g ∧ g.isWrapper = false

/-- Is a node a core or an optional around one? -/
def IsEntry (t : GeneTree) (y : NodeId) : Prop :=
  t.IsCore y ∨ ∃ x active, t.gene y = .ok (.optional x active) ∧ t.IsCore x

/-- Is a node a core outside of all collections? -/
def Bears (t : GeneTree) (x : NodeId) : Prop := t.Fixes x ∧ t.IsCore x

theorem exists_of_variant {k : Variant} (h : t.variant x = .ok k) :
    ∃ n, t.get? x = some n ∧ n.gene.variant = k := by
  rw [variant, node] at h
  cases hn : t.get? x with
  | none =>
    rw [hn] at h
    cases h
  | some n =>
    rw [hn] at h
    exact ⟨n, rfl, Except.ok.inj h⟩

theorem isCore_of_variant {k : Variant} (h : t.variant x = .ok k) (ho : k ≠ .optional)
    (hp : k ≠ .primaryKey) : t.IsCore x := by
  obtain ⟨n, hn, rfl⟩ := exists_of_variant h
  exact ⟨n.gene, gene_of_get? hn, Gene.isWrapper_eq_false_iff.mpr ⟨ho, hp⟩⟩

theorem IsCore.variant (h : t.IsCore x) {k : Variant} (hk : t.variant x = .ok k) :
    k ≠ .optional ∧ k ≠ .primaryKey := by
  obtain ⟨g, hg, hw⟩ := h
  obtain ⟨n, hn, rfl⟩ := exists_of_variant hk
  obtain rfl : g = n.gene := Except.ok.inj (hg.symm.trans (gene_of_get? hn))
  exact Gene.isWrapper_eq_false_iff.mp hw

theorem isCore_of_coreNodeWithin {d : Nat} (h : t.coreNodeWithin d x = .ok y) : t.IsCore y := by
  induction d generalizing x with
  | zero => cases h
  | succ d ih =>
    obtain ⟨g, hg, h⟩ := ok_of_bind h
    cases g
    case optional | primaryKey => exact ih h
    all_goals
      cases h
      exact ⟨_, hg, rfl⟩

theorem Fixes.bears_core (h : t.Fixes x) (hcore : t.coreNode x = .ok y) : t.Bears y :=
  ⟨h.core hcore, isCore_of_coreNodeWithin hcore⟩

theorem get?_of_mem_preorderWithin {exclude : GeneNode → Bool} {d : Nat} {e : NodeId × GeneNode}
    (he : e ∈ t.preorderWithin exclude d x) : t.get? e.1 = some e.2 := by
  induction d generalizing x with
  | zero => simp [preorderWithin] at he
  | succ d ih =>
    rw [preorderWithin] at he
    cases hx : t.get? x with
    | none => simp [hx] at he
    | some n =>
      simp only [hx] at he
      split at he
      · rw [List.mem_singleton] at he
        rw [he]
        exact hx
      · rcases List.mem_cons.mp he with rfl | he
        · exact hx
        · obtain ⟨y, -, he⟩ := List.mem_flatMap.mp he
          exact ih he

/-- A walk that does not enter collections stays outside of them. -/
theorem Fixes.of_mem_preorder {exclude : GeneNode → Bool}
    (hclosed : ∀ n : GeneNode, n.gene.isCollection = true → exclude n = true) {d : Nat}
    {e : NodeId × GeneNode} (h : t.Fixes x) (he : e ∈ t.preorderWithin exclude d x) :
    t.Fixes e.1 := by
  induction d generalizing x with
  | zero => simp [preorderWithin] at he
  | succ d ih =>
    rw [preorderWithin] at he
    cases hx : t.get? x with
    | none => simp [hx] at he
    | some n =>
      simp only [hx] at he
      split at he
      · rw [List.mem_singleton] at he
        rw [he]
        exact h
      · next hopen =>
        rcases List.mem_cons.mp he with rfl | he
        · exact h
        · obtain ⟨y, hy, he⟩ := List.mem_flatMap.mp he
          have hplain : n.gene.isCollection = false := by
            rw [← Bool.not_eq_true]
            exact fun hc => hopen (hclosed n hc)
          exact ih (h.child (gene_of_get? hx) hplain hy) he

end GeneTree

namespace Matching

variable {t : GeneTree} {x y : NodeId}

/-- The entry to a node is the node itself or an optional that is its parent. -/
theorem cases_of_entryPoint (h : entryPoint t x = .ok y) : ∃ n, t.get? x = some n ∧
    (y = x ∨ n.parent = some y ∧ t.variant y = .ok .optional) := by
  obtain ⟨n, hn, h⟩ := ok_of_bind h
  refine ⟨n, GeneTree.get?_of_node hn, ?_⟩
  split at h
  · next p hp =>
    obtain ⟨k, hk, h⟩ := ok_of_bind h
    split at h
    · next hoptional =>
      cases h
      exact .inr ⟨hp, hoptional ▸ hk⟩
    · cases h
      exact .inl rfl
  · cases h
    exact .inl rfl

theorem fixes_of_entryPoint (h : t.Fixes x) (hentry : entryPoint t x = .ok y) : t.Fixes y := by
  obtain ⟨n, hx, rfl | ⟨hparent, -⟩⟩ := cases_of_entryPoint hentry
  · exact h
  · exact h.parent hx hparent

/-- A value goes to the core that it is meant for, or to the optional around it. -/
theorem isEntry_of_entryPoint (ht : t.WellFormed) (h : t.IsCore x) (hentry : entryPoint t x = .ok y) :
    t.IsEntry y := by
  obtain ⟨n, hx, rfl | ⟨hparent, hoptional⟩⟩ := cases_of_entryPoint hentry
  · exact .inl h
  · obtain ⟨⟨name, g, parent⟩, hm, hvariant⟩ := GeneTree.exists_of_variant hoptional
    have howned := ht.owned_of_parent hx hparent hm
    cases g
    case optional z active =>
      obtain rfl : x = z := List.mem_singleton.mp howned
      exact .inr ⟨x, active, GeneTree.gene_of_get? hm, h⟩
    all_goals cases hvariant

theorem mem_of_claimKeys {id : NodeId} {claimed : List (String × NodeId)} {keys : List String}
    {e : String × NodeId} (he : e ∈ claimKeys id claimed keys) : e ∈ claimed ∨ e.2 = id := by
  induction keys generalizing claimed with
  | nil => exact .inl he
  | cons key keys ih =>
    rw [claimKeys, List.foldl_cons] at he
    rcases ih he with h | h
    · split at h
      · exact .inl h
      · rcases List.mem_append.mp h with h | h
        · exact .inl h
        · rw [List.mem_singleton] at h
          exact .inr (congrArg Prod.snd h)
    · exact .inr h

theorem mem_of_claimAll {tokens : List String} {claimed table : List (String × NodeId)}
    {nodes : List (NodeId × GeneNode)} (h : claimAll t tokens claimed nodes = .ok table)
    {e : String × NodeId} (he : e ∈ table) :
    e ∈ claimed ∨ ∃ n ∈ nodes, n.1 = e.2 ∧ isValueGene n.2.variant = true := by
  induction nodes generalizing claimed with
  | nil =>
    cases h
    exact .inl he
  | cons n nodes ih =>
    obtain ⟨id, n⟩ := n
    have hrest : e ∈ claimed ∨ (e.2 = id ∧ isValueGene n.variant = true) ∨
        ∃ n ∈ nodes, n.1 = e.2 ∧ isValueGene n.2.variant = true := by
      rw [claimAll] at h
      split at h
      · next hvalue =>
        obtain ⟨keys, -, h⟩ := ok_of_bind h
        rcases ih h with hclaim | hlater
        · exact (mem_of_claimKeys hclaim).imp_right fun hid => .inl ⟨hid, hvalue⟩
        · exact .inr (.inr hlater)
      · exact (ih h).imp_right .inr
    rcases hrest with h | ⟨h, hvalue⟩ | ⟨m, hm, h⟩
    · exact .inl h
    · exact .inr ⟨_, List.mem_cons_self, h.symm, hvalue⟩
    · exact .inr ⟨m, List.mem_cons_of_mem _ hm, h⟩

/-- Keys stand for cores outside of all collections. -/
theorem bears_of_keyTable {tokens : List String} {table : List (String × NodeId)}
    (h : keyTable t tokens = .ok table) {e : String × NodeId} (he : e ∈ table) : t.Bears e.2 := by
  rcases mem_of_claimAll h he with hnil | ⟨n, hn, hid, hvalue⟩
  · cases hnil
  · rw [← hid]
    constructor
    · refine (GeneTree.fixes_root t).of_mem_preorder (fun n hc => ?_) hn
      obtain ⟨name, gene, parent⟩ := n
      cases gene
      case array | map => rfl
      all_goals cases hc
    · refine ⟨n.2.gene, GeneTree.gene_of_get? (GeneTree.get?_of_mem_preorderWithin hn), ?_⟩
      simp only [isValueGene, Bool.and_eq_true, decide_eq_true_eq] at hvalue
      exact Gene.isWrapper_eq_false_iff.mpr ⟨hvalue.1.2, hvalue.2⟩

end Matching
end CallEvolution
