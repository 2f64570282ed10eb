import CallEvolution.Proofs.FixedNodes
import CallEvolution.Proofs.MendedKeys

/-! Rows without the values of their foreign keys. Whatever a repair writes, the rest of a row stays, and so
do the keys at other places. -/

namespace CallEvolution

/-- The gene with a foreign key that points nowhere, if it is one. -/
def Gene.keyless : Gene → Gene
  | foreignKey table _ nullable => foreignKey table none nullable
  | g => g

def GeneNode.keyless (n : GeneNode) : GeneNode := { n with gene := n.gene.keyless }

def GeneTree.keyless (t : GeneTree) : GeneTree :=
  { t with slots := t.slots.map (Option.map GeneNode.keyless) }

def Parameter.keyless (p : Parameter) : Parameter := { p with gene := p.gene.keyless }

/-- The row as it is but for the values of its foreign keys. -/
def Action.keyless (a : Action) : Action := { a with params := a.params.map Parameter.keyless }

namespace GeneTree

variable {t : GeneTree} {x y : NodeId} {n : GeneNode} {g : Gene} {e : NodeId × GeneNode}

theorem get?_keyless (t : GeneTree) (x : NodeId) : t.keyless.get? x = (t.get? x).map GeneNode.keyless := by
  rw [get?, get?, keyless, Array.getElem?_map]
  rcases t.slots[x.index]? with _ | _ | n <;> rfl

theorem keyless_setGene (hn : t.get? x = some n) (hg : g.keyless = n.gene.keyless) :
    (t.setGene x g).keyless = t.keyless := by
  have hslot : t.slots[x.index]? = some (some n) := Option.join_eq_some_iff.mp hn
  have hsame : GeneNode.keyless { n with gene := g } = n.keyless := by
    rw [GeneNode.keyless, GeneNode.keyless, hg]
  have hslots : (t.slots.setIfInBounds x.index (some { n with gene := g })).map (Option.map GeneNode.keyless) =
      t.slots.map (Option.map GeneNode.keyless) := by
    refine Array.ext_getElem? fun i => ?_
    rw [Array.getElem?_map, Array.getElem?_map]
    by_cases hi : x.index = i
    · have hlt := lt_size_of_get? hn
      subst hi
      rw [Array.getElem?_setIfInBounds_self_of_lt hlt, hslot]
      exact congrArg (fun m => some (some m)) hsame
    · rw [Array.getElem?_setIfInBounds_ne hi]
  rw [setGene, modify, hn]
  exact congrArg (fun slots => GeneTree.mk slots t.free t.root) hslots

theorem gene_keyless (t : GeneTree) (x : NodeId) : t.keyless.gene x = (t.gene x).map Gene.keyless := by
  rw [gene, gene, GeneTree.node, GeneTree.node, get?_keyless]
  cases t.get? x <;> rfl

theorem isMutableWithin_keyless (t : GeneTree) (d : Nat) (x : NodeId) :
    t.keyless.isMutableWithin d x = t.isMutableWithin d x := by
  induction d generalizing x with
  | zero => rfl
  | succ d ih =>
    have hsame : t.keyless.isMutableWithin d = t.isMutableWithin d := funext ih
    rw [isMutableWithin, isMutableWithin, gene_keyless, hsame]
    cases t.gene x with
    | error e => rfl
    | ok g => cases g <;> rfl

theorem isMutable_keyless (t : GeneTree) (x : NodeId) : t.keyless.isMutable x = t.isMutable x := by
  have hbound : t.keyless.depthBound = t.depthBound := by simp [depthBound, keyless]
  rw [isMutable, isMutable, hbound, isMutableWithin_keyless]

/-- A walk meets the nodes beside a leaf that is replaced as it has met them before. -/
theorem mem_preorderWithin_setGene_of_ne (hn : t.get? x = some n) (hleaf : n.gene.children = []) {d : Nat}
    (he : e ∈ t.preorderWithin (fun _ => false) d y) (hx : e.1 ≠ x) :
    e ∈ (t.setGene x g).preorderWithin (fun _ => false) d y := by
  induction d generalizing y with
  | zero => cases he
  | succ d ih =>
    rw [preorderWithin] at he
    by_cases hy : y = x
    · rw [hy, hn] at he
      simp only [hleaf, List.flatMap_nil, Bool.false_eq_true, if_false, List.mem_singleton] at he
      exact absurd (congrArg Prod.fst he) hx
    · have hget : (t.setGene x g).get? y = t.get? y := get?_modify_of_ne hy _
      rw [preorderWithin, hget]
      cases hm : t.get? y with
      | none =>
        rw [hm] at he
        cases he
      | some m =>
        rw [hm] at he
        simp only [Bool.false_eq_true, if_false, List.mem_cons, List.mem_flatMap] at he ⊢
        rcases he with he | ⟨z, hz, he⟩
        · exact .inl he
        · exact .inr ⟨z, hz, ih he⟩

end GeneTree

namespace Action

variable {a b : Action} {k k' : KeyReference} {value : Option Int64}

/-- Does a row have a foreign key where a reference has found one, whatever its value is now? -/
def HasPlace (a : Action) (k : KeyReference) : Prop :=
  ∃ p n value, a.param? k.param = some p ∧ p.gene.get? k.node = some n ∧
    n.gene = .foreignKey k.table value k.nullable

theorem hasPlace_of_mem (h : k ∈ a.keyReferences) : a.HasPlace k := by
  obtain ⟨p, n, hp, hn, hgene⟩ := mem_keyReferences.mp h
  exact ⟨p, n, k.value, hp, GeneTree.get?_of_mem_preorderWithin hn, hgene⟩

theorem eq_of_same_place (h : k ∈ a.keyReferences) (h' : k' ∈ a.keyReferences)
    (hparam : k'.param = k.param) (hnode : k'.node = k.node) : k' = k := by
  obtain ⟨p, n, hp, hn, hgene⟩ := mem_keyReferences.mp h
  obtain ⟨p', n', hp', hn', hgene'⟩ := mem_keyReferences.mp h'
  obtain ⟨param, node, table, value, nullable⟩ := k
  obtain ⟨param', node', table', value', nullable'⟩ := k'
  simp only at hparam hnode hp hn hgene hp' hn' hgene'
  subst hparam
  subst hnode
  rw [hp, Option.some.injEq] at hp'
  subst hp'
  have hget := GeneTree.get?_of_mem_preorderWithin hn
  rw [GeneTree.get?_of_mem_preorderWithin hn', Option.some.injEq] at hget
  subst hget
  cases hgene.symm.trans hgene'
  rfl

theorem HasPlace.of_keyless (h : a.HasPlace k) (hb : b.keyless = a.keyless) : b.HasPlace k := by
  obtain ⟨p, n, value, hp, hn, hgene⟩ := h
  have hparams : b.params.map Parameter.keyless = a.params.map Parameter.keyless := congrArg Action.params hb
  have hparam : (b.param? k.param).map Parameter.keyless = some p.keyless := by
    rw [param?, ← List.getElem?_map, hparams, List.getElem?_map, ← param?, hp]
    rfl
  obtain ⟨q, hq, hpq⟩ := Option.map_eq_some_iff.mp hparam
  have htree : q.gene.keyless = p.gene.keyless := congrArg Parameter.gene hpq
  have hnode : (q.gene.get? k.node).map GeneNode.keyless = some n.keyless := by
    rw [← GeneTree.get?_keyless, htree, GeneTree.get?_keyless, hn]
    rfl
  obtain ⟨m, hm, hmn⟩ := Option.map_eq_some_iff.mp hnode
  have hkey : m.gene.keyless = .foreignKey k.table none k.nullable := by
    have hkeyless : m.gene.keyless = n.gene.keyless := congrArg GeneNode.gene hmn
    rw [hkeyless, hgene]
    rfl
  obtain ⟨name, gene, parent⟩ := m
  cases gene <;> cases hkey
  exact ⟨q, _, _, hq, hm, rfl⟩

/-- A key is written as a leaf that gives way to one of the same variant, which nothing forbids. -/
theorem HasPlace.exists_write (h : a.HasPlace k) (value : Option Int64) :
    ∃ p t, a.param? k.param = some p ∧
      (Edit.setLeaf k.node (.foreignKey k.table value k.nullable)).run.run p.gene = .ok (.ok (), t) ∧
      Individual.setKey a k value = a.setGene k.param t ∧ t.keyless = p.gene.keyless := by
  obtain ⟨p, n, old, hp, hn, hgene⟩ := h
  have hwrite : Ensures (Edit.setLeaf k.node (.foreignKey k.table value k.nullable)) p.gene fun r t =>
      r = .ok () ∧ t = p.gene.setGene k.node (.foreignKey k.table value k.nullable) := by
    refine Edit.ensures_query_bind (GeneTree.node_of_get? hn) ?_
    rw [GeneNode.variant, hgene]
    exact Edit.ensures_update ⟨rfl, rfl⟩
  obtain ⟨⟨⟨r, t⟩, hrun⟩, hall⟩ := hwrite
  obtain ⟨rfl, rfl⟩ := hall r t hrun
  have hset : Individual.setKey a k value =
      a.setGene k.param (p.gene.setGene k.node (.foreignKey k.table value k.nullable)) := by
    rw [Individual.setKey, hp]
  exact ⟨p, _, hp, hrun, hset, GeneTree.keyless_setGene hn (by rw [hgene]; rfl)⟩

end Action

namespace Individual

variable {a : Action} {k k' : KeyReference}

theorem keyless_setKey (h : a.HasPlace k) (value : Option Int64) :
    (setKey a k value).keyless = a.keyless := by
  obtain ⟨p, t, hp, -, hset, ht⟩ := h.exists_write value
  have hparams : (a.params.modify k.param fun p => { p with gene := t }).map Parameter.keyless =
      a.params.map Parameter.keyless := by
    refine List.ext_getElem? fun i => ?_
    rw [List.getElem?_map, List.getElem?_map, List.getElem?_modify]
    by_cases hi : k.param = i
    · rw [← hi, ← Action.param?, hp]
      simp [Parameter.keyless, ht]
    · simp [hi]
  rw [hset, Action.keyless, Action.keyless, Action.setGene]
  exact congrArg (fun params => { a with params }) hparams

/-- A key stays when one at another place is given a value. -/
theorem mem_keyReferences_setKey_of_ne (h : k' ∈ a.keyReferences) (hk : a.HasPlace k)
    (hne : ¬ (k'.param = k.param ∧ k'.node = k.node)) (value : Option Int64) :
    k' ∈ (setKey a k value).keyReferences := by
  obtain ⟨p, n, hp, hn, hgene⟩ := Action.mem_keyReferences.mp h
  obtain ⟨q, m, old, hq, hm, hold⟩ := hk
  refine Action.mem_keyReferences.mpr ?_
  rw [setKey, hq]
  by_cases hparam : k'.param = k.param
  · rw [hparam, hq, Option.some.injEq] at hp
    subst hp
    rw [hparam]
    refine ⟨_, n, Action.param?_setGene_self hq _, ?_, hgene⟩
    have hleaf : m.gene.children = [] := by rw [hold]; rfl
    have hmem := GeneTree.mem_preorderWithin_setGene_of_ne (g := .foreignKey k.table value k.nullable)
      hm hleaf hn fun hnode => hne ⟨hparam, hnode⟩
    rw [Action.valueNodes, GeneTree.preorder, GeneTree.root_setGene, GeneTree.depthBound_setGene]
    exact hmem
  · exact ⟨p, n, (Action.param?_setGene_of_ne a hparam _).trans hp, hn, hgene⟩

end Individual
end CallEvolution
