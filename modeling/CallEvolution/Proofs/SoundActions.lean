import CallEvolution.Proofs.MendedKeys
import CallEvolution.Proofs.Randomization
import CallEvolution.Proofs.TotalReading
import CallEvolution.Sampling.Sampler

/-! Actions whose gene trees are well-formed. They stay so when they get random values, are made from the
templates of a sampler, or have their keys mended. -/

namespace CallEvolution

open GeneTree GeneTerm

variable {γ : Type}

namespace Action

variable {a b : Action} {t : GeneTree} {i : Nat} {k : KeyReference}

/-- Are all gene trees of an action well-formed? -/
def IsSound (a : Action) : Prop := ∀ p ∈ a.params, p.gene.WellFormed

theorem IsSound.param (ha : a.IsSound) {p : Parameter} (hp : a.param? i = some p) : p.gene.WellFormed :=
  ha p (List.mem_of_getElem? hp)

theorem sound_setGene (ha : a.IsSound) (ht : t.WellFormed) : (a.setGene i t).IsSound := by
  intro q hq
  obtain ⟨j, hj⟩ := List.mem_iff_getElem?.mp hq
  rw [setGene, List.getElem?_modify] at hj
  obtain ⟨p, hp, rfl⟩ := Option.map_eq_some_iff.mp hj
  by_cases hij : i = j
  · rw [if_pos hij]
    exact ht
  · rw [if_neg hij]
    exact ha p (List.mem_of_getElem? hp)

/-- Does a foreign key stand where it is looked for? -/
def HoldsKey (a : Action) (k : KeyReference) : Prop :=
  ∃ p table value nullable, a.param? k.param = some p ∧
    p.gene.gene k.node = .ok (.foreignKey table value nullable)

theorem holdsKey_of_mem (h : k ∈ a.keyReferences) : a.HoldsKey k := by
  obtain ⟨p, n, hp, hn, hgene⟩ := mem_keyReferences.mp h
  have hget := gene_of_get? (GeneTree.get?_of_mem_preorderWithin hn)
  exact ⟨p, k.table, k.value, k.nullable, hp, hget.trans (congrArg Except.ok hgene)⟩

theorem wellFormed_setKey {x : NodeId} {table table' : String} {value value' : Option Int64}
    {nullable nullable' : Bool} (ht : t.WellFormed)
    (hx : t.gene x = .ok (.foreignKey table value nullable)) :
    (t.setGene x (.foreignKey table' value' nullable')).WellFormed := by
  obtain ⟨n, hn, hgene⟩ := live_of_gene hx
  obtain ⟨⟨id, content, parts⟩, rfl, hp, hkeep⟩ := ht.exists_term hn
  have hcontent : n = content := Option.some.inj (hn.symm.trans hp.get?_node)
  refine hkeep _ _ (Becomes.setGene ht.exact hp ?_)
  rw [← hcontent, hgene]
  rfl

theorem sound_setKey (ha : a.IsSound) (hk : a.HoldsKey k) (value : Option Int64) :
    (Individual.setKey a k value).IsSound ∧
      ∀ k', a.HoldsKey k' → (Individual.setKey a k value).HoldsKey k' := by
  obtain ⟨p, table, old, nullable, hp, hnode⟩ := hk
  rw [Individual.setKey, hp]
  refine ⟨sound_setGene ha (wellFormed_setKey (ha.param hp) hnode), ?_⟩
  rintro k' ⟨q, table', old', nullable', hq, hnode'⟩
  by_cases hparam : k'.param = k.param
  · rw [hparam, hp, Option.some.injEq] at hq
    subst hq
    have hp' := param?_setGene_self hp (p.gene.setGene k.node (.foreignKey k.table value k.nullable))
    rw [← hparam] at hp' ⊢
    by_cases hsame : k'.node = k.node
    · obtain ⟨n, hn, -⟩ := live_of_gene hnode
      refine ⟨_, k.table, value, k.nullable, hp', ?_⟩
      rw [hsame]
      exact gene_of_get? (get?_setGene hn _)
    · refine ⟨_, table', old', nullable', hp', ?_⟩
      rw [GeneTree.setGene, gene, GeneTree.node, get?_modify_of_ne hsame]
      exact hnode'
  · exact ⟨q, table', old', nullable', (param?_setGene_of_ne a hparam _).trans hq, hnode'⟩

end Action

namespace Individual

variable [RandomSource γ] {earlier rest rows : List Action} {a b : Action} {keys : List KeyReference}
  {removed : List ActionId} {changed : Bool}

theorem sound_of_mendKeys (ha : a.IsSound) (hkeys : ∀ k ∈ keys, a.HoldsKey k)
    (h : Gives (mendKeys earlier a keys : Draw γ (Option Action × Bool)) (some b, changed)) :
    b.IsSound := by
  induction keys generalizing a changed with
  | nil =>
    cases Draw.eq_of_gives_pure h
    exact ha
  | cons k keys ih =>
    obtain ⟨hk, hkeys⟩ := List.forall_mem_cons.mp hkeys
    rcases gives_mendKeys_cons h with ⟨-, h⟩ | ⟨h, -⟩ | ⟨value, c, -, h, -⟩
    · exact ih ha hkeys h
    · cases h
    · obtain ⟨hsound, hholds⟩ := Action.sound_setKey ha hk value
      exact ih hsound (fun k hk => hholds k (hkeys k hk)) h

theorem sound_of_repairFrom (hrows : ∀ a ∈ earlier ++ rest, a.IsSound)
    (h : Gives (repairFrom earlier rest : Draw γ (List Action × List ActionId × Bool))
      (rows, removed, changed)) : ∀ a ∈ rows, a.IsSound := by
  induction rest generalizing earlier removed changed with
  | nil =>
    cases Draw.eq_of_gives_pure h
    simpa using hrows
  | cons a rest ih =>
    simp only [List.mem_append, List.mem_cons, or_imp, forall_and, forall_eq] at hrows
    obtain ⟨hearlier, ha, hrest⟩ := hrows
    rcases gives_repairFrom_cons h with ⟨b, c, c', hb, h, -⟩ | ⟨-, removed', c', -, -, h, -⟩
    · have hb := sound_of_mendKeys ha (fun k hk => Action.holdsKey_of_mem hk) hb
      refine ih ?_ h
      simp only [List.mem_append, List.mem_singleton, or_imp, forall_and, forall_eq]
      exact ⟨⟨hearlier, hb⟩, hrest⟩
    · refine ih ?_ h
      simp only [List.mem_append, or_imp, forall_and]
      exact ⟨hearlier, hrest⟩

end Individual

variable [RandomSource γ] {a b : Action} {r : Except GeneError Unit}

theorem RandomEdit.wellFormed_randomizeAll {t : GeneTree} (ht : t.WellFormed) :
    Ensures (randomizeAll : RandomEdit γ Unit) t fun _ u => u.WellFormed := by
  refine views_get.ensures_bind ?_ fun _ => ht
  rintro _ rfl
  obtain ⟨v, hv⟩ := ht.unfolds
  rw [← hv.root]
  refine (ensures_randomize hv.exact hv.holds false).mono ?_
  rintro r u ⟨-, w, hw⟩
  exact (hv.becomes hw.becomes).wellFormed

/-- What randomizing makes of every tree, it makes of the trees of some parameters. -/
theorem Parameter.forall₂_of_randomizeAll {R : GeneTree → GeneTree → Prop} {ps qs : List Parameter}
    (hrefl : ∀ t, R t t)
    (hR : ∀ t, Ensures (RandomEdit.randomizeAll : RandomEdit γ Unit) t fun _ u => R t u)
    (h : Gives (randomizeAll ps : Draw γ (Except GeneError Unit × List Parameter)) (r, qs)) :
    List.Forall₂ (fun p q => R p.gene q.gene) ps qs := by
  induction ps generalizing r qs with
  | nil =>
    cases Draw.eq_of_gives_pure h
    exact .nil
  | cons p ps ih =>
    obtain ⟨⟨r', t⟩, ht, h⟩ := Draw.gives_of_bind h
    have hp := (hR p.gene).2 r' t ht
    cases r' with
    | error e =>
      cases Draw.eq_of_gives_pure h
      exact .cons hp (List.forall₂_same.mpr fun q _ => hrefl q.gene)
    | ok =>
      obtain ⟨⟨r', rest⟩, hrest, h⟩ := Draw.gives_of_bind h
      cases Draw.eq_of_gives_pure h
      exact .cons hp (ih hrest)

theorem Action.params_of_randomize
    (h : Gives (a.randomize : Draw γ (Except GeneError Unit × Action)) (r, b)) :
    ∃ params, b = { a with params } := by
  obtain ⟨⟨r', params⟩, -, h⟩ := Draw.gives_of_bind h
  cases Draw.eq_of_gives_pure h
  exact ⟨params, rfl⟩

theorem Action.trees_of_randomize {R : GeneTree → GeneTree → Prop} (hrefl : ∀ t, R t t)
    (hR : ∀ t, Ensures (RandomEdit.randomizeAll : RandomEdit γ Unit) t fun _ u => R t u)
    (h : Gives (a.randomize : Draw γ (Except GeneError Unit × Action)) (r, b)) :
    ∃ params, b = { a with params } ∧ List.Forall₂ (fun p q => R p.gene q.gene) a.params params := by
  obtain ⟨⟨r', params⟩, hparams, h⟩ := Draw.gives_of_bind h
  cases Draw.eq_of_gives_pure h
  exact ⟨params, rfl, Parameter.forall₂_of_randomizeAll hrefl hR hparams⟩

theorem Action.forall_of_randomize {Q : GeneTree → Prop}
    (hQ : ∀ t, Q t → Ensures (RandomEdit.randomizeAll : RandomEdit γ Unit) t fun _ u => Q u)
    (ha : ∀ p ∈ a.params, Q p.gene)
    (h : Gives (a.randomize : Draw γ (Except GeneError Unit × Action)) (r, b)) :
    ∀ q ∈ b.params, Q q.gene := by
  obtain ⟨params, rfl, htrees⟩ := trees_of_randomize (R := fun t u => Q t → Q u) (fun _ ht => ht)
    (fun t => ⟨trivial, fun r u hu ht => (hQ t ht).2 r u hu⟩) h
  intro q hq
  obtain ⟨i, hi, rfl⟩ := List.mem_iff_getElem.mp hq
  have hi' : i < a.params.length := htrees.length_eq ▸ hi
  exact htrees.get hi' hi (ha _ (List.getElem_mem hi'))

theorem Action.sound_of_randomize (ha : a.IsSound)
    (h : Gives (a.randomize : Draw γ (Except GeneError Unit × Action)) (r, b)) : b.IsSound :=
  forall_of_randomize (fun _ => RandomEdit.wellFormed_randomizeAll) ha h

namespace Sampler

variable {s : Sampler}

/-- Are the templates of a sampler well-formed? -/
def IsSound (s : Sampler) : Prop := ∀ a ∈ s.catalog.values, a.IsSound

theorem sound_of_fromTemplate (ha : a.IsSound)
    (h : Attempt.Yields (s.fromTemplate a : Attempt γ Action) b) : b.IsSound := by
  obtain ⟨⟨_, c⟩, hc, h⟩ := Attempt.of_bind h
  have hc := Action.sound_of_randomize ha (Attempt.gives_of_ofChange hc)
  simp only at h
  split at h
  · obtain ⟨auth, -, h⟩ := Attempt.of_bind h
    rw [Attempt.eq_of_pure h, Action.withAuth]
    split <;> exact hc
  · rw [Attempt.eq_of_pure h]
    exact hc

theorem sound_of_randomAction (hs : s.IsSound)
    (h : Attempt.Yields (s.randomAction : Attempt γ Action) a) : a.IsSound := by
  obtain ⟨i, -, h⟩ := Attempt.of_bind h
  split at h
  · next template htemplate =>
    exact sound_of_fromTemplate (hs template (List.mem_of_getElem? htemplate)) h
  · exact absurd h Attempt.not_throw

theorem IsSound.at? (hs : s.IsSound) {name : String} (h : s.catalog.at? name = some a) : a.IsSound := by
  obtain ⟨entry, hentry, rfl⟩ : ∃ e ∈ s.catalog, e.2 = a := by
    rw [Table.at?, List.lookup_eq_some_iff] at h
    obtain ⟨before, after, hsplit, -⟩ := h
    exact ⟨(name, a), by simp [hsplit], rfl⟩
  exact hs _ (List.mem_map_of_mem hentry)

end Sampler
end CallEvolution
