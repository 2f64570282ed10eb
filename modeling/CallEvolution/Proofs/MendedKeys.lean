import CallEvolution.Individual.Repair
import CallEvolution.Proofs.Draws
import CallEvolution.Proofs.Lookups

/-! Repairs, step by step and as what they leave. A key is kept, given another value that satisfies it, or costs
its row. A key that is mended is in order and no other key of its row is touched, so the keys of all rows that
are left are in order. -/

namespace CallEvolution

namespace GeneTree

variable {t : GeneTree} {x y : NodeId} {g : Gene} {e : NodeId × GeneNode}

/-- What a walk meets in a tree that has got a new leaf. -/
theorem mem_preorderWithin_setGene (hg : g.children = []) {d : Nat}
    (h : e ∈ (t.setGene x g).preorderWithin (fun _ => false) d y) :
    (e.1 = x ∧ e.2.gene = g) ∨ (e.1 ≠ x ∧ e ∈ t.preorderWithin (fun _ => false) d y) := by
  induction d generalizing y with
  | zero => cases h
  | succ d ih =>
    rw [preorderWithin] at h
    by_cases hy : y = x
    · subst hy
      rw [setGene, get?_modify_self] at h
      cases hn : t.get? y with
      | none =>
        rw [hn] at h
        cases h
      | some n =>
        rw [hn] at h
        simp only [Option.map_some, Bool.false_eq_true, if_false, hg, List.flatMap_nil,
          List.mem_singleton] at h
        exact .inl (by rw [h]; exact ⟨rfl, rfl⟩)
    · have hget : (t.setGene x g).get? y = t.get? y := get?_modify_of_ne hy _
      rw [hget] at h
      rw [preorderWithin]
      cases hn : t.get? y with
      | none =>
        rw [hn] at h
        cases h
      | some n =>
        rw [hn] at h
        simp only [Bool.false_eq_true, if_false, List.mem_cons, List.mem_flatMap] at h ⊢
        rcases h with rfl | ⟨z, hz, h⟩
        · exact .inr ⟨hy, .inl rfl⟩
        · exact (ih h).imp_right fun hold => ⟨hold.1, .inr ⟨z, hz, hold.2⟩⟩

theorem root_setGene (t : GeneTree) (x : NodeId) (g : Gene) : (t.setGene x g).root = t.root := by
  unfold setGene modify
  split <;> rfl

theorem depthBound_setGene (t : GeneTree) (x : NodeId) (g : Gene) :
    (t.setGene x g).depthBound = t.depthBound := by
  unfold depthBound setGene modify
  split <;> simp [place]

theorem mem_preorder_setGene (hg : g.children = [])
    (h : e ∈ (t.setGene x g).preorder (t.setGene x g).root fun _ => false) :
    (e.1 = x ∧ e.2.gene = g) ∨ (e.1 ≠ x ∧ e ∈ t.preorder t.root fun _ => false) := by
  rw [preorder, root_setGene, depthBound_setGene] at h
  exact mem_preorderWithin_setGene hg h

end GeneTree

namespace Action

variable {a : Action} {k : KeyReference}

theorem mem_keyReferences : k ∈ a.keyReferences ↔
    ∃ p n, a.param? k.param = some p ∧ (k.node, n) ∈ valueNodes p.gene ∧
      n.gene = .foreignKey k.table k.value k.nullable := by
  simp only [keyReferences, List.mem_flatMap, List.mem_filterMap, param?]
  constructor
  · rintro ⟨⟨p, i⟩, hp, ⟨x, n⟩, hn, h⟩
    rw [List.mem_zipIdx_iff_getElem?] at hp
    simp only at h
    split at h
    · next table value nullable hgene =>
      cases h
      exact ⟨p, n, hp, hn, hgene⟩
    · cases h
  · rintro ⟨p, n, hp, hn, hgene⟩
    refine ⟨(p, k.param), List.mem_zipIdx_iff_getElem?.mpr hp, (k.node, n), hn, ?_⟩
    simp only [hgene]

end Action

namespace Individual

variable {γ : Type} [RandomSource γ] {earlier rest rows : List Action} {a b : Action}
  {k k' : KeyReference} {keys : List KeyReference} {value : Option Int64} {changed : Bool}
  {removed : List ActionId} {ind u : Individual} {r : Option Action}

theorem gives_mendKeys_cons
    (h : Gives (mendKeys earlier a (k :: keys) : Draw γ (Option Action × Bool)) (r, changed)) :
    (isSatisfied earlier k = true ∧
      Gives (mendKeys earlier a keys : Draw γ (Option Action × Bool)) (r, changed)) ∨
    (r = none ∧ keysOf earlier k.table = [] ∧ k.nullable = false) ∨
    ∃ value c, isSatisfied earlier { k with value } = true ∧
      Gives (mendKeys earlier (setKey a k value) keys : Draw γ (Option Action × Bool)) (r, c) ∧
      isSatisfied earlier k = false ∧ changed = true := by
  rw [mendKeys] at h
  split at h
  · next hsatisfied => exact .inl ⟨hsatisfied, h⟩
  · next hunsatisfied =>
    rw [Bool.not_eq_true] at hunsatisfied
    simp only at h
    split at h
    · next hnone =>
      cases Draw.eq_of_gives_pure h
      rw [Bool.and_eq_true, List.isEmpty_iff, Bool.not_eq_true'] at hnone
      exact .inr (.inl ⟨rfl, hnone⟩)
    · next hmend =>
      refine .inr (.inr ?_)
      split at h
      · next hempty =>
        obtain ⟨value, hvalue, h⟩ := Draw.gives_of_bind h
        obtain ⟨⟨mended, c⟩, hmended, h⟩ := Draw.gives_of_bind h
        cases Draw.eq_of_gives_pure h
        rw [Draw.eq_of_gives_pure hvalue] at hmended
        refine ⟨none, c, ?_, hmended, hunsatisfied, rfl⟩
        rw [hempty, Bool.true_and, Bool.not_eq_true', Bool.not_eq_false] at hmend
        exact hmend
      · obtain ⟨value, hvalue, h⟩ := Draw.gives_of_bind h
        obtain ⟨⟨mended, c⟩, hmended, h⟩ := Draw.gives_of_bind h
        cases Draw.eq_of_gives_pure h
        refine ⟨value, c, ?_, hmended, hunsatisfied, rfl⟩
        obtain ⟨i, hi, rfl⟩ := Draw.gives_of_map hvalue
        rw [List.getElem?_eq_getElem (Draw.index_lt hi)]
        exact List.contains_iff_mem.mpr (List.getElem_mem _)

/-- Mending a row changes its parameters only. -/
theorem params_of_mendKeys
    (h : Gives (mendKeys earlier a keys : Draw γ (Option Action × Bool)) (some b, changed)) :
    ∃ params, b = { a with params } := by
  induction keys generalizing a changed with
  | nil =>
    cases Draw.eq_of_gives_pure h
    exact ⟨_, rfl⟩
  | cons k keys ih =>
    rcases gives_mendKeys_cons h with ⟨-, h⟩ | ⟨h, -⟩ | ⟨value, c, -, h, -⟩
    · exact ih h
    · cases h
    · obtain ⟨params, rfl⟩ := ih h
      refine ⟨params, ?_⟩
      rw [setKey]
      split <;> rfl

/-- A row is kept with its keys mended, or removed. -/
theorem gives_repairFrom_cons
    (h : Gives (repairFrom earlier (a :: rest) : Draw γ (List Action × List ActionId × Bool))
      (rows, removed, changed)) :
    (∃ b c c', Gives (mendKeys earlier a a.keyReferences : Draw γ _) (some b, c) ∧
      Gives (repairFrom (earlier ++ [b]) rest : Draw γ _) (rows, removed, c') ∧
      changed = (c || c')) ∨
    ∃ c removed' c', Gives (mendKeys earlier a a.keyReferences : Draw γ _) (none, c) ∧
      removed = a.id :: removed' ∧
      Gives (repairFrom earlier rest : Draw γ _) (rows, removed', c') ∧ changed = true := by
  rw [repairFrom] at h
  obtain ⟨⟨mended, c⟩, hmended, h⟩ := Draw.gives_of_bind h
  cases mended with
  | some b =>
    obtain ⟨⟨rows', removed', c'⟩, hrest, h⟩ := Draw.gives_of_bind h
    cases Draw.eq_of_gives_pure h
    exact .inl ⟨b, c, c', hmended, hrest, rfl⟩
  | none =>
    obtain ⟨⟨rows', removed', c'⟩, hrest, h⟩ := Draw.gives_of_bind h
    cases Draw.eq_of_gives_pure h
    exact .inr ⟨c, removed', c', hmended, rfl, hrest, rfl⟩

/-- The rows that are left stand in their old order, and the others are reported. -/
theorem ids_of_repairFrom
    (h : Gives (repairFrom earlier rest : Draw γ (List Action × List ActionId × Bool))
      (rows, removed, changed)) :
    (rows.map Action.id).Sublist ((earlier ++ rest).map Action.id) ∧
      ∀ id ∈ (earlier ++ rest).map Action.id, id ∈ rows.map Action.id ∨ id ∈ removed := by
  induction rest generalizing earlier removed changed with
  | nil =>
    cases Draw.eq_of_gives_pure h
    rw [List.append_nil]
    exact ⟨.refl _, fun id hid => .inl hid⟩
  | cons a rest ih =>
    rcases gives_repairFrom_cons h with ⟨b, c, c', hb, h, -⟩ | ⟨-, removed', c', -, rfl, hrest, -⟩
    · obtain ⟨params, rfl⟩ := params_of_mendKeys hb
      have hids : (earlier ++ [{ a with params }] ++ rest).map Action.id =
          (earlier ++ a :: rest).map Action.id := by simp
      rw [← hids]
      exact ih h
    · obtain ⟨hrows, hall⟩ := ih hrest
      refine ⟨hrows.trans ?_, fun id hid => ?_⟩
      · exact ((List.Sublist.refl _).append (List.sublist_cons_self _ _)).map _
      · rw [List.map_append, List.map_cons, List.mem_append, List.mem_cons] at hid
        rcases hid with hid | rfl | hid
        · exact (hall id (by simp [hid])).imp_right (List.mem_cons_of_mem _)
        · exact .inr List.mem_cons_self
        · exact (hall id (by simp [hid])).imp_right (List.mem_cons_of_mem _)

/-- The rows that are left have their old ids and kinds. -/
theorem kinds_of_repairFrom
    (h : Gives (repairFrom earlier rest : Draw γ (List Action × List ActionId × Bool))
      (rows, removed, changed)) : ∀ b ∈ rows, ∃ a ∈ earlier ++ rest, b.id = a.id ∧ b.kind = a.kind := by
  induction rest generalizing earlier removed changed with
  | nil =>
    cases Draw.eq_of_gives_pure h
    exact fun b hb => ⟨b, by simpa using hb, rfl, rfl⟩
  | cons a rest ih =>
    rcases gives_repairFrom_cons h with ⟨b, c, c', hb, h, -⟩ | ⟨-, removed', c', -, -, h, -⟩
    · obtain ⟨params, rfl⟩ := params_of_mendKeys hb
      intro b hb
      obtain ⟨d, hd, hkept⟩ := ih h b hb
      simp only [List.append_assoc, List.singleton_append, List.mem_append, List.mem_cons] at hd ⊢
      rcases hd with hd | rfl | hd
      · exact ⟨d, .inl hd, hkept⟩
      · exact ⟨a, .inr (.inl rfl), hkept⟩
      · exact ⟨d, .inr (.inr hd), hkept⟩
    · intro b hb
      obtain ⟨d, hd, hkept⟩ := ih h b hb
      refine ⟨d, ?_, hkept⟩
      exact (List.Sublist.append (.refl _) (List.sublist_cons_self _ _)).subset hd

theorem foldl_detach (removed : List ActionId) (ind : Individual) :
    removed.foldl detach ind =
      { ind with links := ind.links.filter fun l => removed.all fun id => !l.involves id } := by
  induction removed generalizing ind with
  | nil => simp
  | cons id removed ih =>
    rw [List.foldl_cons, ih, detach, List.filter_filter]
    simp only [List.all_cons, Bool.and_comm]

/-- A repair mends or removes rows, drops the links of those that it removes, and notes if there are any. -/
theorem eq_of_repair (h : Gives (ind.repair : Draw γ (Bool × Individual)) (changed, u)) :
    ∃ rows removed, Gives (repairFrom [] ind.init : Draw γ (List Action × List ActionId × Bool))
        (rows, removed, changed) ∧
      u = { ind with
        init := rows
        links := ind.links.filter fun l => removed.all fun id => !l.involves id
        removedByRepair := ind.removedByRepair || !removed.isEmpty } := by
  obtain ⟨⟨rows, removed, c⟩, hrows, h⟩ := Draw.gives_of_bind h
  cases Draw.eq_of_gives_pure h
  refine ⟨rows, removed, hrows, ?_⟩
  rw [foldl_detach]

theorem parts_of_repair (h : Gives (ind.repair : Draw γ (Bool × Individual)) (changed, u)) :
    ∃ rows removed c, Gives (repairFrom [] ind.init : Draw γ (List Action × List ActionId × Bool))
        (rows, removed, c) ∧
      u.init = rows ∧ u.main = ind.main ∧ u.nextId = ind.nextId ∧
      u.links = ind.links.filter fun l => removed.all fun id => !l.involves id := by
  obtain ⟨rows, removed, hrows, rfl⟩ := eq_of_repair h
  exact ⟨rows, removed, changed, hrows, rfl, rfl, rfl, rfl⟩

/-- The keys of a row one of whose keys has got another value. -/
theorem mem_keyReferences_setKey (h : k' ∈ (setKey a k value).keyReferences) :
    k' = { k with value } ∨ (k' ∈ a.keyReferences ∧ k' ≠ k) := by
  obtain ⟨p', n, hp', hn, hgene⟩ := Action.mem_keyReferences.mp h
  rw [setKey] at hp'
  cases hp : a.param? k.param with
  | none =>
    rw [hp] at hp'
    refine .inr ⟨Action.mem_keyReferences.mpr ⟨p', n, hp', hn, hgene⟩, ?_⟩
    rintro rfl
    cases hp.symm.trans hp'
  | some p =>
    rw [hp] at hp'
    simp only at hp'
    by_cases hparam : k'.param = k.param
    · rw [hparam, Action.param?_setGene_self hp, Option.some.injEq] at hp'
      subst hp'
      have hleaf : (Gene.foreignKey k.table value k.nullable).children = [] := rfl
      rcases GeneTree.mem_preorder_setGene hleaf hn with ⟨hnode, hnew⟩ | ⟨hnode, hold⟩
      · left
        obtain ⟨param, node, table, value', nullable⟩ := k'
        simp only at hparam hnode hgene hnew
        rw [hgene] at hnew
        cases hnew
        rw [hparam, hnode]
      · refine .inr ⟨Action.mem_keyReferences.mpr ⟨p, n, hparam ▸ hp, hold, hgene⟩, ?_⟩
        exact fun he => hnode (he ▸ rfl)
    · rw [Action.param?_setGene_of_ne a hparam] at hp'
      refine .inr ⟨Action.mem_keyReferences.mpr ⟨p', n, hp', hn, hgene⟩, ?_⟩
      exact fun he => hparam (he ▸ rfl)

theorem mendKeys_of_satisfied (h : ∀ k ∈ keys, isSatisfied earlier k = true) :
    (mendKeys earlier a keys : Draw γ (Option Action × Bool)) = pure (some a, false) := by
  induction keys with
  | nil => rfl
  | cons k keys ih =>
    obtain ⟨hk, hkeys⟩ := List.forall_mem_cons.mp h
    rw [mendKeys, if_pos hk]
    exact ih hkeys

/-- A row whose keys are all in order or still to be mended comes out in order. -/
theorem satisfied_of_mendKeys
    (h : Gives (mendKeys earlier a keys : Draw γ (Option Action × Bool)) (some b, changed))
    (hkeys : ∀ k ∈ a.keyReferences, isSatisfied earlier k = true ∨ k ∈ keys) :
    ∀ k ∈ b.keyReferences, isSatisfied earlier k = true := by
  induction keys generalizing a changed with
  | nil =>
    cases Draw.eq_of_gives_pure h
    exact fun k hk => (hkeys k hk).resolve_right List.not_mem_nil
  | cons k keys ih =>
    rcases gives_mendKeys_cons h with ⟨hk, h⟩ | ⟨h, -⟩ | ⟨value, c, hk, h, -⟩
    · refine ih h fun k' hk' => ?_
      rcases hkeys k' hk' with hdone | htodo
      · exact .inl hdone
      · rcases List.mem_cons.mp htodo with rfl | hlater
        · exact .inl hk
        · exact .inr hlater
    · cases h
    · refine ih h fun k' hk' => ?_
      rcases mem_keyReferences_setKey hk' with rfl | ⟨hold, hne⟩
      · exact .inl hk
      · exact (hkeys k' hold).imp_right fun htodo => (List.mem_cons.mp htodo).resolve_left hne

omit [RandomSource γ] in
theorem verifyFrom_append (earlier rows rest : List Action) :
    verifyFrom earlier (rows ++ rest) = (verifyFrom earlier rows && verifyFrom (earlier ++ rows) rest) := by
  induction rows generalizing earlier with
  | nil => simp [verifyFrom]
  | cons a rows ih => simp [verifyFrom, ih, Bool.and_assoc]

theorem verify_of_repairFrom
    (h : Gives (repairFrom earlier rest : Draw γ (List Action × List ActionId × Bool))
      (rows, removed, changed))
    (hearlier : verifyFrom [] earlier = true) : verifyFrom [] rows = true := by
  induction rest generalizing earlier removed changed with
  | nil =>
    cases Draw.eq_of_gives_pure h
    exact hearlier
  | cons a rest ih =>
    rcases gives_repairFrom_cons h with ⟨b, c, c', hb, h, -⟩ | ⟨-, removed', c', -, -, h, -⟩
    · refine ih h ?_
      have hkeys := satisfied_of_mendKeys hb fun k hk => .inr hk
      rw [verifyFrom_append, hearlier]
      simpa [verifyFrom] using hkeys
    · exact ih h hearlier

/-- After a repair the foreign keys of all rows are in order. -/
theorem verify_of_repair (h : Gives (ind.repair : Draw γ (Bool × Individual)) (changed, u)) :
    u.verify = true := by
  obtain ⟨rows, removed, c, hrows, rfl, -⟩ := parts_of_repair h
  exact verify_of_repairFrom hrows rfl

end Individual
end CallEvolution
