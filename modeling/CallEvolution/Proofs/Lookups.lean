import CallEvolution.Individual.Sync
import CallEvolution.Proofs.Lockstep
import CallEvolution.Proofs.Ownership

/-! Gene trees looked up by action and parameter. A change of one is seen at its own place only, and in the
tree it is seen in the region of one node: the places at and below it. -/

namespace CallEvolution

open GeneTerm GeneTree

namespace GeneTerm

/-- Is `x` a place at or below `z`, outside of all collections? -/
def Covers (v : GeneTerm) (z x : NodeId) : Prop :=
  ∃ hs p, v = plug hs p ∧ (∀ h ∈ hs, h.content.gene.isCollection = false) ∧ p.id = z ∧ x ∈ p.fixed

end GeneTerm

namespace GeneTree

variable {t u src other : GeneTree} {v w s r p : GeneTerm} {x z : NodeId}

theorem Holds.covers_iff {hs : List Hole} (hv : t.Holds (plug hs p))
    (hplain : ∀ h ∈ hs, h.content.gene.isCollection = false) :
    (plug hs p).Covers p.id x ↔ x ∈ p.fixed := by
  constructor
  · rintro ⟨ks, q, he, -, hid, hx⟩
    have hq : t.Holds q := by
      rw [he] at hv
      exact hv.of_plug
    rwa [hq.eq_of_id hv.of_plug hid] at hx
  · exact fun hx => ⟨hs, p, rfl, hplain, rfl, hx⟩

theorem Holds.mem_fixed_of_covers (h : v.Covers z x) : z ∈ v.fixed ∧ x ∈ v.fixed := by
  obtain ⟨hs, p, rfl, hplain, rfl, hx⟩ := h
  exact ⟨fixed_plug hplain p.id_mem_fixed, fixed_plug hplain hx⟩

/-- Terms of one mould have the same regions. -/
theorem Holds.covers_of_mould (hv : t.Holds v) (hw : u.Holds w) (hmould : v.mould = w.mould)
    (h : v.Covers z x) : w.Covers z x := by
  obtain ⟨hz, -⟩ := mem_fixed_of_covers h
  obtain ⟨hs, ks, p, q, rfl, rfl, rfl, hq, hpq, hplain, hplain'⟩ :=
    exists_plugs hv.shaped hw.shaped hmould hz
  rw [hv.covers_iff hplain] at h
  refine ⟨ks, q, rfl, hplain', hq, ?_⟩
  rwa [← fixed_eq_of_mould_eq hv.of_plug.shaped hw.of_plug.shaped hpq]

end GeneTree

namespace Edit

variable {t u src other : GeneTree} {v w s r : GeneTerm} {z : NodeId}

/-- A gene that adopts a value leaves all places outside of its region alone. -/
theorem lockstep_adopt_at (ht : t.FreeExact) (hu : u.FreeExact) (hv : t.Holds v) (hw : u.Holds w)
    (hs : src.Holds s) (hr : other.Holds r) (hmould : v.mould = w.mould) (herase : s.erase = r.erase)
    (hz : z ∈ v.fixed) :
    ∃ result t' v' u' w', (adopt z src s.id).run.run t = .ok (result, t') ∧
      (adopt z other r.id).run.run u = .ok (result, u') ∧ Refills t v t' v' ∧ Refills u w u' w' ∧
        v.Overwrites w v' w' ∧ ∀ x, ¬ v.Covers z x → v'.valueAt x = v.valueAt x := by
  obtain ⟨hs', ks, p, q, rfl, rfl, rfl, -, hpq, hplain, hplain'⟩ :=
    exists_plugs hv.shaped hw.shaped hmould hz
  have hp := hv.of_plug
  have hq := hw.of_plug
  obtain ⟨result, t', v', u', w', hx, hy, hv', hw', hover, hkept⟩ :=
    (lockstep_adopt ht hu hp hq hs hr hpq herase).plug hv hw hpq hplain hplain'
  refine ⟨result, t', v', u', w', hx, hy, hv', hw', hover, fun x hx => hkept x ?_⟩
  rwa [hv.covers_iff hplain] at hx

end Edit

namespace Action

theorem param?_setGene_self {a : Action} {i : Nat} {p : Parameter} (h : a.param? i = some p)
    (t : GeneTree) : (a.setGene i t).param? i = some { p with gene := t } := by
  rw [param?] at h
  rw [param?, setGene, List.getElem?_modify, h]
  simp

theorem param?_setGene_of_ne (a : Action) {i j : Nat} (h : j ≠ i) (t : GeneTree) :
    (a.setGene i t).param? j = a.param? j := by
  rw [param?, setGene, List.getElem?_modify, param?]
  simp [Ne.symm h]

end Action

namespace Individual

variable {ind : Individual} {id id' : ActionId} {i j : Nat} {t u : GeneTree}

theorem find?_modifyFirst {f : Action → Action} (hf : ∀ a, (f a).id = a.id) (as : List Action) :
    (modifyFirst id f as).find? (·.id = id') =
      if id' = id then (as.find? (·.id = id')).map f else as.find? (·.id = id') := by
  induction as with
  | nil => simp [modifyFirst]
  | cons a as ih =>
    by_cases ha : a.id = id
    · rw [modifyFirst, if_pos ha, List.find?_cons, List.find?_cons, hf, ha]
      by_cases hid : id' = id
      · simp [hid]
      · simp [hid, Ne.symm hid]
    · rw [modifyFirst, if_neg ha, List.find?_cons, List.find?_cons, ih]
      by_cases hid : id' = id
      · simp [hid, ha]
      · simp only [if_neg hid]

theorem action?_modifyAction {f : Action → Action} (hf : ∀ a, (f a).id = a.id) :
    (ind.modifyAction id f).action? id' =
      if id' = id then (ind.action? id').map f else ind.action? id' := by
  unfold modifyAction action? actions
  by_cases hany : ind.init.any (·.id = id) = true
  · rw [if_pos hany, List.find?_append, find?_modifyFirst hf, List.find?_append]
    by_cases hid : id' = id
    · rw [if_pos hid, if_pos hid]
      have hsome : (ind.init.find? (·.id = id')).isSome = true := by
        rw [List.find?_isSome, hid]
        exact List.any_eq_true.mp hany
      obtain ⟨a, ha⟩ := Option.isSome_iff_exists.mp hsome
      rw [ha]
      rfl
    · rw [if_neg hid, if_neg hid]
  · rw [if_neg hany, List.find?_append, find?_modifyFirst hf, List.find?_append]
    by_cases hid : id' = id
    · rw [if_pos hid, if_pos hid]
      have hnone : ind.init.find? (·.id = id') = none := by
        rw [List.find?_eq_none, hid]
        intro a ha h
        exact hany (List.any_eq_true.mpr ⟨a, ha, h⟩)
      rw [hnone]
      rfl
    · rw [if_neg hid, if_neg hid]

theorem action?_setGene : (ind.setGene id i t).action? id' =
    if id' = id then (ind.action? id').map (·.setGene i t) else ind.action? id' :=
  action?_modifyAction (f := fun a => a.setGene i t) fun _ => rfl

theorem gene_eq_ok_iff : ind.gene id i = .ok t ↔
    ∃ a p, ind.action? id = some a ∧ a.param? i = some p ∧ p.gene = t := by
  unfold gene
  cases ha : ind.action? id with
  | none => simp
  | some a =>
    cases hp : a.param? i with
    | none => simp [hp]
    | some p => simp [hp]

theorem gene_setGene_self (h : ind.gene id i = .ok u) : (ind.setGene id i t).gene id i = .ok t := by
  obtain ⟨a, p, ha, hp, -⟩ := gene_eq_ok_iff.mp h
  refine gene_eq_ok_iff.mpr ⟨a.setGene i t, { p with gene := t }, ?_, ?_, rfl⟩
  · rw [action?_setGene, if_pos rfl, ha]
    rfl
  · exact Action.param?_setGene_self hp t

theorem gene_setGene_of_ne (h : (id', j) ≠ (id, i)) :
    (ind.setGene id i t).gene id' j = ind.gene id' j := by
  unfold gene
  rw [action?_setGene]
  by_cases hid : id' = id
  · have hj : j ≠ i := fun hj => h (by rw [hid, hj])
    rw [if_pos hid]
    cases ha : ind.action? id' with
    | none => rfl
    | some a => simp only [Option.map_some, Action.param?_setGene_of_ne a hj]
  · rw [if_neg hid]

theorem exists_gene_of_setGene (h : (ind.setGene id i t).gene id' j = .ok u) :
    ∃ u', ind.gene id' j = .ok u' := by
  by_cases hsame : (id', j) = (id, i)
  · obtain ⟨rfl, rfl⟩ := Prod.mk.inj hsame
    obtain ⟨a, p, ha, hp, -⟩ := gene_eq_ok_iff.mp h
    rw [action?_setGene, if_pos rfl, Option.map_eq_some_iff] at ha
    obtain ⟨b, hb, rfl⟩ := ha
    have hq : ∃ q, b.param? j = some q := by
      rw [Action.param?, Action.setGene, List.getElem?_modify] at hp
      cases hb' : b.params[j]? with
      | none => simp [hb'] at hp
      | some q => exact ⟨q, hb'⟩
    obtain ⟨q, hq⟩ := hq
    exact ⟨q.gene, gene_eq_ok_iff.mpr ⟨b, q, hb, hq, rfl⟩⟩
  · exact ⟨u, by rw [← gene_setGene_of_ne hsame]; exact h⟩

theorem wellFormed_of_gene (htrees : ∀ a ∈ ind.actions, ∀ p ∈ a.params, p.gene.WellFormed)
    (h : ind.gene id i = .ok t) : t.WellFormed := by
  obtain ⟨a, p, ha, hp, rfl⟩ := gene_eq_ok_iff.mp h
  exact htrees a (List.mem_of_find?_eq_some ha) p (List.mem_of_getElem? hp)

theorem links_setGene (ind : Individual) (id : ActionId) (i : Nat) (t : GeneTree) :
    (ind.setGene id i t).links = ind.links := by
  rw [setGene, modifyAction]
  split <;> rfl

/-- The tree of a parameter unfolds into a term. -/
def Shows (ind : Individual) (id : ActionId) (i : Nat) (v : GeneTerm) : Prop :=
  ∃ t, ind.gene id i = .ok t ∧ t.Unfolds v

theorem Shows.unique {v w : GeneTerm} (hv : ind.Shows id i v) (hw : ind.Shows id i w) : v = w := by
  obtain ⟨t, ht, hv⟩ := hv
  obtain ⟨u, hu, hw⟩ := hw
  rw [ht, Except.ok.injEq] at hu
  subst hu
  exact hv.unique hw

end Individual
end CallEvolution
