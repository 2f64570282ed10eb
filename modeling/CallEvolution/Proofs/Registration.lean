import CallEvolution.Proofs.LinkIntegrity
import CallEvolution.Proofs.LinkPass

/-! Registering links. What is registered are those of the new links that join two genes in the order of
their actions; all else stays, and nothing is drawn. -/

namespace CallEvolution

namespace Individual

variable {ind u : Individual} {l k : Link} {taken : Bool}

/-- Would the link be taken by an individual that does not have it yet? -/
def admits (ind : Individual) (l : Link) : Bool := l.source ≠ l.target && ind.allows l

/-- A link is taken if it is new and admitted, and is the last one then. -/
theorem added_of_addLink (h : ind.addLink l = .ok (taken, u)) :
    ∃ added, added.Sublist [l] ∧ u = { ind with links := ind.links ++ added } ∧
      added.length = (if taken then 1 else 0) ∧
      ∀ k, k ∈ added ↔ k ∉ ind.links ∧ k = l ∧ ind.admits k = true := by
  obtain ⟨_, _, h⟩ := ok_of_bind h
  obtain ⟨_, _, h⟩ := ok_of_bind h
  have hrefused : (decide (l.source = l.target) || ind.links.contains l || !ind.allows l) = true ↔
      ¬ (l ∉ ind.links ∧ ind.admits l = true) := by
    rw [admits]
    simp only [Bool.or_eq_true, decide_eq_true_eq, List.contains_iff_mem, Bool.not_eq_true',
      Bool.and_eq_true, ne_eq, ← Bool.not_eq_true]
    tauto
  by_cases hnew : l ∉ ind.links ∧ ind.admits l = true
  · rw [if_neg fun hr => hrefused.mp hr hnew] at h
    obtain ⟨rfl, rfl⟩ := Prod.mk.inj (Except.ok.inj h)
    refine ⟨[l], .refl _, rfl, rfl, fun k => ?_⟩
    rw [List.mem_singleton]
    refine ⟨?_, fun hk => hk.2.1⟩
    rintro rfl
    exact ⟨hnew.1, rfl, hnew.2⟩
  · rw [if_pos (hrefused.mpr hnew)] at h
    obtain ⟨rfl, rfl⟩ := Prod.mk.inj (Except.ok.inj h)
    refine ⟨[], List.nil_sublist _, by rw [List.append_nil], rfl, fun k => ?_⟩
    refine ⟨fun hk => absurd hk List.not_mem_nil, ?_⟩
    rintro ⟨hfree, rfl, hadmits⟩
    exact absurd ⟨hfree, hadmits⟩ hnew

theorem exists_addLink (hs : ind.checkAddress l.source = .ok ())
    (ht : ind.checkAddress l.target = .ok ()) : ∃ taken u, ind.addLink l = .ok (taken, u) := by
  have hrun : ind.addLink l =
      if l.source = l.target || ind.links.contains l || !ind.allows l then .ok (false, ind)
      else .ok (true, { ind with links := ind.links ++ [l] }) := by
    rw [addLink, hs, ht]
    rfl
  by_cases hrefused : (decide (l.source = l.target) || ind.links.contains l || !ind.allows l) = true
  · exact ⟨_, _, hrun.trans (if_pos hrefused)⟩
  · exact ⟨_, _, hrun.trans (if_neg hrefused)⟩

end Individual

namespace Revision

variable {γ : Type} {ind u : Individual} {ls : List Link} {n : Nat}

/-- The links that are registered of some are those that are new and admitted, each of them once. -/
theorem added_of_addLinks (h : Gives ((addLinks ls : Revision γ Nat).run.run ind) (.ok n, u)) :
    ∃ added, added.Sublist ls ∧ u = { ind with links := ind.links ++ added } ∧ added.length = n ∧
      added.Nodup ∧ ∀ k, k ∈ added ↔ k ∉ ind.links ∧ k ∈ ls ∧ ind.admits k = true := by
  induction ls generalizing ind n with
  | nil =>
    obtain ⟨hn, rfl⟩ := Prod.mk.inj (Outcomes.eq_of_pure (m := Draw γ) h)
    exact ⟨[], .refl _, by simp, (Except.ok.inj hn).symm, List.nodup_nil, by simp⟩
  | cons l ls ih =>
    obtain ⟨⟨taken, s⟩, s₁, hquery, hset⟩ := gives_of_bind_ok h
    obtain ⟨a, s₂, hset, hafter⟩ := gives_of_bind_ok hset
    obtain ⟨m, s₃, hrest, hlast⟩ := gives_of_bind_ok hafter
    have hadd := (views_query.2 _ _ hquery).2 _ rfl
    have hs₂ : s₂ = s :=
      (Ensures.set (m := Draw γ) (Q := fun (_ : Except ActionError PUnit) s' => s' = s) rfl).2 _ _ hset
    obtain ⟨hn, hs₃⟩ := Prod.mk.inj (Outcomes.eq_of_pure (m := Draw γ) hlast)
    obtain ⟨js, hjs, hs, hlength, hmem⟩ := Individual.added_of_addLink hadd
    obtain ⟨ks, hks, hu, hlength', hnodup, hmem'⟩ := ih (hs₃ ▸ hrest)
    have hadmits : ∀ k, s₂.admits k = ind.admits k := fun k => by rw [hs₂, hs]; rfl
    have hlinks : s₂.links = ind.links ++ js := by rw [hs₂, hs]
    have hboth : ∀ k ∈ js, k ∉ ks := fun k hk hk' =>
      ((hmem' k).mp hk').1 (hlinks ▸ List.mem_append_right _ hk)
    refine ⟨js ++ ks, by simpa using hjs.append hks, ?_, ?_, ?_, fun k => ?_⟩
    · rw [hu, hs₂, hs, List.append_assoc]
    · rw [List.length_append, hlength, hlength']
      exact (Except.ok.inj hn).symm
    · exact List.nodup_append'.mpr ⟨hjs.nodup (List.nodup_singleton l), hnodup, hboth⟩
    · rw [List.mem_append, hmem, hmem', hadmits, hlinks, List.mem_append, hmem, List.mem_cons]
      tauto

theorem links_addLinks (h : Gives ((addLinks ls : Revision γ Nat).run.run ind) (.ok n, u)) :
    ∃ ks, ks.Sublist ls ∧ u = { ind with links := ind.links ++ ks } ∧
      ∀ k, k ∈ u.links ↔ k ∈ ind.links ∨ (k ∈ ls ∧ ind.admits k = true) := by
  obtain ⟨added, hsub, rfl, -, -, hmem⟩ := added_of_addLinks h
  refine ⟨added, hsub, rfl, fun k => ?_⟩
  rw [List.mem_append, hmem]
  tauto

theorem yields_addLinks_cons {l : Link} {taken : Bool} {s : Individual}
    (hadd : ind.addLink l = .ok (taken, s)) (h : Yields (addLinks ls : Revision γ Nat) s (.ok n) u) :
    Yields (addLinks (l :: ls) : Revision γ Nat) ind (.ok ((if taken then 1 else 0) + n)) u := by
  have hset : Yields (set s : Revision γ PUnit) ind (.ok ⟨⟩) s := fun _ => rfl
  have hcount := yields_pure (γ := γ) ((if taken then 1 else 0) + n) u
  exact (yields_query hadd).bind_ok (hset.bind_ok (h.bind_ok hcount))

theorem yields_addLinks
    (h : ∀ l ∈ ls, ind.checkAddress l.source = .ok () ∧ ind.checkAddress l.target = .ok ()) :
    ∃ n u, Yields (addLinks ls : Revision γ Nat) ind (.ok n) u := by
  induction ls generalizing ind with
  | nil => exact ⟨0, ind, yields_pure 0 ind⟩
  | cons l ls ih =>
    obtain ⟨hl, hrest⟩ := List.forall_mem_cons.mp h
    obtain ⟨taken, s, hadd⟩ := Individual.exists_addLink hl.1 hl.2
    obtain ⟨ks, -, hs, -⟩ := Individual.added_of_addLink hadd
    have hcheck : ∀ k ∈ ls, s.checkAddress k.source = .ok () ∧ s.checkAddress k.target = .ok () := by
      rw [hs]
      exact hrest
    obtain ⟨n, u, hu⟩ := ih hcheck
    exact ⟨_, u, yields_addLinks_cons hadd hu⟩

end Revision
end CallEvolution
