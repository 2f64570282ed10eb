import CallEvolution.Proofs.DueLinks
import CallEvolution.Proofs.LinkSteps
import CallEvolution.Random.Words

/-! The upkeep of links. An individual that has its due links gets those of a changed one by linking
anew the actions that were inserted or moved. -/

namespace CallEvolution

theorem idxOf_set_of_ne {α : Type} [DecidableEq α] {xs : List α} {i : Nat} {x y z : α}
    (hi : xs[i]? = some x) (hx : x ≠ z) (hy : y ≠ z) : (xs.set i y).idxOf z = xs.idxOf z := by
  induction xs generalizing i with
  | nil => rfl
  | cons w xs ih =>
    cases i with
    | zero =>
      have hw : w = x := by simpa using hi
      rw [List.set_cons_zero, List.idxOf_cons_ne _ hy, List.idxOf_cons_ne _ (hw ▸ hx)]
    | succ i =>
      rw [List.set_cons_succ]
      by_cases hw : w = z
      · rw [hw, List.idxOf_cons_self, List.idxOf_cons_self]
      · rw [List.idxOf_cons_ne _ hw, List.idxOf_cons_ne _ hw, ih (by simpa using hi)]

namespace Individual

variable {ind u : Individual} {x y : Action} {l : Link} {i j : Nat}

theorem mem_main_insertMain (ind : Individual) (i : Nat) (x y : Action) :
    y ∈ (ind.insertMain i x).2.main ↔ y = { x with id := ⟨ind.nextId⟩ } ∨ y ∈ ind.main := by
  have hmain : (ind.insertMain i x).2.main =
      ind.main.take i ++ { x with id := ⟨ind.nextId⟩ } :: ind.main.drop i := rfl
  have hsplit : y ∈ ind.main ↔ y ∈ ind.main.take i ∨ y ∈ ind.main.drop i := by
    rw [← List.mem_append, List.take_append_drop]
  rw [hmain, hsplit, List.mem_append, List.mem_cons]
  exact or_left_comm

theorem mainIds_sublist_insertMain (ind : Individual) (i : Nat) (x : Action) :
    ind.mainIds.Sublist (ind.insertMain i x).2.mainIds := by
  have hmain : ind.main.Sublist (ind.insertMain i x).2.main := by
    conv_lhs => rw [← List.take_append_drop i ind.main]
    exact (List.Sublist.refl _).append (List.sublist_cons_self _ _)
  exact hmain.map _

/-- An action that is removed or kept. -/
theorem mem_main_removeMain (hids : ind.ids.Nodup) (h : ind.removeMain i = some (x, u)) :
    x ∈ ind.main ∧ ∀ y, y ∈ u.main ↔ y ∈ ind.main ∧ y.id ≠ x.id := by
  rw [removeMain] at h
  split at h
  · next z hz =>
    cases h
    have hx : x ∈ ind.main := List.mem_of_getElem? hz
    refine ⟨hx, fun y => ?_⟩
    change y ∈ ind.main.eraseIdx i ↔ _
    have hnodup : ind.main.Nodup := (mainIds_nodup hids).of_map
    obtain ⟨hi, hget⟩ := List.getElem?_eq_some_iff.mp hz
    rw [← hnodup.erase_getElem i hi, hget, hnodup.mem_erase_iff, and_comm]
    refine and_congr_right fun hy => not_congr ⟨congrArg Action.id, eq_of_id_eq hids hy hx⟩
  · cases h

theorem parts_of_removeMain (h : ind.removeMain i = some (x, u)) :
    u.init = ind.init ∧ u.mainIds.Sublist ind.mainIds ∧
      u.links = ind.links.filter fun l => !l.involves x.id := by
  rw [removeMain] at h
  split at h
  · cases h
    exact ⟨rfl, (List.eraseIdx_sublist _ _).map _, rfl⟩
  · cases h

/-- What two actions that change places leave as it is. -/
theorem parts_of_swapMain (hx : ind.main[i]? = some x) (hy : ind.main[j]? = some y) :
    ∃ u, ind.swapMain i j = .ok u ∧ u.main[i]? = some y ∧ u.main[j]? = some x ∧
      u.main.Perm ind.main ∧ u.links = ind.links.filter u.allows ∧
      ∀ l, l.involves x.id = false → l.involves y.id = false → u.allows l = ind.allows l := by
  obtain ⟨hi, rfl⟩ := List.getElem?_eq_some_iff.mp hx
  obtain ⟨hj, rfl⟩ := List.getElem?_eq_some_iff.mp hy
  let u := { ind with main := (ind.main.set i ind.main[j]).set j ind.main[i] }.keepOrdered
  have hperm : u.main.Perm ind.main := List.set_set_perm hi hj
  have hrun : ind.swapMain i j = .ok u := by
    rw [swapMain, hx, hy]
  have hmiddle : (ind.mainIds.set i ind.main[j].id)[j]? = some ind.main[j].id := by
    rw [List.getElem?_set]
    split
    · next heq => simp [mainIds, ← heq, hi]
    · simp [mainIds, hj]
  have hstart : ind.mainIds[i]? = some ind.main[i].id := by simp [mainIds, hi]
  have hmain : u.mainIds = (ind.mainIds.set i ind.main[j].id).set j ind.main[i].id := by
    change ((ind.main.set i ind.main[j]).set j ind.main[i]).map Action.id = _
    rw [List.map_set, List.map_set, ← mainIds]
  -- other actions keep their places in the order of ids
  have hplace : ∀ id, id ≠ ind.main[i].id → id ≠ ind.main[j].id → u.ids.idxOf id = ind.ids.idxOf id := by
    intro id hxid hyid
    have hsame : u.mainIds.idxOf id = ind.mainIds.idxOf id := by
      rw [hmain, idxOf_set_of_ne hmiddle (Ne.symm hyid) (Ne.symm hxid),
        idxOf_set_of_ne hstart (Ne.symm hxid) (Ne.symm hyid)]
    have hinit : u.initIds = ind.initIds := rfl
    rw [ids_eq, ids_eq, List.idxOf_append, List.idxOf_append, hsame, hinit]
  have hmem : ∀ id, id ∈ u.ids ↔ id ∈ ind.ids := by
    intro id
    rw [ids_eq, ids_eq]
    exact ((hperm.map Action.id).append_left _).mem_iff
  refine ⟨u, hrun, ?_, ?_, hperm, rfl, ?_⟩
  · change ((ind.main.set i ind.main[j]).set j ind.main[i])[i]? = _
    by_cases hij : j = i
    · simp [hij, hi]
    · rw [List.getElem?_set_ne hij]
      simp [hi]
  · change ((ind.main.set i ind.main[j]).set j ind.main[i])[j]? = _
    simp [hj]
  · intro l hlx hly
    simp only [Link.involves, Bool.or_eq_false_iff, decide_eq_false_iff_not] at hlx hly
    have hinit : u.initIds = ind.initIds := rfl
    rw [Bool.eq_iff_iff, allows_iff, allows_iff, hmem, hmem, hplace _ hlx.1 hly.1,
      hplace _ hlx.2 hly.2, hinit]

end Individual

namespace Linker

open GeneTree (leaf wellFormed_leaf)

variable {γ : Type} [RandomSource γ] {r : Linker} {ind u : Individual} {a : Action} {l : Link} {i j : Nat}

/-- Are the parameter links of an individual those that it would get if all its links were dropped and
all its actions linked? -/
def UpToDate (r : Linker) (ind : Individual) (g : γ) : Prop :=
  ∃ n u g', (r.linkAll : Linking γ Nat).run.run ind.withoutLinks g = .ok ((.ok n, u), g') ∧
    ∀ l, l.origin = .params → (l ∈ ind.links ↔ l ∈ u.links)

variable [Nonempty γ]

theorem upToDate_iff (hr : r.IsDefinite) (hids : ind.ids.Nodup)
    (htrees : ∀ a ∈ ind.main, ∀ p ∈ a.params, p.gene.WellFormed) (g : γ) :
    r.UpToDate ind g ↔ ∀ l, l.origin = .params → (l ∈ ind.links ↔ r.Due γ ind l) := by
  obtain ⟨n, u, hu, hdue⟩ := exists_linkAll (γ := γ) hr hids htrees
  obtain ⟨g', hrun⟩ := hu g
  constructor
  · rintro ⟨n', u', g'', hrun', hsame⟩ l hl
    have heq := Except.ok.inj (hrun.symm.trans hrun')
    have hu' : u = u' := congrArg (fun r => r.1.2) heq
    rw [hsame l hl, ← hu', hdue]
  · intro h
    exact ⟨n, u, g', hrun, fun l hl => by rw [h l hl, hdue]⟩

/-- A link stays due as long as its actions are there in their order. -/
theorem Due.mono (h : r.Due γ ind l) (hmain : ∀ b ∈ ind.main, l.involves b.id = true → b ∈ u.main)
    (hallows : u.allows l = true) : r.Due γ u l := by
  obtain ⟨b, hb, c, hc, hne, hfinds, -⟩ := h
  obtain ⟨hsource, htarget⟩ := ends_of_finds hne hfinds
  have hinvolves : l.involves b.id = true := by simp [Link.involves, hsource]
  have hinvolves' : l.involves c.id = true := by simp [Link.involves, htarget]
  exact ⟨b, hmain b hb hinvolves, c, hmain c hc hinvolves', hne, hfinds, hallows⟩

theorem Due.ends_mem (h : r.Due γ ind l) :
    l.origin = .params ∧ ∃ b ∈ ind.main, ∃ c ∈ ind.main, l.source.action = b.id ∧ l.target.action = c.id := by
  obtain ⟨b, hb, c, hc, hne, hfinds, -⟩ := h
  obtain ⟨hsource, htarget⟩ := ends_of_finds hne hfinds
  exact ⟨(leads_of_finds hne hfinds).1, b, hb, c, hc, hsource, htarget⟩

omit [Nonempty γ] in
theorem Due.allows (h : r.Due γ ind l) : ind.allows l = true := by
  obtain ⟨b, hb, c, hc, hne, hfinds, hallows⟩ := h
  exact hallows

section Changes

variable (hr : r.IsDefinite) (hind : ind.Coherent)
  (htrees : ∀ a ∈ ind.main, ∀ p ∈ a.params, p.gene.WellFormed)
  (hdue : ∀ l, l.origin = .params → (l ∈ ind.links ↔ r.Due γ ind l))

include hind hdue in
theorem due_insertMain_iff (l : Link) (hl : l.origin = .params) :
    (l ∈ (ind.insertMain i a).2.links ∨
      (r.Due γ (ind.insertMain i a).2 l ∧ l.involves ⟨ind.nextId⟩ = true)) ↔
      r.Due γ (ind.insertMain i a).2 l := by
  have hsub := ind.mainIds_sublist_insertMain i a
  have hids : ind.ids.Sublist (ind.insertMain i a).2.ids := by
    rw [Individual.ids_eq, Individual.ids_eq]
    exact (List.Sublist.refl _).append hsub
  have hcoherent := (Individual.evolves_insertMain ind i a).coherent hind
  constructor
  · rintro (hold | ⟨hnew, -⟩)
    · refine ((hdue l hl).mp (List.mem_of_mem_filter hold)).mono (fun b hb _ => ?_)
        (hcoherent.allows hold)
      exact (ind.mem_main_insertMain i a b).mpr (.inr hb)
    · exact hnew
  · intro hnew
    -- a link that does not involve the new action was due before
    by_cases hinvolves : l.involves ⟨ind.nextId⟩ = true
    · exact .inr ⟨hnew, hinvolves⟩
    · have hmain : ∀ b ∈ (ind.insertMain i a).2.main, l.involves b.id = true → b ∈ ind.main := by
        intro b hb hb'
        refine ((ind.mem_main_insertMain i a b).mp hb).resolve_left ?_
        rintro rfl
        exact hinvolves hb'
      obtain ⟨-, b, hb, c, hc, hsource, htarget⟩ := hnew.ends_mem
      have hbmain := hmain b hb (by simp [Link.involves, hsource])
      have hcmain := hmain c hc (by simp [Link.involves, htarget])
      have hmem : ∀ d ∈ ind.main, d.id ∈ ind.ids := fun d hd => by
        rw [Individual.ids_eq]
        exact List.mem_append_right _ (List.mem_map_of_mem hd)
      have hinit : ind.initIds.Sublist (ind.insertMain i a).2.initIds := .refl _
      have hallows : ind.allows l = true :=
        Individual.allows_of_fewer hinit hsub hcoherent (hsource ▸ hmem b hbmain)
          (htarget ▸ hmem c hcmain) hnew.allows
      refine .inl (List.mem_filter.mpr ⟨(hdue l hl).mpr (hnew.mono hmain hallows), ?_⟩)
      exact hnew.allows

include hind hdue in
theorem due_removeMain_iff (h : ind.removeMain i = some (a, u)) (l : Link) (hl : l.origin = .params) :
    l ∈ u.links ↔ r.Due γ u l := by
  obtain ⟨hinit, hsub, hlinks⟩ := Individual.parts_of_removeMain h
  obtain ⟨-, hmem⟩ := Individual.mem_main_removeMain hind.ids_distinct h
  have hcoherent := (Individual.evolves_removeMain h).coherent hind
  constructor
  · intro hkept
    have hallows := hcoherent.allows hkept
    rw [hlinks, List.mem_filter, Bool.not_eq_true'] at hkept
    refine ((hdue l hl).mp hkept.1).mono (fun b hb hinvolves => (hmem b).mpr ⟨hb, ?_⟩) hallows
    rintro heq
    rw [heq, hkept.2] at hinvolves
    cases hinvolves
  · intro hnew
    have hinitIds : u.initIds = ind.initIds := congrArg (List.map Action.id) hinit
    have hids : u.ids.Sublist ind.ids := by
      rw [Individual.ids_eq, Individual.ids_eq, hinitIds]
      exact (List.Sublist.refl _).append hsub
    have hallows := Individual.allows_of_more hids hind.ids_distinct (hinitIds ▸ List.Subset.refl _)
      hnew.allows
    have hold := hnew.mono (fun b hb _ => ((hmem b).mp hb).1) hallows
    obtain ⟨-, b, hb, c, hc, hsource, htarget⟩ := hnew.ends_mem
    have hfree : l.involves a.id = false := by
      simp [Link.involves, hsource, htarget, ((hmem b).mp hb).2, ((hmem c).mp hc).2]
    rw [hlinks]
    exact List.mem_filter.mpr ⟨(hdue l hl).mpr hold, by rw [hfree]; rfl⟩

include hdue in
theorem due_swapMain_iff {b : Action} (hperm : u.main.Perm ind.main)
    (hlinks : u.links = ind.links.filter u.allows)
    (hrest : ∀ l, l.involves a.id = false → l.involves b.id = false → u.allows l = ind.allows l)
    (l : Link) (hl : l.origin = .params) :
    ((l ∈ u.links ∨ (r.Due γ u l ∧ l.involves a.id = true)) ∨ (r.Due γ u l ∧ l.involves b.id = true)) ↔
      r.Due γ u l := by
  constructor
  · rintro ((hold | ⟨hnew, -⟩) | ⟨hnew, -⟩)
    · rw [hlinks, List.mem_filter] at hold
      exact ((hdue l hl).mp hold.1).mono (fun c hc _ => hperm.mem_iff.mpr hc) hold.2
    · exact hnew
    · exact hnew
  · intro hnew
    by_cases ha : l.involves a.id = true
    · exact .inl (.inr ⟨hnew, ha⟩)
    · by_cases hb : l.involves b.id = true
      · exact .inr ⟨hnew, hb⟩
      · rw [Bool.not_eq_true] at ha hb
        have hallows : ind.allows l = true := (hrest l ha hb).symm.trans hnew.allows
        have hold := hnew.mono (fun c hc _ => hperm.mem_iff.mp hc) hallows
        rw [hlinks, List.mem_filter]
        exact .inl (.inl ⟨(hdue l hl).mpr hold, hnew.allows⟩)

include hr hind htrees hdue in
/-- A new main action gets its links. -/
theorem upToDate_of_insertMain (ha : ∀ p ∈ a.params, p.gene.WellFormed) (i : Nat) (g₁ : γ) :
    ∃ n v, Linking.Ends (r.relink (ind.insertMain i a).1 : Linking γ Nat) (ind.insertMain i a).2 n v ∧
      r.UpToDate v g₁ := by
  have hcoherent := (Individual.evolves_insertMain ind i a).coherent hind
  have htrees' : ∀ b ∈ (ind.insertMain i a).2.main, ∀ p ∈ b.params, p.gene.WellFormed := by
    intro b hb
    rcases (ind.mem_main_insertMain i a b).mp hb with rfl | hold
    · exact ha
    · exact htrees b hold
  have hnew := (ind.mem_main_insertMain i a { a with id := ⟨ind.nextId⟩ }).mpr (.inl rfl)
  obtain ⟨n, v, hrun, hv, hlinks⟩ := exists_relink (γ := γ) hr hcoherent.ids_distinct htrees' hnew
  refine ⟨n, v, hrun, ?_⟩
  have hsame : ∀ l, r.Due γ v l ↔ r.Due γ (ind.insertMain i a).2 l := fun l => by rw [hv]; rfl
  have hids : v.ids.Nodup := by rw [hv]; exact hcoherent.ids_distinct
  have hmain : ∀ b ∈ v.main, ∀ p ∈ b.params, p.gene.WellFormed := by rw [hv]; exact htrees'
  rw [upToDate_iff hr hids hmain]
  intro l hl
  rw [hlinks, hsame]
  exact due_insertMain_iff hind hdue l hl

include hr hind htrees hdue in
theorem upToDate_of_removeMain (i : Nat) (g₁ : γ) :
    r.UpToDate (((ind.removeMain i).map Prod.snd).getD ind) g₁ := by
  cases h : ind.removeMain i with
  | none => exact (upToDate_iff hr hind.ids_distinct htrees g₁).mpr hdue
  | some removed =>
    obtain ⟨a, u⟩ := removed
    have hcoherent := (Individual.evolves_removeMain h).coherent hind
    obtain ⟨-, hmem⟩ := Individual.mem_main_removeMain hind.ids_distinct h
    refine (upToDate_iff hr hcoherent.ids_distinct (fun b hb => htrees b ((hmem b).mp hb).1) g₁).mpr ?_
    exact due_removeMain_iff hind hdue h

include hr hind htrees hdue in
/-- Two actions that have changed places get their links. -/
theorem upToDate_of_swapMain {x y : Action} (hx : ind.main[i]? = some x) (hy : ind.main[j]? = some y)
    (g₁ : γ) :
    ∃ u, ind.swapMain i j = .ok u ∧ u.main[i]? = some y ∧ u.main[j]? = some x ∧
      ∃ n v m w, Linking.Ends (r.relink y.id : Linking γ Nat) u n v ∧
        Linking.Ends (r.relink x.id : Linking γ Nat) v m w ∧ r.UpToDate w g₁ := by
  obtain ⟨u, hswap, hi, hj, hperm, hkept, hrest⟩ := Individual.parts_of_swapMain hx hy
  have hcoherent := (Individual.evolves_swapMain hswap).coherent hind
  have htrees' : ∀ b ∈ u.main, ∀ p ∈ b.params, p.gene.WellFormed := fun b hb =>
    htrees b (hperm.mem_iff.mp hb)
  refine ⟨u, hswap, hi, hj, ?_⟩
  obtain ⟨n, v, hrun, hv, hlinks⟩ :=
    exists_relink (γ := γ) hr hcoherent.ids_distinct htrees' (List.mem_of_getElem? hi)
  have hids : v.ids.Nodup := by rw [hv]; exact hcoherent.ids_distinct
  have hmain : ∀ b ∈ v.main, ∀ p ∈ b.params, p.gene.WellFormed := by rw [hv]; exact htrees'
  have hxmem : x ∈ v.main := by rw [hv]; exact List.mem_of_getElem? hj
  obtain ⟨m, w, hrun', hw, hlinks'⟩ := exists_relink (γ := γ) hr hids hmain hxmem
  refine ⟨n, v, m, w, hrun, hrun', ?_⟩
  have hsame : ∀ l, r.Due γ v l ↔ r.Due γ u l := fun l => by rw [hv]; rfl
  have hsame' : ∀ l, r.Due γ w l ↔ r.Due γ v l := fun l => by rw [hw]; rfl
  have hids' : w.ids.Nodup := by rw [hw]; exact hids
  have hmain' : ∀ b ∈ w.main, ∀ p ∈ b.params, p.gene.WellFormed := by rw [hw]; exact hmain
  rw [upToDate_iff hr hids' hmain']
  intro l hl
  have hrest' : ∀ l, l.involves y.id = false → l.involves x.id = false → u.allows l = ind.allows l :=
    fun l hly hlx => hrest l hlx hly
  rw [hlinks', hlinks, hsame', hsame]
  exact due_swapMain_iff hdue hperm hkept hrest' l hl

end Changes

omit [Nonempty γ] in
/-- Linking anew what was inserted or swapped gives the links that linking all actions gives; nothing
has to be linked anew for what was removed. -/
theorem upToDate_of_change (r : Linker) (ind : Individual) (g₀ g g₁ : γ) (hr : r.IsDefinite)
    (hind : ind.Coherent) (htrees : ∀ a ∈ ind.main, ∀ p ∈ a.params, p.gene.WellFormed)
    (hlinks : r.UpToDate ind g₀) :
    (∀ i a, (∀ p ∈ a.params, p.gene.WellFormed) → ∃ n v g',
      (r.relink (ind.insertMain i a).1).run.run (ind.insertMain i a).2 g = .ok ((.ok n, v), g') ∧
      r.UpToDate v g₁) ∧
    (∀ i, r.UpToDate (((ind.removeMain i).map Prod.snd).getD ind) g₁) ∧
    ∀ i j x y, ind.main[i]? = some x → ind.main[j]? = some y → ∃ u n v g' m w g'',
      ind.swapMain i j = .ok u ∧ u.main[i]? = some y ∧ u.main[j]? = some x ∧
      (r.relink y.id).run.run u g = .ok ((.ok n, v), g') ∧
      (r.relink x.id).run.run v g' = .ok ((.ok m, w), g'') ∧ r.UpToDate w g₁ := by
  have : Nonempty γ := ⟨g⟩
  have hdue := (upToDate_iff hr hind.ids_distinct htrees g₀).mp hlinks
  refine ⟨fun i a ha => ?_, fun i => upToDate_of_removeMain hr hind htrees hdue i g₁, ?_⟩
  · obtain ⟨n, v, hrun, hv⟩ := upToDate_of_insertMain hr hind htrees hdue ha i g₁
    obtain ⟨g', hg'⟩ := hrun g
    exact ⟨n, v, g', hg', hv⟩
  · intro i j x y hx hy
    obtain ⟨u, hswap, hi, hj, n, v, m, w, hrun, hrun', hw⟩ :=
      upToDate_of_swapMain hr hind htrees hdue hx hy g₁
    obtain ⟨g', hg'⟩ := hrun g
    obtain ⟨g'', hg''⟩ := hrun' g'
    exact ⟨u, n, v, g', m, w, g'', hswap, hi, hj, hg', hg'', hw⟩

/-- A fourth call is put between three that are linked, or one of them goes, or two change places. -/
theorem upToDate_of_change_of_calls :
    let r : Linker := { config := { inactiveOptionalProbability := 0 } }
    let call (id : Nat) (value : Int32) : Action :=
      ⟨⟨id⟩, "call", .rpc "service" "method", [⟨"id", .path, leaf "id" (.integer value 0 9)⟩], true⟩
    let link (a b : Nat) : Link := ⟨⟨⟨a⟩, 0, ⟨0⟩⟩, ⟨⟨b⟩, 0, ⟨0⟩⟩, .params⟩
    let ind := { Individual.new .random 0 with
      main := [call 1 7, call 2 0, call 3 8], links := [link 1 2, link 1 3, link 2 3], nextId := 4 }
    let start : WordSource := ⟨[], 1⟩
    r.UpToDate ind start ∧
      (∃ n v s, (r.relink ⟨4⟩).run.run (ind.insertMain 1 (call 0 5)).2 start = .ok ((.ok n, v), s) ∧
        r.UpToDate v start) ∧
      r.UpToDate (((ind.removeMain 1).map Prod.snd).getD ind) start ∧
      ∃ u n v s m w s', ind.swapMain 0 2 = .ok u ∧ u.main[0]? = some (call 3 8) ∧
        u.main[2]? = some (call 1 7) ∧ (r.relink ⟨3⟩).run.run u start = .ok ((.ok n, v), s) ∧
        (r.relink ⟨1⟩).run.run v s = .ok ((.ok m, w), s') ∧ r.UpToDate w start := by
  intro r call link ind start
  have hr : r.IsDefinite := .inl (by decide +kernel)
  have hind : ind.Coherent :=
    Individual.coherent_of_allows (by decide) (by decide) (by decide) (by decide)
  have htrees : ∀ a ∈ ind.main, ∀ p ∈ a.params, p.gene.WellFormed := by
    simp [ind, call]
    exact ⟨wellFormed_leaf _ rfl, wellFormed_leaf _ rfl, wellFormed_leaf _ rfl⟩
  have hlinks : r.UpToDate ind start := ⟨3, ind, start, rfl, fun _ _ => Iff.rfl⟩
  obtain ⟨hinsert, hremove, hswap⟩ := upToDate_of_change r ind start start start hr hind htrees hlinks
  have hcall : ∀ p ∈ (call 0 5).params, p.gene.WellFormed := by
    simp [call]
    exact wellFormed_leaf _ rfl
  exact ⟨hlinks, hinsert 1 (call 0 5) hcall, hremove 1, hswap 0 2 (call 1 7) (call 3 8) rfl rfl⟩

end Linker
end CallEvolution
