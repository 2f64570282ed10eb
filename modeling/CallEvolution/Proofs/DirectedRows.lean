import CallEvolution.Proofs.Construction
import CallEvolution.Proofs.Directives
import CallEvolution.Proofs.Registration
import CallEvolution.Proofs.Settling
import CallEvolution.Random.Words
import Mathlib.Data.List.ReduceOption

/-! Directives that join rows to a main action. Each makes at most one link, and those that are new are added
in the order of the directives. If a directive names an unknown table, nothing is added at all. -/

namespace CallEvolution

open GeneTerm GeneTree Matching

namespace Individual

variable {ind : Individual} {a : Action} {b : GeneAddress} {l : Link}

theorem checkAddress_of_carries (h : ind.Carries b) : ind.checkAddress b = .ok () := by
  obtain ⟨v, ⟨t, ht, hv⟩, hmem⟩ := h
  obtain ⟨n, -, hn⟩ := hv.holds.get?_of_mem (mem_ids_of_mem_fixed hmem)
  rw [checkAddress, ht]
  simp only [bind, Except.bind, node_of_get? hn]
  rfl

theorem addLink_of_admits (hs : ind.checkAddress l.source = .ok ()) (ht : ind.checkAddress l.target = .ok ())
    (hadmits : ind.admits l = true) :
    ind.addLink l = if l ∈ ind.links then .ok (false, ind)
      else .ok (true, { ind with links := ind.links ++ [l] }) := by
  rw [admits, Bool.and_eq_true, decide_eq_true_eq] at hadmits
  by_cases hl : l ∈ ind.links
  · simp [addLink, hs, ht, hl, bind, Except.bind, pure, Except.pure]
  · simp [addLink, hs, ht, hl, hadmits, bind, Except.bind, pure, Except.pure]

end Individual

/-- Links that may all be registered are added in order, each at the first place where it stands. -/
theorem Revision.yields_addLinks_of_admits {γ : Type} {ind : Individual} {ls : List Link}
    (h : ∀ l ∈ ls, ind.checkAddress l.source = .ok () ∧ ind.checkAddress l.target = .ok () ∧
      ind.admits l = true) :
    Yields (addLinks ls : Revision γ Nat) ind (.ok (ls.filter fun l => l ∉ ind.links).eraseDups.length)
      { ind with links := ind.links ++ (ls.filter fun l => l ∉ ind.links).eraseDups } := by
  induction ls generalizing ind with
  | nil =>
    rw [List.filter_nil, List.eraseDups_nil, List.append_nil]
    exact yields_pure 0 ind
  | cons l ls ih =>
    obtain ⟨⟨hs, ht, hadmits⟩, hrest⟩ := List.forall_mem_cons.mp h
    have hadd := Individual.addLink_of_admits hs ht hadmits
    by_cases hl : l ∈ ind.links
    · rw [if_pos hl] at hadd
      rw [List.filter_cons_of_neg (by simpa using hl)]
      simpa using yields_addLinks_cons hadd (ih hrest)
    · rw [if_neg hl] at hadd
      rw [List.filter_cons_of_pos (by simpa using hl), List.eraseDups_cons]
      -- what is left to add is what is not there now, and not the link itself
      have hlater : (ls.filter fun k => k ∉ ind.links).filter (fun k => !k == l) =
          ls.filter fun k => k ∉ ind.links ++ [l] := by
        rw [List.filter_filter]
        apply List.filter_congr
        intro k _
        by_cases hk : k = l <;> simp [hk]
      have hadded := yields_addLinks_cons hadd (ih hrest)
      rw [hlater, List.length_cons, Nat.add_comm]
      simpa using hadded

namespace Linker

variable {γ : Type} {r : Linker} {ind : Individual} {a : Action} {d : DbDirective} {ds : List DbDirective}
  {tables : List String}

theorem exists_directedLinks (htrees : ∀ b ∈ ind.actions, ∀ p ∈ b.params, p.gene.WellFormed)
    (ha : a ∈ ind.actions) (hknown : ∀ d ∈ ds, r.knowsTable d.table = true) :
    ∃ found, List.Forall₂ (fun d o => ∀ l, o = some l ↔ d.Resolves ind a l) ds found ∧
      r.directedLinks ind a ds = .ok found.reduceOption := by
  induction ds with
  | nil => exact ⟨[], .nil, rfl⟩
  | cons d ds ih =>
    obtain ⟨hd, hrest⟩ := List.forall_mem_cons.mp hknown
    obtain ⟨link, hlink, hresolves⟩ := reads_linkOfDirective? (d := d) htrees ha
    obtain ⟨found, hall, hlinks⟩ := ih hrest
    refine ⟨link :: found, .cons hresolves hall, ?_⟩
    rw [directedLinks, hd, hlink, hlinks]
    cases link <;> rfl

theorem directedLinks_unknown (htrees : ∀ b ∈ ind.actions, ∀ p ∈ b.params, p.gene.WellFormed)
    (ha : a ∈ ind.actions) {pre post : List DbDirective} (hpre : ∀ e ∈ pre, r.knowsTable e.table = true)
    (hd : r.knowsTable d.table = false) :
    r.directedLinks ind a (pre ++ d :: post) = .error (.unknownTable d.table) := by
  induction pre with
  | nil =>
    rw [List.nil_append, directedLinks, hd]
    rfl
  | cons e pre ih =>
    obtain ⟨he, hrest⟩ := List.forall_mem_cons.mp hpre
    obtain ⟨link, hlink, -⟩ := reads_linkOfDirective? (d := e) htrees ha
    rw [List.cons_append, directedLinks, he, hlink, ih hrest]
    rfl

/-- A link of a directive joins genes of the individual, and may always be registered. -/
theorem admits_of_resolves (hids : ind.ids.Nodup)
    (htrees : ∀ b ∈ ind.actions, ∀ p ∈ b.params, p.gene.WellFormed) (ha : a ∈ ind.main) {l : Link}
    (h : d.Resolves ind a l) : ind.checkAddress l.source = .ok () ∧ ind.checkAddress l.target = .ok () ∧
      ind.admits l = true := by
  have hactions : a ∈ ind.actions := List.mem_append_right _ ha
  obtain ⟨found, hfound, hresolves⟩ := reads_linkOfDirective? (d := d) htrees hactions
  obtain rfl := (hresolves l).mpr h
  obtain ⟨row, hrow, hdirects⟩ := directs_of_linkOfDirective? hfound
  obtain ⟨hsource, htarget⟩ :=
    Individual.carries_of_directs hids htrees (List.mem_append_left _ hrow) hactions hdirects
  refine ⟨Individual.checkAddress_of_carries hsource, Individual.checkAddress_of_carries htarget, ?_⟩
  have hinit : row.id ∈ ind.initIds := List.mem_map_of_mem hrow
  have hmain : a.id ∈ ind.mainIds := List.mem_map_of_mem ha
  have hdiffer : row.id ≠ a.id := by
    rw [Individual.ids_eq, List.nodup_append] at hids
    exact hids.2.2 _ hinit _ hmain
  -- one end of the link is in the row, the other one in the action
  obtain ⟨horigin, v, hv, w, hw, hends⟩ := hdirects
  have hvrow := ParamSite.action_of_mem hv
  have hwa := ParamSite.action_of_mem hw
  have hactionsAt : l.source.action = row.id ∧ l.target.action = a.id ∨
      l.source.action = a.id ∧ l.target.action = row.id := by
    rcases hends with ⟨hs, ht⟩ | ⟨-, hs, ht, -⟩
    · exact .inl ⟨by rw [hs, ← hvrow]; rfl, ht.1.1.trans hwa⟩
    · exact .inr ⟨hs.1.1.trans hwa, by rw [ht, ← hvrow]; rfl⟩
  have hne : l.source ≠ l.target := by
    intro heq
    rw [heq] at hactionsAt
    rcases hactionsAt with ⟨hs, ht⟩ | ⟨hs, ht⟩
    · exact hdiffer (hs.symm.trans ht)
    · exact hdiffer (ht.symm.trans hs)
  have hallows : ind.allows l = true := by
    rw [Individual.allows_iff, Individual.ids_eq, horigin]
    rcases hactionsAt with ⟨hs, ht⟩ | ⟨hs, ht⟩ <;> simp [hs, ht, hinit, hmain]
  simp [Individual.admits, hne, hallows]

theorem linkRows_run (hids : ind.ids.Nodup) (ha : a ∈ ind.actions) (g : γ) :
    (r.linkRows a.id ds : Linking γ Nat).run.run ind g =
      ((ExceptT.mk (return r.directedLinks ind a ds) : Linking γ (List Link)) >>= fun links =>
        Linking.revise (Revision.addLinks links)).run.run ind g := by
  have haction := Individual.action?_of_mem hids ha
  have hget (f : Individual → Linking γ Nat) : (get >>= f).run.run ind g = (f ind).run.run ind g := rfl
  rw [linkRows, hget]
  simp only [haction]

/-- Linking rows to a main action changes nothing if a directive names an unknown table, and reports the first
such directive. Otherwise it adds the links of the directives that resolve: each once, in the order of the
directives, and only those that are not there yet. -/
theorem linkRows_exact (ds : List DbDirective) (hids : ind.ids.Nodup)
    (htrees : ∀ b ∈ ind.actions, ∀ p ∈ b.params, p.gene.WellFormed) (ha : a ∈ ind.main) :
    (∀ tables pre d post, r.knownTables = some tables → ds = pre ++ d :: post →
      (∀ e ∈ pre, e.table ∈ tables) → d.table ∉ tables →
      ∀ g, (r.linkRows a.id ds : Linking γ Nat).run.run ind g =
        .ok ((.error (.unknownTable d.table), ind), g)) ∧
    ((∀ tables, r.knownTables = some tables → ∀ e ∈ ds, e.table ∈ tables) →
      ∃ found added, List.Forall₂ (fun e o => ∀ l, o = some l ↔ e.Resolves ind a l) ds found ∧
        added = (found.reduceOption.filter fun l => l ∉ ind.links).eraseDups ∧
        ∀ g, (r.linkRows a.id ds : Linking γ Nat).run.run ind g =
          .ok ((.ok added.length, { ind with links := ind.links ++ added }), g)) := by
  have hactions : a ∈ ind.actions := List.mem_append_right _ ha
  have haction := Individual.action?_of_mem hids hactions
  constructor
  · intro tables pre d post hknown hds hpre hd g
    have hlinks : r.directedLinks ind a ds = .error (.unknownTable d.table) := by
      rw [hds]
      apply directedLinks_unknown htrees hactions
      · intro e he
        simpa [knowsTable, hknown] using hpre e he
      · simpa [knowsTable, hknown] using hd
    rw [linkRows_run hids hactions, hlinks]
    rfl
  · intro hknown
    have hknows : ∀ e ∈ ds, r.knowsTable e.table = true := by
      intro e he
      cases htables : r.knownTables with
      | none => simp [knowsTable, htables]
      | some tables => simpa [knowsTable, htables] using hknown tables htables e he
    obtain ⟨found, hall, hlinks⟩ := exists_directedLinks htrees hactions hknows
    refine ⟨found, _, hall, rfl, fun g => ?_⟩
    have hadmits : ∀ l ∈ found.reduceOption, ind.checkAddress l.source = .ok () ∧
        ind.checkAddress l.target = .ok () ∧ ind.admits l = true := by
      intro l hl
      rw [List.reduceOption_mem_iff] at hl
      obtain ⟨e, -, hresolves⟩ := exists_of_forall₂ (List.Forall₂.flip hall) hl
      exact admits_of_resolves hids htrees ha ((hresolves l).mp rfl)
    rw [linkRows_run hids hactions, hlinks]
    have hadd := Revision.yields_addLinks_of_admits (γ := γ) hadmits g
    change ((Revision.addLinks found.reduceOption : Revision γ Nat).run.run ind g >>= fun x =>
      Except.ok ((x.1.1.mapError LinkError.action, x.1.2), x.2)) = _
    rw [hadd]
    rfl

/-- A call that takes the number of a user. A table of ghosts is unknown, and users have no names. -/
theorem linkRows_exact_of_user :
    let row := Action.db "users" [⟨"id", .dbColumn, .primaryKey "id" "users" (.longIn "id" 7 99) 1⟩]
    let call := Action.http .get "/users/\x7bid\x7d" [⟨"id", .path, .longIn "id" 0 99⟩]
    let ind := (((Individual.new .seeded 0).addInit row).2.addMain call).2
    let r : Linker := { knownTables := some ["users"] }
    let d : DbDirective := { table := "users", column := "id", param := "id" }
    let link : Link := ⟨⟨⟨1⟩, 0, ⟨0⟩⟩, ⟨⟨2⟩, 0, ⟨0⟩⟩, .database⟩
    (∀ g : WordSource, (r.linkRows ⟨2⟩ [d, { d with table := "ghosts" }] : Linking WordSource Nat).run.run
      ind g = .ok ((.error (.unknownTable "ghosts"), ind), g)) ∧
    ∀ g : WordSource, (r.linkRows ⟨2⟩ [d, { d with column := "name" }, d] : Linking WordSource Nat).run.run
      ind g = .ok ((.ok 1, { ind with links := [link] }), g) := by
  intro row call ind r d link
  have hids : ind.ids.Nodup := by decide +kernel
  have htrees : ∀ b ∈ ind.actions, ∀ p ∈ b.params, p.gene.WellFormed := by
    have hkey : Built (.primaryKey "id" "users" (.longIn "id" 7 99) 1) :=
      .primaryKey "id" "users" 1 (.longIn "id" 7 99)
    have hnumber : Built (.longIn "id" 0 99) := .longIn "id" 0 99
    simp [ind, Individual.actions, Individual.addInit, Individual.addMain, Individual.freshId,
      Individual.new, row, call, Action.db, Action.http, Action.template, hkey.wellFormed,
      hnumber.wellFormed]
  have hmain : ∃ a ∈ ind.main, a.id = ⟨2⟩ := by decide +kernel
  have hlinks : ind.links = [] := rfl
  have hrun : ((r.linkRows ⟨2⟩ [d, { d with column := "name" }, d] : Linking WordSource Nat).run.run
      ind ⟨[], 1⟩).map (fun x => x.1.2.links) = .ok [link] := by decide +kernel
  clear_value ind
  obtain ⟨a, ha, hid⟩ := hmain
  have hunknown := (linkRows_exact (γ := WordSource) (r := r) [d, { d with table := "ghosts" }] hids
    htrees ha).1 ["users"] [d] { d with table := "ghosts" } [] rfl rfl (by simp [d]) (by simp)
  obtain ⟨found, added, -, -, hadded⟩ := (linkRows_exact (γ := WordSource) (r := r)
    [d, { d with column := "name" }, d] hids htrees ha).2 (by simp [r, d])
  rw [hid] at hunknown hadded
  have hone : added = [link] := by
    rw [hadded] at hrun
    simpa [hlinks, Except.map] using hrun
  refine ⟨hunknown, fun g => ?_⟩
  rw [hadded g, hone, hlinks]
  rfl

end Linker
end CallEvolution
