import CallEvolution.Proofs.ExistingRows
import CallEvolution.Proofs.LinkRuns

/-! Runs of linkers, passes and mutations. If links come from linkers that have got main actions to link
rows to, no run writes to a row that stands for existing data. -/

namespace CallEvolution

open Individual

variable {γ : Type} {ind u : Individual} {rows : List ActionId} {call : IndividualCall}

namespace Individual

/-- What makes no link keeps from rows that exist, if such rows are old ones, or rows with new ids. -/
theorem SparesExisting.of_rows (h : ind.SparesExisting) (hevolves : Evolves ind u)
    (hrows : ∀ b ∈ u.init, b.isExisting = true →
      (∃ a ∈ ind.init, b.id = a.id ∧ b.kind = a.kind) ∨ b.id.number = ind.nextId)
    (hlinks : ∀ l ∈ u.links, l ∈ ind.links) : u.SparesExisting := by
  refine ⟨hevolves.coherent h.coherent, fun l hl b hb hold he => ?_⟩
  have hl := hlinks l hl
  rcases hrows b hb hold with ⟨a, ha, hid, hkind⟩ | hnew
  · have hold' : a.isExisting = true := by
      rw [← hold, Action.isExisting, Action.isExisting, hkind]
    exact h.spares l hl a ha hold' (hid ▸ he)
  · have hused := h.coherent.ids_used _ (h.coherent.ends_present l hl).2
    rw [← he] at hused
    omega

end Individual

namespace IndividualCall

/-- Is an operation no link by hand, nor one that links rows to a row? -/
def UsesLinkers (rows : List ActionId) : IndividualCall → Prop
  | addLink _ => False
  | linkRows _ id _ => id ∉ rows
  | _ => True

/-- Does an operation, moreover, neither add nor repair rows? -/
def LeavesRows (rows : List ActionId) : IndividualCall → Prop
  | addInit _ | repair => False
  | call => call.UsesLinkers rows

theorem keepsExisting_of_left {ε : Type} {x : ExceptT ε (StateT Individual (Draw γ)) Nat}
    (hx : Ensures x ind fun _ u => KeepsExisting ind u)
    (h : Gives (do let (_, left) ← x.run.run ind; return left) u) : KeepsExisting ind u := by
  obtain ⟨⟨r, v⟩, hv, h⟩ := Draw.gives_of_bind h
  rw [Draw.eq_of_gives_pure h]
  exact hx.2 r v hv

variable [RandomSource γ]

theorem keepsExisting_of_leave (hcall : call.LeavesRows ind.initIds)
    (h : Gives (call.leave ind : Draw γ Individual) u) : KeepsExisting ind u := by
  have hevolves := evolves_of_leave h
  cases call with
  | addInit | repair | addLink => exact hcall.elim
  | addMain a =>
    rw [Draw.eq_of_gives_pure h] at hevolves ⊢
    exact .of_links hevolves rfl fun _ hl => hl
  | insertMain index a =>
    rw [Draw.eq_of_gives_pure h]
    exact keepsExisting_insertMain ind index a
  | removeMain index =>
    rw [Draw.eq_of_gives_pure h]
    cases hremoved : ind.removeMain index with
    | none => exact .refl ind
    | some r => exact keepsExisting_removeMain hremoved
  | swapMain a b =>
    rw [Draw.eq_of_gives_pure h]
    cases hswapped : ind.swapMain a b with
    | error e => exact .refl ind
    | ok v => exact keepsExisting_swapMain hswapped
  | detach id =>
    rw [Draw.eq_of_gives_pure h] at hevolves ⊢
    exact .of_links hevolves rfl fun _ hl => List.mem_of_mem_filter hl
  | withoutLinks =>
    rw [Draw.eq_of_gives_pure h] at hevolves ⊢
    exact .of_links hevolves rfl fun _ hl => absurd hl List.not_mem_nil
  | sync => exact keepsExisting_of_left Revision.ensures_sync_keepsExisting h
  | linkAll r => exact keepsExisting_of_left Linker.ensures_linkAll_keepsExisting h
  | relink r id => exact keepsExisting_of_left Linker.ensures_relink_keepsExisting h
  | linkRows r id directives =>
    exact keepsExisting_of_left (Linker.ensures_linkRows_keepsExisting hcall) h
  | mutate m s impacts identity =>
    obtain ⟨r, hr, h⟩ := Draw.gives_of_bind h
    cases r with
    | ok mutant =>
      rw [Draw.eq_of_gives_pure h]
      exact Mutator.keepsExisting_mutate hr
    | error e =>
      rw [Draw.eq_of_gives_pure h]
      exact .refl ind

theorem keepsExisting_of_leaveAll {calls : List IndividualCall}
    (hcalls : ∀ call ∈ calls, call.LeavesRows ind.initIds)
    (h : Gives (leaveAll calls ind : Draw γ Individual) u) : KeepsExisting ind u := by
  induction calls generalizing ind with
  | nil =>
    rw [Draw.eq_of_gives_pure h]
    exact .refl ind
  | cons call calls ih =>
    rw [leaveAll, List.foldlM_cons] at h
    obtain ⟨v, hv, h⟩ := Draw.gives_of_bind h
    obtain ⟨hcall, hcalls⟩ := List.forall_mem_cons.mp hcalls
    intro hind
    -- the rows keep their ids, so the later operations are told the same of them
    obtain ⟨hrows, hspares⟩ := keepsExisting_of_leave hcall hv hind
    have hids : v.initIds = ind.initIds := hrows.map_id
    obtain ⟨hrows', hlast⟩ := ih (hids ▸ hcalls) h hspares
    exact ⟨hrows.trans hrows', hlast⟩

/-- No operation lets a link lead to a row that exists, be it an old row or one that is added. -/
theorem sparesExisting_of_leave (hind : ind.SparesExisting) (hcall : call.UsesLinkers ind.initIds)
    (h : Gives (call.leave ind : Draw γ Individual) u) : u.SparesExisting := by
  have hevolves := evolves_of_leave h
  cases call with
  | addLink l => exact hcall.elim
  | addInit a =>
    rw [Draw.eq_of_gives_pure h] at hevolves ⊢
    refine hind.of_rows hevolves (fun b hb _ => ?_) fun _ hl => hl
    rcases List.mem_append.mp hb with hb | hb
    · exact .inl ⟨b, hb, rfl, rfl⟩
    · rw [List.mem_singleton.mp hb]
      exact .inr rfl
  | repair =>
    obtain ⟨⟨changed, v⟩, hv, h⟩ := Draw.gives_of_bind h
    rw [Draw.eq_of_gives_pure h] at hevolves ⊢
    obtain ⟨left, removed, c, hleft, rfl, -, -, hlinks⟩ := parts_of_repair hv
    refine hind.of_rows hevolves (fun b hb _ => .inl ?_) fun l hl => ?_
    · exact kinds_of_repairFrom hleft b hb
    · rw [hlinks] at hl
      exact List.mem_of_mem_filter hl
  | addMain | insertMain | removeMain | swapMain | detach | withoutLinks | sync | linkAll | relink
  | linkRows | mutate =>
    exact (keepsExisting_of_leave (by exact hcall) h hind).2

end IndividualCall

/-- Individuals whose links all come from linkers, which have linked rows to main actions only. In
between, values may have changed in any way. -/
inductive Individual.Linked (γ : Type) [RandomSource γ] : Individual → Prop where
  | unlinked {ind : Individual} (hids : ind.ids.Nodup) (hused : ∀ id ∈ ind.ids, id.number < ind.nextId)
      (hlinks : ind.links = []) : Linked γ ind
  | called {ind u : Individual} (call : IndividualCall) (hind : Linked γ ind)
      (hcall : call.UsesLinkers ind.initIds) (hu : Gives (call.leave ind : Draw γ Individual) u) :
      Linked γ u
  | refilled {ind u : Individual} (hind : Linked γ ind)
      (hinit : u.init.map (fun a => (a.id, a.kind)) = ind.init.map (fun a => (a.id, a.kind)))
      (hmain : u.mainIds = ind.mainIds) (hnext : u.nextId = ind.nextId) (hlinks : u.links = ind.links) :
      Linked γ u

theorem Individual.Linked.sparesExisting [RandomSource γ] (h : ind.Linked γ) : ind.SparesExisting := by
  induction h with
  | unlinked hids hused hlinks =>
    have hno : ∀ {P : Link → Prop}, ∀ l ∈ _, P l := fun {P} => hlinks ▸ List.forall_mem_nil P
    exact ⟨⟨hids, hused, hlinks ▸ List.nodup_nil, hno, hno, hno, hno⟩, hno⟩
  | called call _ hcall hu ih => exact IndividualCall.sparesExisting_of_leave ih hcall hu
  | @refilled ind u _ hinit hmain hnext hlinks ih =>
    have hids : u.initIds = ind.initIds := by
      have hfirst := congrArg (List.map Prod.fst) hinit
      rwa [List.map_map, List.map_map] at hfirst
    have hevolves := Evolves.of_same_ids hids hmain hnext (hlinks ▸ .refl _)
    refine ih.of_rows hevolves (fun b hb _ => .inl ?_) fun l hl => hlinks ▸ hl
    have hmem : (b.id, b.kind) ∈ ind.init.map fun a => (a.id, a.kind) :=
      hinit ▸ List.mem_map_of_mem (f := fun a : Action => (a.id, a.kind)) hb
    obtain ⟨a, ha, he⟩ := List.mem_map.mp hmem
    exact ⟨a, ha, (congrArg Prod.fst he).symm, (congrArg Prod.snd he).symm⟩

namespace IndividualCall

/-- Binding and mutating in a row leave the rows that stand for existing data as they are. -/
theorem existing_rows_kept [RandomSource γ] (ind last : Individual) (calls : List IndividualCall)
    (s s' : γ) (hind : ind.Linked γ) (hcalls : ∀ call ∈ calls, call.LeavesRows ind.initIds)
    (hrun : leaveAll calls ind s = .ok (last, s')) :
    last.initIds = ind.initIds ∧ ∀ a ∈ ind.init, a.isExisting = true → a ∈ last.init := by
  obtain ⟨hrows, -⟩ := keepsExisting_of_leaveAll hcalls ⟨s, s', hrun⟩ hind.sparesExisting
  exact ⟨hrows.map_id, fun a ha hold => hrows.mem ha hold⟩

/-- A call takes its number from a user that exists, and another number of it is mutated. -/
theorem existing_rows_kept_of_user :
    let row := (Action.db "users" [⟨"id", .dbColumn, .primaryKey "id" "users" (.longIn "id" 7 99) 1⟩]).asExisting
    let call := Action.http .get "/users/\x7bid\x7d"
      [⟨"id", .path, .longIn "id" 0 99⟩, ⟨"count", .query, .integerIn "count" 0 9⟩]
    let start := (((Individual.new .seeded 0).addInit row).2.addMain call).2
    let s : Sampler := { settings := {}, catalog := Sampler.catalogOf [call] }
    let calls := [linkAll {}, linkRows {} ⟨2⟩ [{ table := "users", column := "id", param := "id" }],
      sync, mutate ⟨{ structureProbability := 0 }⟩ s none 1]
    let texts (ind : Individual) : List (Option String) := ind.main.flatMap fun a =>
      a.params.map fun p => (p.gene.printable p.gene.root).toOption
    ∃ (last : Individual) (g : WordSource), leaveAll calls start ⟨[], 1⟩ = .ok (last, g) ∧
      texts start = [some "0", some "0"] ∧ texts last = [some "7", some "5"] ∧
      (∃ a ∈ start.init, a.isExisting = true) ∧
      ∀ a ∈ start.init, a.isExisting = true → a ∈ last.init := by
  intro row call start s calls texts
  have hruns : ((leaveAll calls start (⟨[], 1⟩ : WordSource)).toOption.map fun r => texts r.1) =
      some [some "7", some "5"] := by decide +kernel
  obtain ⟨⟨last, g⟩, hlast, htexts⟩ := Option.map_eq_some_iff.mp hruns
  have hrun : leaveAll calls start (⟨[], 1⟩ : WordSource) = .ok (last, g) := by
    cases hcalls : leaveAll calls start (⟨[], 1⟩ : WordSource) with
    | error f =>
      rw [hcalls] at hlast
      cases hlast
    | ok r =>
      rw [hcalls] at hlast
      cases hlast
      rfl
  have hstart : start.Linked WordSource :=
    .unlinked (by decide +kernel) (by decide +kernel) rfl
  have hlinkers : ∀ call ∈ calls, call.LeavesRows start.initIds := by
    have hid : (⟨2⟩ : ActionId) ∉ start.initIds := by decide +kernel
    simpa [calls, LeavesRows, UsesLinkers] using hid
  have hold : ∃ a ∈ start.init, a.isExisting = true := ⟨_, List.mem_singleton_self _, rfl⟩
  have hfirst : texts start = [some "0", some "0"] := by decide +kernel
  clear_value start calls
  have hkept := existing_rows_kept start last calls ⟨[], 1⟩ g hstart hlinkers hrun
  exact ⟨last, g, hrun, hfirst, htexts, hold, hkept.2⟩

end IndividualCall
end CallEvolution
