import CallEvolution.Proofs.KeylessRows
import CallEvolution.Proofs.LinkSteps
import CallEvolution.Proofs.Starvation
import CallEvolution.Random.Words

/-! A repair as a whole. It tells whether there was anything to mend and does no more than that: rows are
left in their order with the keys that were in order, and a row goes only if nothing can be put into one
of its keys. -/

namespace CallEvolution

open Draw

namespace Individual

/-- What becomes of a row that is reached behind others: it is left with the keys that are in order as
they are, or it is gone for a key that may not be null and has no row to point at. -/
inductive RowOutcome (earlier : List Action) (a : Action) : Option Action → Prop
  | left {b : Action} (same : b.keyless = a.keyless)
      (kept : ∀ k ∈ a.keyReferences, isSatisfied earlier k = true → k ∈ b.keyReferences) :
      RowOutcome earlier a (some b)
  | gone {k : KeyReference} (mem : k ∈ a.keyReferences) (required : k.nullable = false)
      (nothing : keysOf earlier k.table = []) : RowOutcome earlier a none

/-- The rows that are left of some, each behind those that are left before it, and the ids of the others. -/
inductive Mended : List Action → List Action → List Action → List ActionId → Prop
  | nil (earlier : List Action) : Mended earlier [] [] []
  | left {earlier rest later : List Action} {removed : List ActionId} {a b : Action}
      (row : RowOutcome earlier a (some b)) (rows : Mended (earlier ++ [b]) rest later removed) :
      Mended earlier (a :: rest) (b :: later) removed
  | gone {earlier rest later : List Action} {removed : List ActionId} {a : Action}
      (row : RowOutcome earlier a none) (rows : Mended earlier rest later removed) :
      Mended earlier (a :: rest) later (a.id :: removed)

variable {earlier rest later rows : List Action} {a b : Action} {k : KeyReference}
  {keys : List KeyReference} {removed : List ActionId} {changed : Bool}

namespace Mended

theorem sublist (h : Mended earlier rest later removed) :
    (later.map Action.keyless).Sublist (rest.map Action.keyless) := by
  induction h with
  | nil => exact .slnil
  | left row _ ih =>
    cases row with
    | left same _ =>
      rw [List.map_cons, List.map_cons, same]
      exact ih.cons_cons _
  | gone _ _ ih => exact ih.cons _

theorem perm_ids (h : Mended earlier rest later removed) :
    (rest.map Action.id).Perm (later.map Action.id ++ removed) := by
  induction h with
  | nil => exact .refl _
  | left row _ ih =>
    cases row with
    | left same _ =>
      have hid := congrArg Action.id same
      rw [List.map_cons, List.map_cons, List.cons_append]
      exact hid ▸ ih.cons _
  | gone _ _ ih => exact (ih.cons _).trans List.perm_middle.symm

theorem outcome {before after : List Action} (h : Mended earlier rest later removed)
    (hrest : rest = before ++ a :: after) :
    ∃ first b last, later = first ++ b.toList ++ last ∧
      (first.map Action.keyless).Sublist (before.map Action.keyless) ∧
      (last.map Action.keyless).Sublist (after.map Action.keyless) ∧ RowOutcome (earlier ++ first) a b := by
  induction h generalizing before with
  | nil => simp at hrest
  | left row rows ih =>
    cases before with
    | nil =>
      obtain ⟨rfl, rfl⟩ := List.cons.inj hrest
      exact ⟨[], some _, _, rfl, .slnil, rows.sublist, by rwa [List.append_nil]⟩
    | cons c before =>
      obtain ⟨rfl, htail⟩ := List.cons.inj hrest
      obtain ⟨first, b, last, rfl, hfirst, hlast, hrow⟩ := ih htail
      refine ⟨_ :: first, b, last, rfl, ?_, hlast, by rwa [List.append_assoc] at hrow⟩
      cases row with
      | left same _ =>
        rw [List.map_cons, List.map_cons, same]
        exact hfirst.cons_cons _
  | gone row rows ih =>
    cases before with
    | nil =>
      obtain ⟨rfl, rfl⟩ := List.cons.inj hrest
      exact ⟨[], none, _, rfl, .slnil, rows.sublist, by rwa [List.append_nil]⟩
    | cons c before =>
      obtain ⟨rfl, htail⟩ := List.cons.inj hrest
      obtain ⟨first, b, last, rfl, hfirst, hlast, hrow⟩ := ih htail
      exact ⟨first, b, last, rfl, hfirst.cons _, hlast, hrow⟩

end Mended

variable {γ : Type} [RandomSource γ] {ind u : Individual}

/-- The keys of a row are mended one by one; what is in order stays, since no two keys share a place. -/
theorem outcome_of_mendKeys {r : Option Action} (hkeys : ∀ k ∈ keys, k ∈ a.keyReferences)
    (hsame : b.keyless = a.keyless)
    (hkept : ∀ k ∈ a.keyReferences, isSatisfied earlier k = true → k ∈ b.keyReferences)
    (h : Gives (mendKeys earlier b keys : Draw γ (Option Action × Bool)) (r, changed)) :
    RowOutcome earlier a r := by
  induction keys generalizing b changed with
  | nil =>
    cases Draw.eq_of_gives_pure h
    exact .left hsame hkept
  | cons k keys ih =>
    obtain ⟨hk, hkeys⟩ := List.forall_mem_cons.mp hkeys
    rcases gives_mendKeys_cons h with ⟨-, h⟩ | ⟨rfl, hnothing, hrequired⟩ | ⟨value, c, -, h, hdangling, -⟩
    · exact ih hkeys hsame hkept h
    · exact .gone hk hrequired hnothing
    · have hplace := (Action.hasPlace_of_mem hk).of_keyless hsame
      refine ih hkeys ((keyless_setKey hplace value).trans hsame) (fun k' hk' hsatisfied => ?_) h
      refine mem_keyReferences_setKey_of_ne (hkept k' hk' hsatisfied) hplace ?_ value
      rintro ⟨hparam, hnode⟩
      rw [Action.eq_of_same_place hk hk' hparam hnode, hdangling] at hsatisfied
      cases hsatisfied

theorem mended_of_repairFrom
    (h : Gives (repairFrom earlier rest : Draw γ (List Action × List ActionId × Bool))
      (rows, removed, changed)) : ∃ later, rows = earlier ++ later ∧ Mended earlier rest later removed := by
  induction rest generalizing earlier removed changed with
  | nil =>
    cases Draw.eq_of_gives_pure h
    exact ⟨[], (List.append_nil _).symm, .nil _⟩
  | cons a rest ih =>
    have hrow : ∀ r c, Gives (mendKeys earlier a a.keyReferences : Draw γ _) (r, c) →
        RowOutcome earlier a r := fun r c h =>
      outcome_of_mendKeys (fun _ hk => hk) rfl (fun _ hk _ => hk) h
    rcases gives_repairFrom_cons h with ⟨b, c, c', hb, h, -⟩ | ⟨c, removed', c', hnone, rfl, h, -⟩
    · obtain ⟨later, rfl, hlater⟩ := ih h
      exact ⟨b :: later, List.append_assoc _ _ _, .left (hrow _ c hb) hlater⟩
    · obtain ⟨later, rfl, hlater⟩ := ih h
      exact ⟨later, rfl, .gone (hrow _ c hnone) hlater⟩

theorem repairFrom_of_verified (h : verifyFrom earlier rest = true) :
    (repairFrom earlier rest : Draw γ (List Action × List ActionId × Bool)) =
      pure (earlier ++ rest, [], false) := by
  induction rest generalizing earlier with
  | nil =>
    rw [List.append_nil]
    rfl
  | cons a rest ih =>
    rw [verifyFrom, Bool.and_eq_true, List.all_eq_true] at h
    rw [repairFrom, mendKeys_of_satisfied h.1, pure_bind]
    simp only [ih h.2, pure_bind, Bool.or_false, List.append_assoc, List.singleton_append]

/-- Where all keys are in order, a repair is no draw at all. -/
theorem repair_of_verified (h : ind.verify = true) :
    (ind.repair : Draw γ (Bool × Individual)) = pure (false, ind) := by
  rw [repair, repairFrom_of_verified h, pure_bind]
  simp

theorem told_of_mendKeys (hkey : ∃ k ∈ keys, isSatisfied earlier k = false)
    (h : Gives (mendKeys earlier a keys : Draw γ (Option Action × Bool)) (some b, changed)) :
    changed = true := by
  induction keys with
  | nil => simp at hkey
  | cons k keys ih =>
    rcases gives_mendKeys_cons h with ⟨hk, h⟩ | ⟨h, -⟩ | ⟨-, -, -, -, -, hchanged⟩
    · refine ih ?_ h
      obtain ⟨k', hk', hdangling⟩ := hkey
      rcases List.mem_cons.mp hk' with rfl | hk'
      · rw [hk] at hdangling
        cases hdangling
      · exact ⟨k', hk', hdangling⟩
    · cases h
    · exact hchanged

theorem told_of_repairFrom (hrest : verifyFrom earlier rest = false)
    (h : Gives (repairFrom earlier rest : Draw γ (List Action × List ActionId × Bool))
      (rows, removed, changed)) : changed = true := by
  induction rest generalizing earlier removed changed with
  | nil => cases hrest
  | cons a rest ih =>
    rcases gives_repairFrom_cons h with ⟨b, c, c', hb, hlater, rfl⟩ | ⟨-, -, -, -, -, -, hchanged⟩
    · by_cases hkeys : ∀ k ∈ a.keyReferences, isSatisfied earlier k = true
      · rw [mendKeys_of_satisfied hkeys] at hb
        cases Draw.eq_of_gives_pure hb
        rw [verifyFrom, List.all_eq_true.mpr hkeys, Bool.true_and] at hrest
        rw [ih hrest hlater, Bool.or_true]
      · simp only [not_forall, Bool.not_eq_true] at hkeys
        obtain ⟨k, hk, hdangling⟩ := hkeys
        rw [told_of_mendKeys ⟨k, hk, hdangling⟩ hb, Bool.true_or]
    · exact hchanged

theorem halts_mendKeys (earlier : List Action) (a : Action) (keys : List KeyReference) :
    Halts (mendKeys earlier a keys : Draw γ (Option Action × Bool)) := by
  induction keys generalizing a with
  | nil => exact .pure _
  | cons k keys ih =>
    rw [mendKeys]
    split
    · exact ih a
    · simp only
      split
      · exact .pure _
      · split
        · refine (Halts.pure none).bind fun value _ => ?_
          exact (ih (setKey a k value)).bind fun _ _ => .pure _
        · next hsome =>
          have hpos : 0 < (keysOf earlier k.table).length :=
            List.length_pos_iff.mpr fun hnil => hsome (List.isEmpty_iff.mpr hnil)
          refine ((halts_index hpos).map _).bind fun value _ => ?_
          exact (ih (setKey a k value)).bind fun _ _ => .pure _

theorem halts_repairFrom (earlier rest : List Action) :
    Halts (repairFrom earlier rest : Draw γ (List Action × List ActionId × Bool)) := by
  induction rest generalizing earlier with
  | nil => exact .pure _
  | cons a rest ih =>
    rw [repairFrom]
    refine (halts_mendKeys earlier a a.keyReferences).bind fun r _ => ?_
    obtain ⟨mended, c⟩ := r
    cases mended with
    | some b => exact (ih (earlier ++ [b])).bind fun _ _ => .pure _
    | none => exact (ih earlier).bind fun _ _ => .pure _

theorem halts_repair (ind : Individual) : Halts (ind.repair : Draw γ (Bool × Individual)) :=
  (halts_repairFrom [] ind.init).bind fun _ _ => .pure _

/-- The ids of the rows that another individual has no longer. -/
def removedIds (ind u : Individual) : List ActionId := ind.initIds.filter fun id => !u.initIds.contains id

/-- What a repair that answers `changed` has made of an individual. -/
structure RepairsTo (ind : Individual) (changed : Bool) (u : Individual) : Prop where
  verified : u.verify = true
  told : changed = true ↔ ind.verify = false
  rows : (u.init.map Action.keyless).Sublist (ind.init.map Action.keyless)
  outcome : ∀ before a after, ind.init = before ++ a :: after →
    ∃ first b last, u.init = first ++ b.toList ++ last ∧
      (first.map Action.keyless).Sublist (before.map Action.keyless) ∧
      (last.map Action.keyless).Sublist (after.map Action.keyless) ∧ RowOutcome first a b
  links : u.links = ind.links.filter fun l => (ind.removedIds u).all fun id => !l.involves id
  noted : u.removedByRepair = true ↔ ind.removedByRepair = true ∨ ind.removedIds u ≠ []
  rest : u = { ind with init := u.init, links := u.links, removedByRepair := u.removedByRepair }

omit [RandomSource γ] in
theorem mem_removedIds_iff (hids : ind.ids.Nodup) (h : Mended [] ind.init u.init removed) {id : ActionId} :
    id ∈ ind.removedIds u ↔ id ∈ removed := by
  have hperm : ind.initIds.Perm (u.initIds ++ removed) := h.perm_ids
  rw [ids_eq] at hids
  have hdistinct := hperm.nodup_iff.mp (List.Nodup.of_append_left hids)
  rw [removedIds, List.mem_filter, Bool.not_eq_true', ← Bool.not_eq_true, List.contains_iff_mem,
    hperm.mem_iff, List.mem_append]
  constructor
  · rintro ⟨hleft | hgone, hnot⟩
    · exact absurd hleft hnot
    · exact hgone
  · exact fun hgone => ⟨.inr hgone, fun hleft => List.disjoint_of_nodup_append hdistinct hleft hgone⟩

theorem repairsTo_of_repair (hids : ind.ids.Nodup)
    (h : Gives (ind.repair : Draw γ (Bool × Individual)) (changed, u)) : ind.RepairsTo changed u := by
  have hverified := verify_of_repair h
  obtain ⟨rows, removed, hrows, hu⟩ := eq_of_repair h
  obtain ⟨later, hlater, hmended⟩ := mended_of_repairFrom hrows
  rw [List.nil_append] at hlater
  subst hlater
  have hinit : u.init = rows := by rw [hu]
  rw [← hinit] at hmended
  have hremoved : ∀ id, id ∈ ind.removedIds u ↔ id ∈ removed := fun _ => mem_removedIds_iff hids hmended
  have hsame : ∀ l : Link, (ind.removedIds u).all (fun id => !l.involves id) =
      removed.all fun id => !l.involves id := by
    intro l
    rw [Bool.eq_iff_iff, List.all_eq_true, List.all_eq_true]
    exact forall_congr' fun id => by rw [hremoved]
  have hnone : ind.removedIds u = [] ↔ removed = [] := by
    rw [List.eq_nil_iff_forall_not_mem, List.eq_nil_iff_forall_not_mem]
    exact forall_congr' fun id => by rw [hremoved]
  refine ⟨hverified, ⟨fun hchanged => ?_, fun hdangling => told_of_repairFrom hdangling hrows⟩,
    hmended.sublist, fun before a after hsplit => ?_, ?_, ?_, ?_⟩
  · rw [← Bool.not_eq_true]
    intro hverify
    rw [repair_of_verified hverify] at h
    cases Draw.eq_of_gives_pure h
    cases hchanged
  · simpa using hmended.outcome hsplit
  · simp only [hsame]
    rw [hu]
  · rw [Ne, hnone, hu]
    simp
  · rw [hu]

/-- A repair ends, if the stream does not starve it. All keys are in order then, the answer is whether
they have not been before, and rows, keys and links that needed no repair are what they were. Where
nothing needs one, nothing is drawn. -/
theorem repair_mends_or_starves (ind : Individual) (g : γ) (hids : ind.ids.Nodup) :
    (ind.verify = true → (ind.repair : Draw γ (Bool × Individual)) = pure (false, ind)) ∧
      ((∃ changed u g', (ind.repair : Draw γ (Bool × Individual)) g = .ok ((changed, u), g') ∧
          ind.RepairsTo changed u) ∨
        ((ind.repair : Draw γ (Bool × Individual)) g = .error .endlessRedraw ∧ Draw.Starves g)) := by
  refine ⟨repair_of_verified, ?_⟩
  rcases halts_repair ind g with ⟨⟨changed, u⟩, n, hrun⟩ | hstarved
  · exact .inl ⟨changed, u, _, hrun, repairsTo_of_repair hids ⟨g, _, hrun⟩⟩
  · exact .inr hstarved

/-- The first order has no user to point at and goes with its link, the second one is given the user that
comes before it. -/
theorem repair_mends_or_starves_of_orders :
    let order := Action.db "orders" [⟨"user_id", .dbColumn, .foreignKey "user_id" "users" false⟩]
    let user := Action.db "users" [⟨"id", .dbColumn, .primaryKey "id" "users" (.longIn "id" 7 9) 1⟩]
    let ind : Individual := { Individual.new .smart 0 with
      init := [{ order with id := ⟨1⟩ }, { user with id := ⟨2⟩ }, { order with id := ⟨3⟩ }]
      links := [⟨⟨⟨2⟩, 0, ⟨0⟩⟩, ⟨⟨3⟩, 0, ⟨0⟩⟩, .database⟩, ⟨⟨⟨1⟩, 0, ⟨0⟩⟩, ⟨⟨3⟩, 0, ⟨0⟩⟩, .database⟩] }
    ∃ (u : Individual) (g : WordSource), (ind.repair : Draw WordSource _) ⟨[], 1⟩ = .ok ((true, u), g) ∧
      u.initIds = [⟨2⟩, ⟨3⟩] ∧ u.links.length = 1 ∧ ind.RepairsTo true u := by
  intro order user ind
  have hrepair : ((ind.repair : Draw WordSource _) ⟨[], 1⟩).map (fun r => (r.1.1, r.1.2.initIds,
      r.1.2.links.length)) = .ok (true, [⟨2⟩, ⟨3⟩], 1) := by decide +kernel
  have hids : ind.ids.Nodup := by decide
  rcases (repair_mends_or_starves ind (⟨[], 1⟩ : WordSource) hids).2 with ⟨changed, u, g, hrun, hu⟩ | ⟨hrun, -⟩
  · rw [hrun] at hrepair
    obtain ⟨rfl, hrest⟩ := Prod.mk.inj (Except.ok.inj hrepair)
    obtain ⟨hleft, hlinks⟩ := Prod.mk.inj hrest
    exact ⟨u, g, hrun, hleft, hlinks, hu⟩
  · rw [hrun] at hrepair
    cases hrepair

end Individual
end CallEvolution
