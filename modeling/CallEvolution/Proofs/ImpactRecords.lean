import CallEvolution.Impact.Record
import Mathlib.Algebra.Order.Field.Rat
import Mathlib.Data.List.DropRight
import Mathlib.Tactic.Linarith
import Mathlib.Tactic.Positivity

/-! Impact records as histories. Counters and streaks are kept up call by call; they amount to counts
over the outcomes of all calls that touched a thing, and to counts over those since the last one of some
kind. -/

namespace CallEvolution

/-- What a mutation touched, and what came of it. -/
structure ImpactCall where
  touched : List String
  outcome : Outcome
  deriving DecidableEq

namespace Outcome

variable {o : Outcome} {os : List Outcome} {p : Outcome → Bool}

theorem hasImpact_of_improved (h : o.improved = true) : o.hasImpact = true := by simp [hasImpact, h]

/-- The outcomes since the last one of a kind; all of them if there is none. -/
def since (p : Outcome → Bool) (os : List Outcome) : List Outcome := os.rtakeWhile (!p ·)

theorem since_append_of_pos (h : p o = true) : since p (os ++ [o]) = [] :=
  List.rtakeWhile_concat_neg _ _ _ (by simp [h])

theorem since_append_of_neg (h : p o = false) : since p (os ++ [o]) = since p os ++ [o] :=
  List.rtakeWhile_concat_pos _ _ _ (by simp [h])

theorem countP_since_le (p q : Outcome → Bool) (os : List Outcome) :
    (since p os).countP q ≤ os.length :=
  List.countP_le_length.trans (List.rtakeWhile_suffix _ _).length_le

end Outcome

open Outcome

namespace ImpactRecord

variable {o : Outcome} {os : List Outcome} {id : String}

/-- The record of a history of outcomes. -/
def ofHistory (id : String) (os : List Outcome) : ImpactRecord where
  id := id
  degree := (os.filter (·.improved)).foldl (fun degree o => degree + o.improvement) 0
  manipulations := os.length
  impacts := os.countP (·.hasImpact)
  idle := os.countP (!·.hasImpact)
  idleStreak := (since (·.hasImpact) os).countP (!·.hasImpact)
  vainStreak := (since (·.improved) os).countP fun o => o.hasImpact && !o.improved

theorem impacts_add_idle (id : String) (os : List Outcome) :
    (ofHistory id os).impacts + (ofHistory id os).idle = os.length := by
  simpa [ofHistory] using (List.length_eq_countP_add_countP (·.hasImpact) (l := os)).symm

theorem counted_of_lt {n : Nat} (h : n < counterLimit) : counted n = .ok n := if_pos h

/-- Counting an outcome adds it to the history. -/
theorem count_ofHistory (id : String) (o : Outcome) (hlimit : os.length + 1 < counterLimit) :
    (ofHistory id os).count o = .ok (ofHistory id (os ++ [o])) := by
  have hsum := impacts_add_idle id os
  have hidle := countP_since_le (·.hasImpact) (!·.hasImpact) os
  have hvain := countP_since_le (·.improved) (fun o => o.hasImpact && !o.improved) os
  have htried : counted ((ofHistory id os).manipulations + 1) = .ok (os.length + 1) :=
    counted_of_lt hlimit
  have himpacts : counted ((ofHistory id os).impacts + 1) = .ok ((ofHistory id os).impacts + 1) :=
    counted_of_lt (by omega)
  rw [count, htried]
  cases himpact : o.hasImpact with
  | false =>
    have himproved : o.improved = false := by
      cases h : o.improved with
      | false => rfl
      | true => rw [hasImpact_of_improved h] at himpact; cases himpact
    have hmore : counted ((ofHistory id os).idle + 1) = .ok ((ofHistory id os).idle + 1) :=
      counted_of_lt (by omega)
    have hstreak : counted ((ofHistory id os).idleStreak + 1) =
        .ok ((ofHistory id os).idleStreak + 1) := counted_of_lt (by simp only [ofHistory]; omega)
    simp only [Bool.false_eq_true, if_false, hmore, hstreak]
    simp [bind, Except.bind, pure, Except.pure, ofHistory, himpact, himproved,
      since_append_of_neg (p := (·.hasImpact)) himpact, since_append_of_neg (p := (·.improved)) himproved]
  | true =>
    simp only [if_true, himpacts]
    cases himproved : o.improved with
    | true =>
      simp [bind, Except.bind, pure, Except.pure, ofHistory, himpact, himproved,
        since_append_of_pos (p := (·.hasImpact)) himpact,
        since_append_of_pos (p := (·.improved)) himproved]
    | false =>
      have hstreak : counted ((ofHistory id os).vainStreak + 1) =
          .ok ((ofHistory id os).vainStreak + 1) := counted_of_lt (by simp only [ofHistory]; omega)
      simp only [Bool.false_eq_true, if_false, hstreak]
      simp [bind, Except.bind, pure, Except.pure, ofHistory, himpact, himproved,
        since_append_of_pos (p := (·.hasImpact)) himpact,
        since_append_of_neg (p := (·.improved)) himproved]

/-- The weight in draws as an exact number. -/
def ratio (r : ImpactRecord) : Rat := (1 + 2 * r.impacts) / (1 + r.manipulations)

theorem ratio_pos (r : ImpactRecord) : 0 < r.ratio := by
  unfold ratio
  positivity

theorem ratio_lt_two {r : ImpactRecord} (h : r.impacts ≤ r.manipulations) : r.ratio < 2 := by
  have hcast : (r.impacts : Rat) ≤ r.manipulations := by exact_mod_cast h
  have hpos : (0 : Rat) < 1 + r.manipulations := by positivity
  rw [ratio, div_lt_iff₀ hpos]
  linarith

theorem one_le_ratio_iff (r : ImpactRecord) : 1 ≤ r.ratio ↔ r.manipulations ≤ 2 * r.impacts := by
  have hpos : (0 : Rat) < 1 + r.manipulations := by positivity
  rw [ratio, one_le_div hpos, add_le_add_iff_left]
  exact_mod_cast Iff.rfl

theorem weight_eq {r : ImpactRecord} (h : r.impacts ≤ r.manipulations)
    (hlimit : r.manipulations < twoPow 31) :
    r.weight = .ok (.ofInt (1 + 2 * r.impacts : Nat) / .ofInt (1 + r.manipulations : Nat)) := by
  have hhalf : counterLimit = 2 * twoPow 31 := by decide
  have hgained : counted (1 + 2 * r.impacts) = .ok (1 + 2 * r.impacts) := counted_of_lt (by omega)
  have htried : counted (1 + r.manipulations) = .ok (1 + r.manipulations) := counted_of_lt (by omega)
  rw [weight, hgained, htried]
  rfl

end ImpactRecord

namespace ImpactHistory

variable {h : ImpactHistory} {o : Outcome} {ids : List String} {next : String → ImpactRecord}

theorem nodup_eraseDups (ids : List String) : ids.eraseDups.Nodup := by
  induction hn : ids.length using Nat.strong_induction_on generalizing ids with
  | _ n ih =>
    cases ids with
    | nil => exact List.nodup_nil
    | cons id rest =>
      have hle := List.length_filter_le (fun other => !other == id) rest
      rw [List.length_cons] at hn
      rw [List.eraseDups_cons, List.nodup_cons, List.mem_eraseDups]
      exact ⟨by simp, ih _ (by omega) _ rfl⟩

/-- Each of several things gets its next record, and nothing else changes. -/
theorem foldlM_countFor (hids : ids.Nodup)
    (hnext : ∀ id ∈ ids, ((h.record? id).getD { id }).count o = .ok (next id)) :
    ∃ h', ids.foldlM (countFor o) h = .ok h' ∧
      ∀ id, h'.record? id = if id ∈ ids then some (next id) else h.record? id := by
  induction ids generalizing h with
  | nil => exact ⟨h, rfl, fun id => by simp⟩
  | cons key rest ih =>
    obtain ⟨hkey, hrest⟩ := List.nodup_cons.mp hids
    have hfirst : countFor o h key = .ok ⟨h.records.put key (next key)⟩ := by
      rw [countFor, hnext key (.head _)]
      rfl
    obtain ⟨h', hfold, hrecords⟩ := ih (h := ⟨h.records.put key (next key)⟩) hrest fun id hid => by
      have hne : id ≠ key := fun heq => hkey (heq ▸ hid)
      rw [record?, Table.at?_put_of_ne _ hne]
      exact hnext id (.tail _ hid)
    refine ⟨h', by rw [List.foldlM_cons, hfirst]; exact hfold, fun id => ?_⟩
    rw [hrecords]
    by_cases hid : id ∈ rest
    · simp [hid]
    · by_cases heq : id = key
      · subst heq
        simp [hid, record?, Table.at?_put_self]
      · simp [hid, heq, record?, Table.at?_put_of_ne _ heq]

end ImpactHistory

namespace ImpactCall

variable {calls before after : List ImpactCall} {c : ImpactCall} {h : ImpactHistory} {id : String}
  {r : ImpactRecord}

/-- The outcomes of the calls that touched a thing, in order. -/
def outcomesFor (id : String) (calls : List ImpactCall) : List Outcome :=
  (calls.filter fun c => decide (id ∈ c.touched)).map (·.outcome)

def recordAll (calls : List ImpactCall) (h : ImpactHistory) : Except Fault ImpactHistory :=
  calls.foldlM (fun h c => h.record c.touched c.outcome) h

theorem outcomesFor_append (id : String) (before after : List ImpactCall) :
    outcomesFor id (before ++ after) = outcomesFor id before ++ outcomesFor id after := by
  simp [outcomesFor]

theorem outcomesFor_eq_nil_iff : outcomesFor id calls = [] ↔ ∀ c ∈ calls, id ∉ c.touched := by
  simp [outcomesFor, List.filter_eq_nil_iff]

theorem length_outcomesFor_le (id : String) (calls : List ImpactCall) :
    (outcomesFor id calls).length ≤ calls.length := by
  rw [outcomesFor, List.length_map]
  exact List.length_filter_le _ _

/-- The record that a history of calls makes for a thing. -/
def account? (id : String) (calls : List ImpactCall) : Option ImpactRecord :=
  if outcomesFor id calls = [] then none else some (.ofHistory id (outcomesFor id calls))

theorem exists_account?_iff : (∃ r, account? id calls = some r) ↔ ∃ c ∈ calls, id ∈ c.touched := by
  have hnil : outcomesFor id calls = [] ↔ ∀ c ∈ calls, id ∉ c.touched := outcomesFor_eq_nil_iff
  by_cases h : outcomesFor id calls = []
  · simpa [account?, h] using hnil.mp h
  · simpa [account?, h] using hnil.not.mp h

theorem getD_account? (id : String) (calls : List ImpactCall) :
    (account? id calls).getD { id } = .ofHistory id (outcomesFor id calls) := by
  rw [account?]
  split
  · next hnil => rw [hnil]; rfl
  · rfl

theorem account?_append (hc : id ∉ c.touched) : account? id (calls ++ [c]) = account? id calls := by
  simp [account?, outcomesFor, hc]

theorem account?_append_of_mem (hc : id ∈ c.touched) :
    account? id (calls ++ [c]) = some (.ofHistory id (outcomesFor id calls ++ [c.outcome])) := by
  simp [account?, outcomesFor, hc]

/-- One more call turns each record into that of the longer history. -/
theorem exists_record (hlimit : calls.length + 1 < counterLimit)
    (hrecords : ∀ id, h.record? id = account? id calls) (c : ImpactCall) :
    ∃ h', h.record c.touched c.outcome = .ok h' ∧
      ∀ id, h'.record? id = account? id (calls ++ [c]) := by
  have hcount : ∀ id ∈ c.touched.eraseDups, ((h.record? id).getD { id }).count c.outcome =
      .ok (.ofHistory id (outcomesFor id calls ++ [c.outcome])) := by
    intro id _
    have hle := length_outcomesFor_le id calls
    rw [hrecords, getD_account?]
    exact ImpactRecord.count_ofHistory id c.outcome (by omega)
  obtain ⟨h', hfold, hafter⟩ :=
    ImpactHistory.foldlM_countFor (ImpactHistory.nodup_eraseDups c.touched) hcount
  refine ⟨h', hfold, fun id => ?_⟩
  simp only [hafter, List.mem_eraseDups]
  split
  · next hmem => rw [account?_append_of_mem hmem]
  · next hmem => rw [hrecords, account?_append hmem]

theorem exists_recordAll (calls : List ImpactCall) (hlimit : calls.length < counterLimit) :
    ∃ h, recordAll calls {} = .ok h ∧ ∀ id, h.record? id = account? id calls := by
  induction calls using List.reverseRecOn with
  | nil => exact ⟨{}, rfl, fun id => rfl⟩
  | append_singleton calls c ih =>
    rw [List.length_append, List.length_singleton] at hlimit
    obtain ⟨h, hrun, hrecords⟩ := ih (by omega)
    obtain ⟨h', hstep, hrecords'⟩ := exists_record hlimit hrecords c
    refine ⟨h', ?_, hrecords'⟩
    rw [recordAll, List.foldlM_append]
    rw [recordAll] at hrun
    simp only [hrun, List.foldlM_cons, List.foldlM_nil]
    exact (bind_pure _).trans hstep

theorem account?_eq_some (hr : account? id calls = some r) :
    r = .ofHistory id (outcomesFor id calls) := by
  rw [account?] at hr
  split at hr
  · cases hr
  · exact (Option.some.inj hr).symm

/-- Fewer than half as many calls as a counter can count leave exactly the history in the records:
nothing overflows, a thing has a record if some call touched it, its counters and streaks are those of
the calls that touched it, and its weight lies in `(0, 2)`. Calls that do not touch a thing leave its
record alone. -/
theorem records_tell_history (calls : List ImpactCall) (hcalls : calls.length < twoPow 31) :
    ∃ h, recordAll calls {} = .ok h ∧
      (∀ id, (∃ r, h.record? id = some r) ↔ ∃ c ∈ calls, id ∈ c.touched) ∧
      (∀ id r, h.record? id = some r →
        r = .ofHistory id (outcomesFor id calls) ∧
        r.impacts + r.idle = r.manipulations ∧
        0 < r.ratio ∧ r.ratio < 2 ∧ (1 ≤ r.ratio ↔ r.manipulations ≤ 2 * r.impacts) ∧
        h.weight id = .ok (.ofInt (1 + 2 * r.impacts : Nat) / .ofInt (1 + r.manipulations : Nat))) ∧
      ∀ before after, calls = before ++ after → ∃ k, recordAll before {} = .ok k ∧
        ∀ id, (∀ c ∈ after, id ∉ c.touched) → h.record? id = k.record? id := by
  have hhalf : counterLimit = 2 * twoPow 31 := by decide
  obtain ⟨h, hrun, hrecords⟩ := exists_recordAll calls (by omega)
  refine ⟨h, hrun, fun id => ?_, fun id r hr => ?_, fun before after happend => ?_⟩
  · rw [hrecords]
    exact exists_account?_iff
  · have hlength := length_outcomesFor_le id calls
    have hsum := ImpactRecord.impacts_add_idle id (outcomesFor id calls)
    have hweight : h.weight id = r.weight := by rw [ImpactHistory.weight, hr]
    rw [hrecords] at hr
    obtain rfl := account?_eq_some hr
    have hle : (ImpactRecord.ofHistory id (outcomesFor id calls)).impacts ≤
        (outcomesFor id calls).length := by omega
    refine ⟨rfl, hsum, ImpactRecord.ratio_pos _, ImpactRecord.ratio_lt_two hle,
      ImpactRecord.one_le_ratio_iff _, ?_⟩
    rw [hweight, ImpactRecord.weight_eq hle (hlength.trans_lt hcalls)]
  · subst happend
    rw [List.length_append] at hcalls
    obtain ⟨k, hbefore, hkept⟩ := exists_recordAll before (by omega)
    refine ⟨k, hbefore, fun id huntouched => ?_⟩
    rw [hrecords, hkept, account?, account?, outcomesFor_append,
      outcomesFor_eq_nil_iff.mpr huntouched, List.append_nil]

/-- A thing that is named twice in a call counts once. The last two calls that touch the first thing
have an impact but improve nothing, and the last one that touches the second has no impact. -/
theorem records_tell_history_of_streaks :
    let gain : Outcome := ⟨true, 1, ["covered"], []⟩
    let vain : Outcome := ⟨false, 0, [], ["covered"]⟩
    let idle : Outcome := ⟨false, 0, [], []⟩
    let calls : List ImpactCall :=
      [⟨["name", "size", "name"], gain⟩, ⟨["name"], idle⟩, ⟨["name"], vain⟩, ⟨["size"], idle⟩,
        ⟨["name"], vain⟩]
    calls.length < twoPow 31 ∧ ∃ h, recordAll calls {} = .ok h ∧
      h.record? "name" = some ⟨"name", 1, 4, 3, 1, 0, 2⟩ ∧
      h.record? "size" = some ⟨"size", 1, 2, 1, 1, 1, 0⟩ ∧ h.record? "page" = none := by
  intro gain vain idle calls
  have hcalls : calls.length < twoPow 31 := by decide
  obtain ⟨h, hrun, htouched, hrecords, -⟩ := records_tell_history calls hcalls
  have hname : ∃ r, h.record? "name" = some r := (htouched "name").mpr (by decide)
  have hsize : ∃ r, h.record? "size" = some r := (htouched "size").mpr (by decide)
  obtain ⟨r, hr⟩ := hname
  obtain ⟨q, hq⟩ := hsize
  refine ⟨hcalls, h, hrun, ?_, ?_, ?_⟩
  · rw [hr, (hrecords "name" r hr).1]
    decide +kernel
  · rw [hq, (hrecords "size" q hq).1]
    decide +kernel
  · have hnone : ¬∃ r, h.record? "page" = some r := fun h => absurd ((htouched "page").mp h) (by decide)
    exact Option.eq_none_iff_forall_ne_some.mpr fun r hr => hnone ⟨r, hr⟩

end ImpactCall
end CallEvolution
