import CallEvolution.Evaluation.Archive
import CallEvolution.Proofs.Scores

/-! The history of an archive. Each target is held by the earliest of the best candidates that were ever
offered for it: the local rule for taking a target over finds the best of the whole history. -/

namespace CallEvolution

inductive ArchiveCall where
  | tick
  | offer (e : Evaluated)
  deriving DecidableEq

namespace Evaluated

variable {e f g : Evaluated} {target : String} {r s : Double}

/-- Is a candidate better for a target: by its score, or at the same score by having fewer actions? -/
def beats (target : String) (e f : Evaluated) : Bool :=
  match e.score? target, f.score? target with
  | some s, some r => r < s || (s.same r && e.size < f.size)
  | _, _ => false

theorem beats_iff (hs : e.score? target = some s) (hr : f.score? target = some r) :
    e.beats target f = true ↔ r.rank < s.rank ∨ (s.rank = r.rank ∧ e.size < f.size) := by
  have hes := (isScore_of_score? hs).1
  have hfr := (isScore_of_score? hr).1
  simp [beats, hs, hr, Binary.lt_iff_rank hfr hes, Binary.same_iff_rank hes hfr]

theorem scores_of_beats (h : e.beats target f = true) :
    ∃ s r, e.score? target = some s ∧ f.score? target = some r := by
  cases hs : e.score? target with
  | none => simp [beats, hs] at h
  | some s =>
    cases hr : f.score? target with
    | none => simp [beats, hs, hr] at h
    | some r => exact ⟨s, r, rfl, rfl⟩

theorem beats_trans (h : e.beats target f = true) (k : f.beats target g = true) :
    e.beats target g = true := by
  obtain ⟨s, r, hs, hr⟩ := scores_of_beats h
  obtain ⟨r', q, hr', hq⟩ := scores_of_beats k
  rw [hr, Option.some.injEq] at hr'
  subst hr'
  rw [beats_iff hs hr] at h
  rw [beats_iff hr hq] at k
  rw [beats_iff hs hq]
  omega

/-- What beats a candidate beats all those that do not beat it. -/
theorem beats_of_not_beats (h : e.beats target g = true) (hf : f.reports target = true)
    (k : f.beats target g = false) : e.beats target f = true := by
  obtain ⟨s, q, hs, hq⟩ := scores_of_beats h
  rw [← isSome_score?] at hf
  obtain ⟨r, hr⟩ := Option.isSome_iff_exists.mp hf
  rw [← Bool.not_eq_true, beats_iff hr hq] at k
  rw [beats_iff hs hq] at h
  rw [beats_iff hs hr]
  omega

/-- How often a candidate for a target beats all those before it. -/
def records (target : String) : List Evaluated → List Evaluated → Nat
  | _, [] => 0
  | earlier, e :: rest =>
    (if e.reports target && earlier.all fun f => !f.reports target || e.beats target f then 1
      else 0) + records target (earlier ++ [e]) rest

theorem records_append (target : String) (earlier es : List Evaluated) (e : Evaluated) :
    records target earlier (es ++ [e]) = records target earlier es +
      if e.reports target && (earlier ++ es).all fun f => !f.reports target || e.beats target f then 1
      else 0 := by
  induction es generalizing earlier with
  | nil => simp [records]
  | cons f es ih =>
    rw [List.cons_append, records, ih, records]
    simp only [List.append_assoc, List.singleton_append]
    omega

theorem records_eq_zero {es : List Evaluated} (h : ∀ e ∈ es, e.reports target = false) :
    records target [] es = 0 := by
  induction es using List.reverseRecOn with
  | nil => rfl
  | append_singleton es e ih =>
    rw [List.forall_mem_append, List.forall_mem_singleton] at h
    simp [records_append, ih h.1, h.2]

end Evaluated

namespace Archive

variable {a b : Archive} {e : Evaluated} {target other : String} {s : Double} {entries : Table Double}

/-- What an offer makes of the holding of a target that the candidate reached with a score. -/
def outcome (a : Archive) (e : Evaluated) (target : String) : Option Double → Option Holding
  | none => a.holdings.at? target
  | some s =>
    if a.yields target s e.size then (a.handOver target s e).holdings.at? target
    else a.holdings.at? target

theorem outcome_congr (hat : a.holdings.at? target = b.holdings.at? target)
    (hiteration : a.iteration = b.iteration) (s? : Option Double) :
    a.outcome e target s? = b.outcome e target s? := by
  cases s? with
  | none => exact hat
  | some s => simp [outcome, yields, handOver, Table.at?_put_self, hat, hiteration]

theorem iteration_offerFor (state : Improvement × Archive) (entry : String × Double) :
    (offerFor e state entry).2.iteration = state.2.iteration := by
  unfold offerFor
  dsimp only
  split <;> rfl

theorem at?_offerFor_self (hs : s.isFinite = true) (state : Improvement × Archive) :
    (offerFor e state (target, s)).2.holdings.at? target = state.2.outcome e target (some s) := by
  unfold offerFor outcome
  dsimp only
  rw [hs, Bool.true_and]
  split <;> rfl

theorem at?_offerFor_of_ne (state : Improvement × Archive) (h : target ≠ other) :
    (offerFor e state (other, s)).2.holdings.at? target = state.2.holdings.at? target := by
  unfold offerFor
  dsimp only
  split
  · exact Table.at?_put_of_ne _ h _
  · rfl

/-- Each entry of a sorted table changes the holding of its own target only. -/
theorem foldl_offerFor (hsorted : entries.Sorted)
    (hfinite : ∀ entry ∈ entries, entry.2.isFinite = true) (state : Improvement × Archive) :
    (entries.foldl (offerFor e) state).2.iteration = state.2.iteration ∧
      (entries.foldl (offerFor e) state).2.holdings.at? target =
        state.2.outcome e target (entries.at? target) := by
  induction entries generalizing state with
  | nil => exact ⟨rfl, rfl⟩
  | cons entry rest ih =>
    obtain ⟨key, s⟩ := entry
    simp only [Table.Sorted, Table.keys, List.map_cons, List.pairwise_cons] at hsorted
    rw [List.forall_mem_cons] at hfinite
    obtain ⟨hiteration, hat⟩ := ih hsorted.2 hfinite.2 (offerFor e state (key, s))
    rw [List.foldl_cons]
    refine ⟨hiteration.trans (iteration_offerFor state _), hat.trans ?_⟩
    by_cases hkey : target = key
    · subst hkey
      have hnone : Table.at? rest target = none := by
        rw [Table.at?, List.lookup_eq_none_iff]
        intro entry hentry
        have hlt := hsorted.1 entry.1 (List.mem_map_of_mem hentry)
        simpa using fun heq : target = entry.1 => String.lt_irrefl _ (heq ▸ hlt)
      have hself : Table.at? ((target, s) :: rest) target = some s := by simp [Table.at?]
      rw [hnone, hself]
      exact at?_offerFor_self hfinite.1 state
    · have hskip : Table.at? ((key, s) :: rest) target = Table.at? rest target := by
        simp [Table.at?, List.lookup_cons, beq_false_of_ne hkey]
      rw [hskip]
      exact outcome_congr (at?_offerFor_of_ne state hkey) (iteration_offerFor state _) _

/-- An offer changes the holding of each target by the rule for that target alone. -/
theorem at?_offer (a : Archive) (e : Evaluated) (target : String) :
    (a.offer e).2.iteration = a.iteration ∧
      (a.offer e).2.holdings.at? target = a.outcome e target (e.score? target) :=
  foldl_offerFor e.report.greatest_scores.sorted (fun _ h => (Evaluated.isScore_of_mem h).1) ({}, a)

end Archive

namespace ArchiveCall

def run (a : Archive) : ArchiveCall → Archive
  | tick => a.tick
  | offer e => (a.offer e).2

def runAll (calls : List ArchiveCall) (a : Archive) : Archive := calls.foldl run a

/-- The candidate that a call offers. -/
def candidate? : ArchiveCall → Option Evaluated
  | tick => none
  | offer e => some e

def offered (calls : List ArchiveCall) : List Evaluated := calls.filterMap candidate?

variable {calls before after more : List ArchiveCall} {e : Evaluated}

theorem offered_append (calls more : List ArchiveCall) :
    offered (calls ++ more) = offered calls ++ offered more := List.filterMap_append

theorem offered_tick (calls : List ArchiveCall) : offered (calls ++ [tick]) = offered calls := by
  simp [offered, candidate?]

theorem offered_offer (calls : List ArchiveCall) (e : Evaluated) :
    offered (calls ++ [offer e]) = offered calls ++ [e] := by
  simp [offered, candidate?]

end ArchiveCall

open ArchiveCall

/-- Is a target held by the earliest of the best candidates of a history? -/
structure Holding.IsBest (h : Holding) (target : String) (calls : List ArchiveCall) : Prop where
  earliest : ∃ before after, calls = before ++ .offer h.holder :: after ∧
    h.lastImprovement = before.count .tick ∧
    (∀ f ∈ offered before, f.reports target = true → h.holder.beats target f = true) ∧
    ∀ f ∈ offered after, f.beats target h.holder = false
  own_score : h.holder.score? target = some h.score
  improvements : h.improvements = Evaluated.records target [] (offered calls)
  improved : 1 ≤ h.improvements

namespace Holding.IsBest

variable {h h' : Holding} {target : String} {calls more : List ArchiveCall} {e f : Evaluated} {s : Double}

theorem isScore (hbest : h.IsBest target calls) : IsScore h.score :=
  Evaluated.isScore_of_score? hbest.own_score

theorem offered (hbest : h.IsBest target calls) : h.holder ∈ ArchiveCall.offered calls := by
  obtain ⟨before, after, hcalls, -⟩ := hbest.earliest
  rw [hcalls, offered_append]
  simp [ArchiveCall.offered, candidate?]

theorem reports (hbest : h.IsBest target calls) : h.holder.reports target = true := by
  rw [← Evaluated.isSome_score?, hbest.own_score]
  rfl

theorem unbeaten (hbest : h.IsBest target calls) (hf : f ∈ ArchiveCall.offered calls) :
    f.beats target h.holder = false := by
  obtain ⟨before, after, hcalls, -, hbefore, hafter⟩ := hbest.earliest
  have hcons : ArchiveCall.offered (.offer h.holder :: after) = h.holder :: ArchiveCall.offered after := rfl
  rw [hcalls, offered_append, hcons, List.mem_append, List.mem_cons] at hf
  have hself : h.holder.beats target h.holder = false := by
    rw [← Bool.not_eq_true, Evaluated.beats_iff hbest.own_score hbest.own_score]
    omega
  rcases hf with hf | rfl | hf
  · by_contra hbeats
    rw [Bool.not_eq_false] at hbeats
    obtain ⟨r, q, hr, -⟩ := Evaluated.scores_of_beats hbeats
    have hreports : f.reports target = true := by
      rw [← Evaluated.isSome_score?, hr]
      rfl
    have hcircle := Evaluated.beats_trans (hbefore f hf hreports) hbeats
    rw [hself] at hcircle
    cases hcircle
  · exact hself
  · exact hafter f hf

/-- The holder is at least as good as another candidate of the history that holds the target. -/
theorem bounds (hbest : h'.IsBest target calls) (hf : f ∈ ArchiveCall.offered calls)
    (hs : f.score? target = some s) :
    s ≤ h'.score ∧ (h'.score.same s = true → h'.holder.size ≤ f.size) := by
  have hnot := hbest.unbeaten hf
  have hfinite := (Evaluated.isScore_of_score? hs).1
  rw [← Bool.not_eq_true, Evaluated.beats_iff hs hbest.own_score] at hnot
  rw [Binary.le_iff_rank hfinite hbest.isScore.1, Binary.same_iff_rank hbest.isScore.1 hfinite]
  omega

/-- Holders that are the best of the same candidates, offered in two orders. -/
theorem same_of_perm {k : Holding} {other : List ArchiveCall} (hbest : h.IsBest target calls)
    (hbest' : k.IsBest target other)
    (hperm : (ArchiveCall.offered other).Perm (ArchiveCall.offered calls)) :
    k.score.same h.score = true ∧ k.holder.size = h.holder.size := by
  -- each of the two is among the candidates of the other history
  obtain ⟨hle, hsize⟩ := hbest'.bounds (hperm.mem_iff.mpr hbest.offered) hbest.own_score
  obtain ⟨hle', hsize'⟩ := hbest.bounds (hperm.mem_iff.mp hbest'.offered) hbest'.own_score
  have hfinite := hbest.isScore.1
  have hfinite' := hbest'.isScore.1
  rw [Binary.le_iff_rank hfinite hfinite'] at hle
  rw [Binary.le_iff_rank hfinite' hfinite] at hle'
  have hsame : k.score.same h.score = true := by
    rw [Binary.same_iff_rank hfinite' hfinite]
    omega
  have hsame' : h.score.same k.score = true := by
    rw [Binary.same_iff_rank hfinite hfinite']
    omega
  exact ⟨hsame, Nat.le_antisymm (hsize hsame) (hsize' hsame')⟩

theorem tick (hbest : h.IsBest target calls) : h.IsBest target (calls ++ [.tick]) := by
  obtain ⟨before, after, hcalls, hlast, hbefore, hafter⟩ := hbest.earliest
  refine ⟨⟨before, after ++ [.tick], by simp [hcalls], hlast, hbefore, ?_⟩, hbest.own_score, ?_,
    hbest.improved⟩
  · rw [offered_tick]
    exact hafter
  · rw [offered_tick]
    exact hbest.improvements

theorem kept (hbest : h.IsBest target calls) (he : e.beats target h.holder = false) :
    h.IsBest target (calls ++ [.offer e]) := by
  obtain ⟨before, after, hcalls, hlast, hbefore, hafter⟩ := hbest.earliest
  refine ⟨⟨before, after ++ [.offer e], by simp [hcalls], hlast, hbefore, ?_⟩, hbest.own_score, ?_,
    hbest.improved⟩
  · rw [offered_offer, List.forall_mem_append, List.forall_mem_singleton]
    exact ⟨hafter, he⟩
  · have hnone : ((ArchiveCall.offered calls).all fun f =>
        !f.reports target || e.beats target f) = false := by
      rw [List.all_eq_false]
      exact ⟨h.holder, hbest.offered, by simp [hbest.reports, he]⟩
    rw [offered_offer, Evaluated.records_append, List.nil_append, hnone, hbest.improvements]
    simp

theorem replaced (hbest : h.IsBest target calls) (he : e.beats target h.holder = true)
    (hs : e.score? target = some s) :
    (⟨e, s, h.improvements + 1, calls.count .tick⟩ : Holding).IsBest target (calls ++ [.offer e]) := by
  have hall : ∀ f ∈ ArchiveCall.offered calls, f.reports target = true → e.beats target f = true :=
    fun f hf hreports => Evaluated.beats_of_not_beats he hreports (hbest.unbeaten hf)
  refine ⟨⟨calls, [], rfl, rfl, hall, by simp [ArchiveCall.offered]⟩, hs, ?_,
    Nat.le_add_left 1 _⟩
  have hrecord : ((ArchiveCall.offered calls).all fun f =>
      !f.reports target || e.beats target f) = true := by
    rw [List.all_eq_true]
    intro f hf
    cases hreports : f.reports target with
    | false => rfl
    | true => simp [hall f hf hreports]
  have hreports : e.reports target = true := by
    rw [← Evaluated.isSome_score?, hs]
    rfl
  rw [offered_offer, Evaluated.records_append, List.nil_append, hrecord, hreports]
  simp [hbest.improvements]

theorem first (hnone : ∀ f ∈ ArchiveCall.offered calls, f.reports target = false)
    (hs : e.score? target = some s) :
    (⟨e, s, 1, calls.count .tick⟩ : Holding).IsBest target (calls ++ [.offer e]) := by
  refine ⟨⟨calls, [], rfl, rfl, fun f hf hreports => ?_, by simp [ArchiveCall.offered]⟩, hs, ?_,
    Nat.le_refl 1⟩
  · rw [hnone f hf] at hreports
    cases hreports
  · have hreports : e.reports target = true := by
      rw [← Evaluated.isSome_score?, hs]
      rfl
    have hrecord : ((ArchiveCall.offered calls).all fun f =>
        !f.reports target || e.beats target f) = true := by
      rw [List.all_eq_true]
      exact fun f hf => by simp [hnone f hf]
    rw [offered_offer, Evaluated.records_append, List.nil_append, hrecord, hreports,
      Evaluated.records_eq_zero hnone]
    simp

end Holding.IsBest

namespace Archive

/-- Does an archive hold the best of a history? -/
structure Follows (a : Archive) (calls : List ArchiveCall) : Prop where
  iteration : a.iteration = calls.count .tick
  absent : ∀ target, a.holdings.at? target = none → ∀ f ∈ offered calls, f.reports target = false
  best : ∀ target h, a.holdings.at? target = some h → h.IsBest target calls

variable {a : Archive} {calls : List ArchiveCall} {e : Evaluated} {h : Holding} {target : String}
  {s : Double}

theorem Follows.tick (ha : a.Follows calls) : a.tick.Follows (calls ++ [.tick]) where
  iteration := by simp [Archive.tick, ha.iteration]
  absent target hnone := by
    rw [offered_tick]
    exact ha.absent target hnone
  best target h hat := (ha.best target h hat).tick

/-- A holder yields to the candidates that beat it. -/
theorem yields_iff_beats (hat : a.holdings.at? target = some h)
    (hown : h.holder.score? target = some h.score) (hs : e.score? target = some s) :
    a.yields target s e.size = e.beats target h.holder := by
  simp [yields, hat, Evaluated.beats, hs, hown]

theorem Follows.offer (ha : a.Follows calls) (e : Evaluated) :
    (a.offer e).2.Follows (calls ++ [.offer e]) := by
  refine ⟨?_, fun target hnone => ?_, fun target h hat => ?_⟩
  · rw [(at?_offer a e "").1, ha.iteration]
    simp
  · rw [(at?_offer a e target).2] at hnone
    rw [offered_offer, List.forall_mem_append, List.forall_mem_singleton]
    cases hs : e.score? target with
    | none =>
      have hreports : e.reports target = false := by rw [← Evaluated.isSome_score?, hs]; rfl
      rw [hs] at hnone
      exact ⟨ha.absent target hnone, hreports⟩
    | some s =>
      rw [hs, outcome, handOver, Table.at?_put_self] at hnone
      split at hnone
      · cases hnone
      · next hkept => simp [yields, hnone] at hkept
  · rw [(at?_offer a e target).2] at hat
    cases hs : e.score? target with
    | none =>
      have hbeats : ∀ g, e.beats target g = false := fun g => by simp [Evaluated.beats, hs]
      rw [hs] at hat
      exact (ha.best target h hat).kept (hbeats h.holder)
    | some s =>
      rw [hs, outcome, handOver, Table.at?_put_self, ha.iteration] at hat
      -- the first candidate for a target is kept, and a later one if it beats the holder
      cases hold : a.holdings.at? target with
      | none =>
        have hfirst := Holding.IsBest.first (ha.absent target hold) hs
        simp [hold, yields] at hat
        exact hat ▸ hfirst
      | some k =>
        have hbest := ha.best target k hold
        rw [yields_iff_beats hold hbest.own_score hs, hold] at hat
        split at hat
        · next hbeats =>
          rw [Option.some.injEq] at hat
          exact hat ▸ hbest.replaced hbeats hs
        · next hbeats =>
          rw [Option.some.injEq] at hat
          rw [Bool.not_eq_true] at hbeats
          exact hat ▸ hbest.kept hbeats

theorem follows_runAll (settings : ArchiveSettings) (calls : List ArchiveCall) :
    (runAll calls { settings }).Follows calls := by
  induction calls using List.reverseRecOn with
  | nil => exact ⟨rfl, by simp [offered], by simp [runAll, Table.at?]⟩
  | append_singleton calls call ih =>
    rw [runAll, List.foldl_append]
    cases call with
    | tick => exact ih.tick
    | offer e => exact ih.offer e

theorem Follows.exists_of_reports (ha : a.Follows calls) (he : e ∈ offered calls)
    (hreports : e.reports target = true) : ∃ h, a.holdings.at? target = some h := by
  cases hat : a.holdings.at? target with
  | some h => exact ⟨h, rfl⟩
  | none =>
    rw [ha.absent target hat e he] at hreports
    cases hreports

/-- Whatever is offered to an empty archive, each target that was reached is held by the earliest of the
best candidates for it. So scores do not fall, sizes do not grow at the same score, and the order of the
offers makes no difference to either. -/
theorem holds_best_of_history (settings : ArchiveSettings) (calls : List ArchiveCall) (target : String) :
    let a := runAll calls { settings }
    ((∃ h, a.holdings.at? target = some h) ↔ ∃ e ∈ offered calls, e.reports target = true) ∧
    (∀ h, a.holdings.at? target = some h →
      h.IsBest target calls ∧ 0 ≤ h.score ∧ h.score ≤ 1) ∧
    (∀ h more, a.holdings.at? target = some h →
      ∃ k, (runAll (calls ++ more) { settings }).holdings.at? target = some k ∧
        h.score ≤ k.score ∧ (k.score.same h.score = true → k.holder.size ≤ h.holder.size)) ∧
    ∀ h other, a.holdings.at? target = some h → (offered other).Perm (offered calls) →
      ∃ k, (runAll other { settings }).holdings.at? target = some k ∧
        k.score.same h.score = true ∧ k.holder.size = h.holder.size := by
  intro a
  have ha : a.Follows calls := follows_runAll settings calls
  refine ⟨⟨?_, ?_⟩, fun h hat => ?_, fun h more hat => ?_, fun h other hat hperm => ?_⟩
  · rintro ⟨h, hat⟩
    have hbest := ha.best target h hat
    exact ⟨h.holder, hbest.offered, hbest.reports⟩
  · rintro ⟨e, he, hreports⟩
    exact ha.exists_of_reports he hreports
  · have hbest := ha.best target h hat
    exact ⟨hbest, hbest.isScore.2.1, hbest.isScore.2.2⟩
  · have hbest := ha.best target h hat
    have hmore := follows_runAll settings (calls ++ more)
    have hoffered : h.holder ∈ offered (calls ++ more) := by
      rw [offered_append]
      exact List.mem_append_left _ hbest.offered
    obtain ⟨k, hk⟩ := hmore.exists_of_reports hoffered hbest.reports
    exact ⟨k, hk, (hmore.best target k hk).bounds hoffered hbest.own_score⟩
  · have hbest := ha.best target h hat
    have hother := follows_runAll settings other
    obtain ⟨k, hk⟩ := hother.exists_of_reports (hperm.mem_iff.mpr hbest.offered) hbest.reports
    have hbest' := hother.best target k hk
    exact ⟨k, hk, hbest.same_of_perm (hother.best target k hk) hperm⟩

/-- A score that is no number counts as zero, a better score takes over from it, and the same score with
fewer actions takes over again. -/
theorem holds_best_of_history_of_tie :
    let call := Action.template "call" (.rpc "service" "method") [] true
    let candidate (main : List Action) (score : Double) : Evaluated :=
      ⟨{ Individual.new .random 0 with main }, ⟨[], [⟨"covered", score, 0⟩]⟩⟩
    let calls := [.offer (candidate [call] .nan), .tick, .offer (candidate [call, call] 2),
      .tick, .offer (candidate [call] 1), .offer (candidate [call] 1)]
    ∃ h, (runAll calls {}).holdings.at? "covered" = some h ∧ h.IsBest "covered" calls ∧
      h.improvements = 3 ∧ h.lastImprovement = 2 := by
  intro call candidate calls
  have hreports : ∃ e ∈ offered calls, e.reports "covered" = true :=
    ⟨candidate [call] 1, by decide +kernel⟩
  have hbest := holds_best_of_history {} calls "covered"
  obtain ⟨h, hat⟩ := hbest.1.mpr hreports
  have hnumbers : ((runAll calls {}).holdings.at? "covered").map
      (fun h => (h.improvements, h.lastImprovement)) = some (3, 2) := by decide +kernel
  rw [hat, Option.map_some, Option.some.injEq, Prod.mk.injEq] at hnumbers
  exact ⟨h, hat, (hbest.2.1 h hat).1, hnumbers⟩

end Archive
end CallEvolution
