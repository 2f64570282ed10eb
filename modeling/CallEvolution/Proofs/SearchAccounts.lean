import CallEvolution.Evaluation.Simulation
import CallEvolution.Proofs.ArchiveHistory
import CallEvolution.Proofs.Attempts
import CallEvolution.Proofs.ImpactRecords
import CallEvolution.Random.Words
import CallEvolution.Search.Loop

/-! The accounts of a search. Whatever is sampled, mutated and answered, the counters, the archive and
the impact records after a number of steps are those that follow from the turns that were played, and a
run plays as many turns as evaluations are allowed. -/

namespace CallEvolution

/-- How far a search has come, with the state of its random source. -/
abbrev SearchPoint (σ γ : Type) := SearchState σ × γ

namespace Progress

variable {σ γ α β : Type} {p q : SearchPoint σ γ} {a : α}

/-- Do the steps succeed with a result, from one point to another? -/
def Leads (m : Progress σ γ α) (p : SearchPoint σ γ) (a : α) (q : SearchPoint σ γ) : Prop :=
  m.run.run p.1 p.2 = .ok ((.ok a, q.1), q.2)

theorem run_bind (m : Progress σ γ α) (f : α → Progress σ γ β) (state : SearchState σ) (g : γ) :
    (m >>= f).run.run state g =
      match m.run.run state g with
      | .error fault => .error fault
      | .ok ((.error e, state), g) => .ok ((.error e, state), g)
      | .ok ((.ok a, state), g) => (f a).run.run state g := by
  change (m.run.run state g >>= _) = _
  rcases m.run.run state g with fault | ⟨⟨e | a, state⟩, g⟩ <;> rfl

theorem leads_bind_iff {m : Progress σ γ α} {f : α → Progress σ γ β} {b : β} :
    Leads (m >>= f) p b q ↔ ∃ a r, Leads m p a r ∧ Leads (f a) r b q := by
  rw [Leads, run_bind]
  constructor
  · intro h
    split at h
    · cases h
    · cases h
    · next a state g hm => exact ⟨a, (state, g), hm, h⟩
  · rintro ⟨a, r, hm, hf⟩
    rw [Leads] at hm
    rw [hm]
    exact hf

theorem Leads.eq_of_run {m : Progress σ γ α} {b : α} {state : SearchState σ} {g : γ}
    (h : Leads m p a q) (hm : m.run.run p.1 p.2 = .ok ((.ok b, state), g)) :
    a = b ∧ q = (state, g) := by
  rw [Leads, hm, Except.ok.injEq, Prod.mk.injEq, Prod.mk.injEq, Except.ok.injEq] at h
  obtain ⟨⟨hb, hstate⟩, hg⟩ := h
  exact ⟨hb.symm, Prod.ext hstate.symm hg.symm⟩

/-- The result and the point that is reached, if the steps succeed. -/
def result? (m : Progress σ γ α) (p : SearchPoint σ γ) : Option (α × SearchPoint σ γ) :=
  (m.run.run p.1 p.2).toOption.bind fun r => r.1.1.toOption.map fun a => (a, r.1.2, r.2)

theorem leads_of_result? {m : Progress σ γ α} (h : result? m p = some (a, q)) : Leads m p a q := by
  rw [result?] at h
  rw [Leads]
  rcases hm : m.run.run p.1 p.2 with fault | ⟨⟨e | b, state⟩, g⟩
  · rw [hm] at h
    cases h
  · rw [hm] at h
    cases h
  · rw [hm] at h
    obtain ⟨rfl, rfl⟩ := Prod.mk.inj (Option.some.inj h)
    rfl

theorem eq_of_leads_pure {b : α} (h : Leads (pure a : Progress σ γ α) p b q) : b = a ∧ q = p :=
  h.eq_of_run rfl

theorem eq_of_leads_get {state : SearchState σ} (h : Leads (get : Progress σ γ _) p state q) :
    state = p.1 ∧ q = p := h.eq_of_run rfl

theorem eq_of_leads_set {state : SearchState σ} {u : PUnit}
    (h : Leads (set state : Progress σ γ PUnit) p u q) : q = (state, p.2) := (h.eq_of_run rfl).2

theorem eq_of_leads_modify {f : SearchState σ → SearchState σ} {u : PUnit}
    (h : Leads (modify f : Progress σ γ PUnit) p u q) : q = (f p.1, p.2) := (h.eq_of_run rfl).2

theorem run_of_leads_attempt {m : Attempt γ α} (h : Leads (attempt m : Progress σ γ α) p a q) :
    m.run p.2 = .ok (.ok a, q.2) ∧ q.1 = p.1 := by
  change (m.run p.2 >>= fun r => Except.ok ((r.1, p.1), r.2)) = _ at h
  rcases hm : m.run p.2 with fault | ⟨r, g⟩
  · rw [hm] at h
    cases h
  · rw [hm] at h
    obtain ⟨⟨hr, hstate⟩, hg⟩ : (r = .ok a ∧ p.1 = q.1) ∧ g = q.2 := by simpa using Except.ok.inj h
    exact ⟨by rw [hr, hg], hstate.symm⟩

theorem eq_of_leads_ofExcept {r : Except Fault α}
    (h : Leads (draw (Draw.ofExcept r) : Progress σ γ α) p a q) : r = .ok a ∧ q = p := by
  rcases r with fault | b
  · cases h
  · obtain ⟨rfl, hq⟩ := h.eq_of_run (b := b) rfl
    exact ⟨rfl, hq⟩

end Progress

namespace Attempt

variable {γ ε α β : Type} {g g' : γ}

theorem exists_run_of_bind {x : ExceptT ε (Draw γ) α} {f : α → ExceptT ε (Draw γ) β} {b : β}
    (h : (x >>= f).run g = .ok (.ok b, g')) :
    ∃ a g₁, x.run g = .ok (.ok a, g₁) ∧ (f a).run g₁ = .ok (.ok b, g') := by
  change (x.run g >>= _) = _ at h
  rcases hx : x.run g with fault | ⟨e | a, g₁⟩
  · rw [hx] at h
    cases h
  · rw [hx] at h
    cases h
  · rw [hx] at h
    exact ⟨a, g₁, rfl, h⟩

theorem run_of_lift {d : Draw γ α} {a : α}
    (h : (liftM d : ExceptT ε (Draw γ) α).run g = .ok (.ok a, g')) : d g = .ok (a, g') := by
  change (d g >>= fun r => Except.ok (Except.ok r.1, r.2)) = _ at h
  rcases hd : d g with fault | ⟨b, g₁⟩
  · rw [hd] at h
    cases h
  · rw [hd] at h
    cases h
    rfl

end Attempt

/-- What one step of a search was about. -/
structure SearchTurn where
  candidate : Individual
  /-- The archived parent of a child and what the mutation touched; nothing for a sampled candidate. -/
  lineage : Option (Evaluated × List String)
  /-- What the evaluator answered in time. -/
  answer : Except EvaluationError Report

namespace SearchTurn

/-- The candidate with its report, unless the evaluation failed. -/
def evaluated? (t : SearchTurn) : Option Evaluated := t.answer.toOption.map (⟨t.candidate, ·⟩)

/-- An iteration, and an offer of the candidate if it was evaluated. -/
def archiveCalls (t : SearchTurn) : List ArchiveCall := .tick :: (t.evaluated?.map .offer).toList

/-- The record of the mutation, if one was evaluated: what came of it for the archive and against the
report on the parent. -/
def impactCalls (a : Archive) (t : SearchTurn) : List ImpactCall :=
  match t.evaluated?, t.lineage with
  | some e, some (parent, touched) =>
    let i := (a.tick.offer e).1
    [⟨touched, .between parent.scores e.scores i.isReal i.gain⟩]
  | _, _ => []

/-- The records of turns one after the other. -/
def allImpactCalls : Archive → List SearchTurn → List ImpactCall
  | _, [] => []
  | a, t :: rest => t.impactCalls a ++ allImpactCalls (ArchiveCall.runAll t.archiveCalls a) rest

end SearchTurn

open Progress

namespace Search

variable {σ γ : Type} [RandomSource γ] {s : Search σ} {p q r : SearchPoint σ γ} {t : SearchTurn}
  {turns : List SearchTurn} {n : Nat}

/-- Is the candidate drawn from an archive and impact records: sampled, or mutated from an archived
parent? -/
def Draws (s : Search σ) (state : SearchState σ) (g g' : γ) (t : SearchTurn) : Prop :=
  match t.lineage with
  | none => ∃ g₁, s.drawParent state.archive g = .ok (none, g₁) ∧
      (s.sampler.individual state.nextIdentity).run g₁ = .ok (.ok t.candidate, g')
  | some (parent, touched) => ∃ g₁ mutant, s.drawParent state.archive g = .ok (some parent, g₁) ∧
      (∃ h ∈ state.archive.holdings.values, h.holder = parent) ∧
      (s.mutator.mutate s.sampler (some state.impacts) state.nextIdentity parent.individual).run g₁ =
        .ok (.ok mutant, g') ∧
      mutant.individual = t.candidate ∧ mutant.touched = touched

/-- Does a step lead from one point to another in a turn: with this candidate, drawn after the tick, and
this answer of the evaluator, whose state moves on? -/
structure Plays (s : Search σ) (p : SearchPoint σ γ) (t : SearchTurn) (q : SearchPoint σ γ) : Prop where
  leads : ∃ o, Leads s.step p o q
  draws : s.Draws { p.1 with archive := p.1.archive.tick } p.2 q.2 t
  answer : t.answer = (s.evaluator.call t.candidate p.1.evaluator).1.within s.settings.timeout
  evaluator : q.1.evaluator = (s.evaluator.call t.candidate p.1.evaluator).2

/-- Turns that are played one after the other. -/
inductive PlaysAll (s : Search σ) : SearchPoint σ γ → List SearchTurn → SearchPoint σ γ → Prop
  | nil (p : SearchPoint σ γ) : PlaysAll s p [] p
  | cons {p q r : SearchPoint σ γ} {t : SearchTurn} {turns : List SearchTurn} :
    s.Plays p t q → PlaysAll s q turns r → PlaysAll s p (t :: turns) r

/-- Do the accounts change from one state to another as the turns in between say? -/
structure Accounts (turns : List SearchTurn) (before after : SearchState σ) : Prop where
  evaluations : after.evaluations = before.evaluations + turns.length
  iteration : after.archive.iteration = before.archive.iteration + turns.length
  abandoned : after.abandoned = before.abandoned + turns.countP (·.evaluated?.isNone)
  archive : after.archive = ArchiveCall.runAll (turns.flatMap (·.archiveCalls)) before.archive
  impacts : ImpactCall.recordAll (SearchTurn.allImpactCalls before.archive turns) before.impacts =
    .ok after.impacts

omit [RandomSource γ] in
theorem Accounts.nil (state : SearchState σ) : Accounts [] state state := ⟨rfl, rfl, rfl, rfl, rfl⟩

theorem Accounts.cons {u v w : SearchState σ} (h : Accounts [t] u v) (k : Accounts turns v w) :
    Accounts (t :: turns) u w where
  evaluations := by rw [k.evaluations, h.evaluations, List.length_singleton, List.length_cons]; omega
  iteration := by rw [k.iteration, h.iteration, List.length_singleton, List.length_cons]; omega
  abandoned := by
    rw [k.abandoned, h.abandoned, ← List.singleton_append (l := turns), List.countP_append]
    omega
  archive := by
    have hfirst := h.archive
    rw [List.flatMap_singleton] at hfirst
    rw [k.archive, hfirst, List.flatMap_cons]
    exact (List.foldl_append ..).symm
  impacts := by
    have hfirst := h.archive
    have himpacts := h.impacts
    rw [List.flatMap_singleton] at hfirst
    rw [SearchTurn.allImpactCalls, SearchTurn.allImpactCalls, List.append_nil] at himpacts
    rw [SearchTurn.allImpactCalls, ImpactCall.recordAll, List.foldlM_append, ← hfirst]
    rw [ImpactCall.recordAll] at himpacts
    rw [himpacts]
    exact k.impacts

theorem holds_of_sample {a : Archive} {e : Evaluated} (h : Gives (a.sample : Draw γ _) (some e)) :
    ∃ k ∈ a.holdings.values, k.holder = e := by
  rw [Archive.sample] at h
  split at h
  · cases Draw.eq_of_gives_pure h
  · obtain ⟨i, -, h⟩ := Draw.gives_of_bind h
    split at h
    · next k hk =>
      obtain rfl := Option.some.inj (Draw.eq_of_gives_pure h)
      have hpool : k ∈ a.pool := List.mem_of_getElem? hk
      rw [Archive.pool] at hpool
      split at hpool
      · exact ⟨k, hpool, rfl⟩
      · exact ⟨k, List.mem_of_mem_filter hpool, rfl⟩
    · exact absurd h Draw.not_gives_fault

theorem holds_of_drawParent {a : Archive} {e : Evaluated}
    (h : Gives (s.drawParent a : Draw γ _) (some e)) : ∃ k ∈ a.holdings.values, k.holder = e := by
  rw [drawParent] at h
  split at h
  · cases Draw.eq_of_gives_pure h
  · obtain ⟨fresh, -, h⟩ := Draw.gives_of_bind h
    split at h
    · cases Draw.eq_of_gives_pure h
    · exact holds_of_sample h

theorem draws_of_drawTrial {state : SearchState σ} {g g' : γ} {trial : Trial}
    (h : (s.drawTrial state).run g = .ok (.ok trial, g')) (answer : Except EvaluationError Report) :
    ∃ lineage, s.Draws state g g' ⟨trial.individual, lineage, answer⟩ ∧
      trial.lineage = lineage.map fun l => (l.1.report, l.2) := by
  obtain ⟨parent, g₁, hparent, h⟩ := Attempt.exists_run_of_bind h
  have hparent := Attempt.run_of_lift hparent
  cases parent with
  | none =>
    obtain ⟨ind, g₂, hind, h⟩ := Attempt.exists_run_of_bind h
    cases h
    exact ⟨none, ⟨g₁, hparent, hind⟩, rfl⟩
  | some parent =>
    obtain ⟨mutant, g₂, hmutant, h⟩ := Attempt.exists_run_of_bind h
    cases h
    have hheld := holds_of_drawParent ⟨g, g₁, hparent⟩
    exact ⟨some (parent, mutant.touched), ⟨g₁, mutant, hparent, hheld, hmutant, rfl, rfl⟩, rfl⟩

/-- A step that succeeds plays a turn and keeps the accounts by it. -/
theorem exists_turn {o : StepOutcome} (h : Leads s.step p o q) :
    ∃ t, s.Plays p t q ∧ Accounts [t] p.1 q.1 := by
  have hstep := h
  rw [step] at h
  obtain ⟨_, p₁, hmodify, h⟩ := leads_bind_iff.mp h
  obtain rfl := eq_of_leads_modify hmodify
  obtain ⟨state, p₂, hget, h⟩ := leads_bind_iff.mp h
  obtain ⟨rfl, rfl⟩ := eq_of_leads_get hget
  obtain ⟨trial, p₃, htrial, h⟩ := leads_bind_iff.mp h
  obtain ⟨hdrawn, hp₃⟩ := run_of_leads_attempt htrial
  obtain ⟨state, p₄, hget, h⟩ := leads_bind_iff.mp h
  obtain ⟨rfl, rfl⟩ := eq_of_leads_get hget
  obtain ⟨lineage, hdraws, hlineage⟩ := draws_of_drawTrial hdrawn
    ((s.evaluator.call trial.individual p.1.evaluator).1.within s.settings.timeout)
  obtain ⟨state₃, g₃⟩ := p₄
  simp only at hp₃ hdraws
  subst hp₃
  simp only [evaluate] at h
  cases hanswer : (s.evaluator.call trial.individual p.1.evaluator).1.within s.settings.timeout with
  | error e =>
    rw [hanswer] at h hdraws
    obtain ⟨_, p₅, hset, h⟩ := leads_bind_iff.mp h
    obtain rfl := eq_of_leads_set hset
    obtain ⟨-, rfl⟩ := eq_of_leads_pure h
    exact ⟨⟨trial.individual, lineage, .error e⟩, ⟨⟨o, hstep⟩, hdraws, hanswer.symm, rfl⟩,
      rfl, rfl, rfl, rfl, rfl⟩
  | ok report =>
    rw [hanswer] at h hdraws
    obtain ⟨impacts, p₅, himpacts, h⟩ := leads_bind_iff.mp h
    obtain ⟨hrecorded, rfl⟩ := eq_of_leads_ofExcept himpacts
    obtain ⟨_, p₆, hset, h⟩ := leads_bind_iff.mp h
    obtain rfl := eq_of_leads_set hset
    obtain ⟨-, rfl⟩ := eq_of_leads_pure h
    refine ⟨⟨trial.individual, lineage, .ok report⟩, ⟨⟨o, hstep⟩, hdraws, hanswer.symm, rfl⟩,
      rfl, ?_, rfl, rfl, ?_⟩
    · exact (Archive.at?_offer _ _ "").1
    · rw [hlineage] at hrecorded
      cases lineage with
      | none => exact hrecorded
      | some l => exact (bind_pure _).trans hrecorded

/-- Steps that succeed play turns and keep the accounts by them. -/
theorem exists_turns (h : Leads (s.steps n) p ⟨⟩ q) :
    ∃ turns, s.PlaysAll p turns q ∧ turns.length = n ∧ Accounts turns p.1 q.1 := by
  induction n generalizing p with
  | zero =>
    obtain ⟨-, rfl⟩ := eq_of_leads_pure h
    exact ⟨[], .nil q, rfl, .nil q.1⟩
  | succ n ih =>
    obtain ⟨o, r, hstep, hrest⟩ := leads_bind_iff.mp h
    obtain ⟨t, hplays, hfirst⟩ := exists_turn hstep
    obtain ⟨turns, hall, hlength, hmore⟩ := ih hrest
    exact ⟨t :: turns, .cons hplays hall, by rw [List.length_cons, hlength], hfirst.cons hmore⟩

/-- A run takes one step after the other while evaluations are left. -/
theorem run_eq (s : Search σ) (state : SearchState σ) (g : γ) :
    s.run.run.run state g =
      if state.evaluations < s.settings.maxEvaluations then
        (s.step >>= fun _ => s.run : Progress σ γ _).run.run state g
      else .ok ((.ok (summary state), state), g) := by
  have hrun : ∀ state (g : γ), s.run.run.run state g =
      (s.steps (s.settings.maxEvaluations - state.evaluations) >>= fun _ =>
        (get >>= fun state => pure (summary state) : Progress σ γ _)).run.run state g := fun _ _ => rfl
  split
  · next hlt =>
    obtain ⟨n, hn⟩ : ∃ n, s.settings.maxEvaluations - state.evaluations = n + 1 :=
      ⟨s.settings.maxEvaluations - state.evaluations - 1, by omega⟩
    rw [hrun, hn, steps, bind_assoc, run_bind, run_bind]
    rcases hstep : s.step.run.run state g with fault | ⟨⟨e | o, next⟩, g'⟩
    · rfl
    · rfl
    · obtain ⟨t, -, hfirst⟩ := exists_turn (p := (state, g)) (q := (next, g')) hstep
      have hcount : next.evaluations = state.evaluations + 1 := hfirst.evaluations
      have hleft : s.settings.maxEvaluations - next.evaluations = n := by omega
      simp only [hrun, hleft]
  · next hge =>
    rw [hrun, Nat.sub_eq_zero_of_le (Nat.not_lt.mp hge)]
    rfl

/-- Steps that fit into the evaluations that are left belong to the run. -/
theorem run_eq_of_steps (h : Leads (s.steps n) p ⟨⟩ q)
    (hn : p.1.evaluations + n ≤ s.settings.maxEvaluations) :
    s.run.run.run p.1 p.2 = s.run.run.run q.1 q.2 := by
  induction n generalizing p with
  | zero =>
    obtain ⟨-, rfl⟩ := eq_of_leads_pure h
    rfl
  | succ n ih =>
    obtain ⟨o, r, hstep, hrest⟩ := leads_bind_iff.mp h
    obtain ⟨t, -, hfirst⟩ := exists_turn hstep
    have hcount := hfirst.evaluations
    rw [List.length_singleton] at hcount
    rw [run_eq, if_pos (by omega), run_bind, hstep]
    exact ih hrest (by omega)

theorem evaluations_of_run {summary : SearchSummary} (h : Leads s.run p summary q) :
    q.1.evaluations = max p.1.evaluations s.settings.maxEvaluations ∧ summary = Search.summary q.1 := by
  obtain ⟨state, r, hget, h⟩ := leads_bind_iff.mp h
  obtain ⟨rfl, rfl⟩ := eq_of_leads_get hget
  obtain ⟨⟨⟩, r', hsteps, h⟩ := leads_bind_iff.mp h
  obtain ⟨state, r'', hget, h⟩ := leads_bind_iff.mp h
  obtain ⟨rfl, rfl⟩ := eq_of_leads_get hget
  obtain ⟨rfl, rfl⟩ := eq_of_leads_pure h
  obtain ⟨turns, -, hlength, haccounts⟩ := exists_turns hsteps
  rw [haccounts.evaluations, hlength]
  exact ⟨by omega, rfl⟩

/-- After `n` steps that all succeeded there were `n` turns, each with a candidate that was sampled or
mutated from an archived parent, and the evaluator's answer to it. Evaluations and iterations are as
many as turns, abandoned evaluations as many as answers that are errors. The archive is what an iteration
for every turn and an offer of every evaluated candidate make of the empty one, and the impact records are
those of the evaluated mutations, each against its parent. A run takes these steps, too, as long as
evaluations are left, and ends when there are none. -/
theorem accounts_of_steps (s : Search σ) (evaluator : σ) (g g' : γ) (n : Nat) (state : SearchState σ)
    (hsteps : Leads (s.steps n) (s.start evaluator, g) ⟨⟩ (state, g')) :
    (∃ turns, s.PlaysAll (s.start evaluator, g) turns (state, g') ∧ turns.length = n ∧
      state.evaluations = n ∧ state.archive.iteration = n ∧
      state.abandoned = turns.countP (·.evaluated?.isNone) ∧
      state.archive =
        ArchiveCall.runAll (turns.flatMap (·.archiveCalls)) { settings := s.settings.archive } ∧
      ImpactCall.recordAll (SearchTurn.allImpactCalls { settings := s.settings.archive } turns) {} =
        .ok state.impacts) ∧
    (n < s.settings.maxEvaluations → s.run.run.run (s.start evaluator) g =
      (s.step >>= fun _ => s.run : Progress σ γ _).run.run state g') ∧
    (n = s.settings.maxEvaluations → s.run.run.run (s.start evaluator) g =
      .ok ((.ok (summary state), state), g')) ∧
    ∀ total final, Leads s.run (s.start evaluator, g) total final →
      final.1.evaluations = s.settings.maxEvaluations ∧ total = summary final.1 := by
  obtain ⟨turns, hplays, hlength, haccounts⟩ := exists_turns hsteps
  have hevaluations : state.evaluations = n := by
    rw [haccounts.evaluations, hlength]
    exact Nat.zero_add n
  have hiteration : state.archive.iteration = n := by
    rw [haccounts.iteration, hlength]
    exact Nat.zero_add n
  have habandoned := haccounts.abandoned.trans (Nat.zero_add _)
  have hrun : n ≤ s.settings.maxEvaluations →
      s.run.run.run (s.start evaluator) g = s.run.run.run state g' := fun hn =>
    run_eq_of_steps hsteps ((Nat.zero_add n).trans_le hn)
  refine ⟨⟨turns, hplays, hlength, hevaluations, hiteration, habandoned, haccounts.archive,
    haccounts.impacts⟩, fun hn => ?_, fun hn => ?_, fun total final htotal => ?_⟩
  · rw [hrun hn.le, run_eq, hevaluations, if_pos hn]
  · rw [hrun hn.le, run_eq, hevaluations, if_neg (hn ▸ Nat.lt_irrefl n)]
  · obtain ⟨hlast, rfl⟩ := evaluations_of_run htotal
    exact ⟨hlast.trans (Nat.max_eq_right (Nat.zero_le _)), rfl⟩

/-- Nothing is archived before the first step, so its candidate is sampled. The second one is a child of
it whose evaluation fails, the third one a child whose mutation is recorded, and the run ends there. -/
theorem accounts_of_steps_of_failure :
    let call := Action.rpc "shop" "list" [⟨"count", .query, .integerIn "count" 0 9⟩]
    let s : Search Nat := {
      settings := { freshProbability := 0, maxEvaluations := 3 }
      sampler := { settings := { maxSize := 1 }, catalog := Sampler.catalogOf [call] }
      mutator := ⟨{ structureProbability := 0 }⟩
      evaluator := Simulation.evaluator { failureEvery := some 2 } }
    ∃ state g, Leads (s.steps 3) (s.start 0, (⟨[], 1⟩ : WordSource)) ⟨⟩ (state, g) ∧
      state.evaluations = 3 ∧ state.archive.iteration = 3 ∧ state.abandoned = 1 ∧
      state.impacts.records.map (fun r => r.2.manipulations) = [1] ∧
      s.run.run.run (s.start 0) (⟨[], 1⟩ : WordSource) = .ok ((.ok (summary state), state), g) := by
  intro call s
  have hmade : (result? (s.steps 3) (s.start 0, (⟨[], 1⟩ : WordSource))).map (fun r =>
      (r.2.1.abandoned, r.2.1.impacts.records.map fun r => r.2.manipulations)) = some (1, [1]) := by
    decide +kernel
  have hmax : 3 = s.settings.maxEvaluations := rfl
  clear_value s
  cases hresult : result? (s.steps 3) (s.start 0, (⟨[], 1⟩ : WordSource)) with
  | none =>
    rw [hresult] at hmade
    cases hmade
  | some r =>
    obtain ⟨⟨⟩, state, g⟩ := r
    rw [hresult] at hmade
    obtain ⟨habandoned, himpacts⟩ := Prod.mk.inj (Option.some.inj hmade)
    have hsteps := leads_of_result? hresult
    obtain ⟨⟨turns, -, -, hevaluations, hiteration, -⟩, -, hrun, -⟩ :=
      accounts_of_steps s 0 (⟨[], 1⟩ : WordSource) g 3 state hsteps
    exact ⟨state, g, hsteps, hevaluations, hiteration, habandoned, himpacts, hrun hmax⟩

end Search
end CallEvolution
