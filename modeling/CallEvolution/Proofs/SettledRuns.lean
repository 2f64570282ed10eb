import CallEvolution.Proofs.AnchoredLinks

/-! Runs that leave settled values. What the sampler and the mutator give away has just been through a pass
over its links. If these come in the order of their targets, another pass changes nothing. -/

namespace CallEvolution

open Individual

variable {γ : Type}

namespace Individual

variable {ind s u v : Individual} {a b : GeneAddress} {n : Nat}

/-- Does another pass over the links come to its end and leave every value as it is? -/
def IsSettled (γ : Type) (ind : Individual) : Prop :=
  ∃ n again, Revision.Yields (Revision.sync : Revision γ Nat) ind (.ok n) again ∧
    ∀ id i t, ind.gene id i = .ok t → ∃ u, again.gene id i = .ok u ∧ t.SameValue u

/-- Is the individual what a pass over anchored links has left, whatever its descent? -/
def IsSynced (γ : Type) (ind : Individual) : Prop :=
  ∃ v n u d, v.Anchored ∧ Gives ((Revision.sync : Revision γ Nat).run.run v) (.ok n, u) ∧
    ind = { u with descent := d }

theorem Meet.alike (h : s.Meet a b) (hsu : s.Alike u) : u.Meet a b := by
  obtain ⟨haction, hparam, v, x, hv, hxa, hxb⟩ := h
  obtain ⟨w, hw, hmould⟩ := hsu _ _ v hv
  obtain ⟨_, hold⟩ := hv.exists_holds
  obtain ⟨_, hold'⟩ := hw.exists_holds
  have hcovers : ∀ {y}, v.Covers y x → w.Covers y x := fun h =>
    hold.covers_of_mould hold' hmould.symm h
  exact ⟨haction, hparam, w, x, hw, hcovers hxa, hcovers hxb⟩

theorem isForward_iff_of_alike (hsu : s.Alike u) (hlinks : u.links = s.links)
    (hends : ∀ l ∈ s.links, s.Carries l.source) : u.IsForward ↔ s.IsForward := by
  have hmeet : ∀ l ∈ s.links, ∀ b, u.Meet l.source b ↔ s.Meet l.source b := fun l hl b =>
    ⟨fun h => h.of_alike hsu (hends l hl), fun h => h.alike hsu⟩
  have hself : (∀ l ∈ s.links, ¬ u.Meet l.source l.target) ↔
      ∀ l ∈ s.links, ¬ s.Meet l.source l.target :=
    forall₂_congr fun l hl => not_congr (hmeet l hl _)
  have hpairs : (s.links.Pairwise fun l k => ¬ u.Meet l.source k.target) ↔
      s.links.Pairwise fun l k => ¬ s.Meet l.source k.target :=
    List.Pairwise.iff_of_mem fun hl _ => not_congr (hmeet _ hl _)
  rw [IsForward, IsForward, hlinks, hself, hpairs]

theorem alike_of_sync (hind : ind.Anchored)
    (h : Gives ((Revision.sync : Revision γ Nat).run.run ind) (.ok n, u)) : ind.Alike u := by
  have hrun : Gives ((Revision.applyAll ind.links : Revision γ Nat).run.run ind) (.ok n, u) := h
  exact (Revision.kept_of_applyAll hind.ends hrun).1

theorem isForward_sync_iff (hind : ind.Anchored)
    (h : Gives ((Revision.sync : Revision γ Nat).run.run ind) (.ok n, u)) :
    u.IsForward ↔ ind.IsForward :=
  isForward_iff_of_alike (alike_of_sync hind h) (Revision.kept_of_sync h).1 fun l hl => (hind.ends l hl).1

theorem IsSynced.anchored (h : ind.IsSynced γ) : ind.Anchored := by
  obtain ⟨v, n, u, d, hv, hsync, rfl⟩ := h
  exact (hv.sync hsync).withDescent d

theorem IsSynced.isSettled (h : ind.IsSynced γ) (hforward : ind.IsForward) : ind.IsSettled γ := by
  obtain ⟨v, n, u, d, hv, hsync, rfl⟩ := h
  have hv' : v.IsForward := (isForward_sync_iff hv hsync).mp hforward
  exact ⟨n, Revision.settles_of_sync d hv.sound hv.ends hv' hsync⟩

end Individual

variable [RandomSource γ] {s : Sampler} {seed : Seed} {ind u : Individual}

namespace Sampler

variable {rows : List Action} {names : List String} {ids : List ActionId} {links : List SeedLinks}
  {identity n : Nat}

theorem anchored_addInit (hrows : ∀ a ∈ rows, a.IsSound) (hind : ind.Anchored) (hlinks : ind.links = [])
    (h : Attempt.Yields (addInit rows ind : Attempt γ Individual) u) : u.Anchored ∧ u.links = [] := by
  induction rows generalizing ind with
  | nil =>
    rw [Attempt.eq_of_pure h]
    exact ⟨hind, hlinks⟩
  | cons a rows ih =>
    obtain ⟨ha, hrows⟩ := List.forall_mem_cons.mp hrows
    obtain ⟨⟨_, b⟩, hb, h⟩ := Attempt.of_bind h
    have hb := Action.sound_of_randomize ha (Attempt.gives_of_ofChange hb)
    exact ih hrows (hind.addInit hb) hlinks h

theorem anchored_addNamed (hs : s.IsSound) (hind : ind.Anchored)
    (h : Attempt.Yields (s.addNamed seed names ind : Attempt γ (List ActionId × Individual)) (ids, u)) :
    u.Anchored := by
  induction names generalizing ind ids with
  | nil =>
    have hu : u = ind := congrArg Prod.snd (Attempt.eq_of_pure h)
    exact hu ▸ hind
  | cons name names ih =>
    obtain ⟨template, a, ids', htemplate, ha, -, h⟩ := steps_of_addNamed h
    have ha := sound_of_fromTemplate (hs.at? htemplate) ha
    exact ih (hind.addMain ha) h

omit [RandomSource γ] in
theorem anchored_followLinks (hids : ∀ id ∈ ids, id ∈ ind.mainIds)
    (h : Attempt.Yields (s.followLinks ids links ind : Attempt γ Individual) u) : ind.Anchored → u.Anchored :=
  respects_followLinks (Q := fun ind u => ind.Anchored → u.Anchored) (fun _ h => h)
    (fun _ _ _ h h' hind => h' (h hind)) (fun _ _ _ _ _ _ _ hlink hind => hind.linkRows hlink) hids h

theorem anchored_addRandomActions (hs : s.IsSound) (hind : ind.Anchored)
    (h : Attempt.Yields (s.addRandomActions n ind : Attempt γ Individual) u) :
    u.Anchored ∧ u.links = ind.links := by
  induction n generalizing ind with
  | zero =>
    rw [Attempt.eq_of_pure h]
    exact ⟨hind, rfl⟩
  | succ n ih =>
    obtain ⟨a, ha, h⟩ := Attempt.of_bind h
    have hrest := ih (hind.addMain (sound_of_randomAction hs ha)) h
    exact hrest

/-- An individual that is linked at once and gets no links of directives. -/
theorem isForward_of_linkAll {linked : Individual} (hind : ind.Anchored) (hlinks : ind.links = [])
    (hlink : Gives ((s.linker.linkAll : Linking γ Nat).run.run ind) (.ok n, linked)) :
    linked.IsForward :=
  (Linker.forward_of_linkAll hind.coherent.ids_distinct hlinks hind.sound hlink).2.1

theorem isSynced_of_randomIndividual (hs : s.IsSound)
    (h : Attempt.Yields (s.randomIndividual identity : Attempt γ Individual) u) :
    u.IsSynced γ ∧ u.IsForward := by
  obtain ⟨size, -, h⟩ := Attempt.of_bind h
  obtain ⟨v₁, hactions, h⟩ := Attempt.of_bind h
  obtain ⟨⟨n, v₂⟩, hlink, h⟩ := Attempt.of_bind h
  obtain ⟨⟨k, v₃⟩, hsync, h⟩ := Attempt.of_bind h
  rw [Attempt.eq_of_pure h]
  obtain ⟨hv₁, hlinks⟩ := anchored_addRandomActions hs (.new .random identity) hactions
  have hlink := Attempt.gives_of_ofChange hlink
  have hsync := Attempt.gives_of_ofChange hsync
  have hv₂ := hv₁.linkAll hlink
  have hforward := isForward_of_linkAll hv₁ hlinks hlink
  exact ⟨⟨v₂, k, v₃, v₃.descent, hv₂, hsync, rfl⟩, (isForward_sync_iff hv₂ hsync).mpr hforward⟩

theorem isSynced_of_fromSeed (hs : s.IsSound) (hrows : ∀ a ∈ seed.init, a.IsSound)
    (h : Attempt.Yields (s.fromSeed seed identity : Attempt γ Individual) u) :
    u.IsSynced γ ∧ (seed.links = [] → u.IsForward) := by
  obtain ⟨v₁, ids, v₂, changed, v₃, n, v₄, v₅, k, hinit, hnamed, hrepair, hlink, hids, hfollow, hsync⟩ :=
    steps_of_fromSeed h
  obtain ⟨hv₁, hnone⟩ := anchored_addInit hrows (.new .smart identity) rfl hinit
  have hv₂ := anchored_addNamed hs hv₁ hnamed
  have hlinks : v₂.links = [] := (keepsExisting_addNamed hnamed).2.2.2.trans hnone
  obtain ⟨hv₃, hlinks⟩ := hv₂.repair hlinks hrepair
  have hv₄ := hv₃.linkAll hlink
  have hv₅ := anchored_followLinks hids hfollow hv₄
  refine ⟨⟨v₅, k, u, u.descent, hv₅, hsync, rfl⟩, fun hempty => ?_⟩
  rw [hempty] at hfollow
  have hsame : v₅ = v₄ := Attempt.eq_of_pure hfollow
  have hforward := isForward_of_linkAll hv₃ hlinks hlink
  exact (isForward_sync_iff hv₅ hsync).mpr (hsame ▸ hforward)

/-- Is an individual one that the sampler can make, of random actions or from a seed? -/
def Makes (γ : Type) [RandomSource γ] (s : Sampler) (ind : Individual) : Prop :=
  (∃ identity, Attempt.Yields (s.randomIndividual identity : Attempt γ Individual) ind) ∨
    ∃ seed identity, (∀ a ∈ seed.init, a.IsSound) ∧
      Attempt.Yields (s.fromSeed seed identity : Attempt γ Individual) ind

theorem Makes.isSynced (hs : s.IsSound) (h : s.Makes γ ind) : ind.IsSynced γ := by
  rcases h with ⟨identity, h⟩ | ⟨seed, identity, hrows, h⟩
  · exact (isSynced_of_randomIndividual hs h).1
  · exact (isSynced_of_fromSeed hs hrows h).1

end Sampler

theorem Mutator.Bears.isSynced (hs : s.IsSound) (hind : ind.Anchored) (h : Mutator.Bears γ s ind u) :
    u.IsSynced γ := by
  obtain ⟨m, impacts, identity, mutant, hmutant, rfl⟩ := h
  obtain ⟨changed, n, synced, hchanged, hsynced, rfl⟩ := steps_of_mutate hmutant
  exact ⟨changed.individual, n, synced, _, (respects_anchored hs).change hchanged hind, hsynced, rfl⟩

/-- However often an individual of the sampler is mutated, its values are settled when no link leads to
where it or an earlier link starts. -/
theorem Sampler.isSettled_of_descent (s : Sampler) (ind u : Individual) (hs : s.IsSound)
    (hmade : s.Makes γ ind)
    (hdescent : Relation.ReflTransGen (fun ind u => ∃ s, s.IsSound ∧ Mutator.Bears γ s ind u) ind u)
    (hforward : u.IsForward) : u.IsSettled γ := by
  have hsynced : u.IsSynced γ := by
    -- every mutation ends with a pass; the order of the links matters for the last one only
    clear hforward
    induction hdescent with
    | refl => exact hmade.isSynced hs
    | tail _ hborn ih =>
      obtain ⟨s', hs', hborn⟩ := hborn
      exact hborn.isSynced hs' ih.anchored
  exact hsynced.isSettled hforward

theorem Individual.isForward_of_actions {ind : Individual}
    (hself : ∀ l ∈ ind.links, l.source.action ≠ l.target.action)
    (hpairs : ind.links.Pairwise fun l k => l.source.action ≠ k.target.action) : ind.IsForward :=
  ⟨fun l hl hmeet => hself l hl hmeet.1, hpairs.imp fun hne hmeet => hne hmeet.1⟩

/-- Two calls for one user, and the number of the first one is changed. -/
theorem Sampler.isSettled_of_descent_of_calls :
    let call := Action.http .get "/users/\x7bid\x7d" [⟨"id", .path, .longIn "id" 0 99⟩]
    let s : Sampler := { settings := {}, catalog := catalogOf [call] }
    ∃ ind u : Individual, s.Makes WordSource ind ∧ Mutator.Bears WordSource s ind u ∧
      u.links.length = 1 ∧ u.IsSettled WordSource := by
  intro call s
  let seed : Seed := { name := "users", main := [call.name, call.name] }
  let m : Mutator := ⟨{ structureProbability := 0 }⟩
  let made : Option (Individual × WordSource) := Attempt.result? (s.fromSeed seed 0) ⟨[], 1⟩
  have hruns : (made.bind fun r => (Attempt.result? (m.mutate s none 1 r.1) r.2).map fun r' =>
      r'.1.individual.links.map fun l => (l.source.action, l.target.action)) = some [(⟨1⟩, ⟨2⟩)] := by
    decide +kernel
  have hs : s.IsSound := by
    have hcall : call.IsSound := by
      simpa [call, Action.IsSound, Action.http, Action.template] using
        (GeneTree.Built.longIn "id" 0 99).wellFormed
    have hvalues : s.catalog.values = [call] := rfl
    simpa [IsSound, hvalues] using hcall
  have hrows : ∀ a ∈ seed.init, a.IsSound := List.forall_mem_nil _
  obtain ⟨⟨ind, g⟩, hmade, hborn⟩ := Option.bind_eq_some_iff.mp hruns
  obtain ⟨⟨mutant, g'⟩, hmutant, hlinks⟩ := Option.map_eq_some_iff.mp hborn
  obtain ⟨l, hl, hends⟩ : ∃ l, mutant.individual.links = [l] ∧ (l.source.action, l.target.action) = _ :=
    List.map_eq_singleton_iff.mp hlinks
  clear_value m s seed
  have hmade : s.Makes WordSource ind :=
    .inr ⟨seed, 0, hrows, ⟨⟨[], 1⟩, g, Attempt.run_of_result? hmade⟩⟩
  have hborn : Mutator.Bears WordSource s ind mutant.individual :=
    ⟨m, none, 1, mutant, ⟨g, g', Attempt.run_of_result? hmutant⟩, rfl⟩
  have hne : l.source.action ≠ l.target.action := by
    obtain ⟨hsource, htarget⟩ := Prod.mk.inj hends
    rw [hsource, htarget]
    decide
  have hforward : mutant.individual.IsForward :=
    isForward_of_actions (by simpa [hl] using hne) (by simp [hl])
  have hsettled :=
    isSettled_of_descent s ind mutant.individual hs hmade (.single ⟨s, hs, hborn⟩) hforward
  exact ⟨ind, mutant.individual, hmade, hborn, by simp [hl], hsettled⟩

/-- The link from a row to the first of two calls for one user is registered behind the link from that
call to the second one, which gets the key of the row by another pass only. -/
theorem Sampler.fromSeed_leaves_value_behind :
    let call := Action.http .get "/users/\x7bid\x7d" [⟨"id", .path, .longIn "id" 0 99⟩]
    let row := Action.db "users" [⟨"id", .dbColumn, .primaryKey "id" "users" (.longIn "id" 0 99) 1⟩]
    let s : Sampler := { settings := {}, catalog := catalogOf [call] }
    let directive : DbDirective := { table := "users", column := "id", param := "id" }
    let seed : Seed := ⟨"users", [row], [call.name, call.name], [⟨0, [directive]⟩]⟩
    let texts (ind : Individual) : List (Option String) := ind.actions.flatMap fun a =>
      a.params.map fun p => (p.gene.printable p.gene.root).toOption
    let run : Attempt WordSource (List (Option String) × List (Option String)) := do
      let ind ← s.fromSeed seed 0
      let (_, again) ← Attempt.revise ind Revision.sync
      return (texts ind, texts again)
    (run.run ⟨[], 1⟩).map Prod.fst =
      .ok (.ok ([some "56", some "56", some "74"], [some "56", some "56", some "56"])) := by
  decide +kernel

end CallEvolution
