import CallEvolution.Proofs.Construction
import CallEvolution.Proofs.DueLinks
import CallEvolution.Random.Words

/-! Links that are out of date. Linking an action anew adds the links that are proposed for it and takes none
away, so those that were proposed once and are not any more stay. -/

namespace CallEvolution

open GeneTree

/-- Does a link lead along parameters from a main action to another one, of which one is given? -/
def Individual.Attaches (ind : Individual) (a : Action) (l : Link) : Prop :=
  l.origin = .params ∧ ∃ b ∈ ind.main, b.id ≠ a.id ∧
    (l.source.action = b.id ∧ l.target.action = a.id ∨ l.source.action = a.id ∧ l.target.action = b.id)

namespace Linker

/-- Is a link found, as things are, from an earlier main action to the given one or from that to a later
one? -/
def Proposes (γ : Type) [RandomSource γ] (r : Linker) (ind : Individual) (a : Action) (l : Link) : Prop :=
  ∃ pre post, ind.main = pre ++ a :: post ∧
    ((∃ b ∈ pre, r.Finds γ b a l) ∨ ∃ b ∈ post, r.Finds γ a b l)

variable {γ : Type} [RandomSource γ] [Nonempty γ] {r : Linker} {ind : Individual} {a : Action} {l : Link}

theorem proposes_iff (hids : ind.ids.Nodup) (ha : a ∈ ind.main) :
    r.Proposes γ ind a l ↔ r.Due γ ind l ∧ l.involves a.id = true := by
  constructor
  · rintro ⟨pre, post, hmain, hfinds⟩
    exact (due_and_involves_iff hids hmain).mpr hfinds
  · intro hdue
    obtain ⟨pre, post, hmain⟩ := List.append_of_mem ha
    exact ⟨pre, post, hmain, (due_and_involves_iff hids hmain).mp hdue⟩

theorem attaches_of_proposes (hids : ind.ids.Nodup) (h : r.Proposes γ ind a l) : ind.Attaches a l := by
  obtain ⟨pre, post, hmain, hfinds⟩ := h
  have hnodup := Individual.mainIds_nodup hids
  rw [Individual.mainIds, hmain, List.map_append, List.map_cons, List.nodup_append] at hnodup
  rcases hfinds with ⟨b, hb, hfinds⟩ | ⟨b, hb, hfinds⟩
  · have hne : b.id ≠ a.id := hnodup.2.2 b.id (List.mem_map_of_mem hb) a.id List.mem_cons_self
    have hbmain : b ∈ ind.main := by simp [hmain, hb]
    exact ⟨(leads_of_finds hne hfinds).1, b, hbmain, hne, .inl (ends_of_finds hne hfinds)⟩
  · have hne : a.id ≠ b.id := fun he =>
      (List.nodup_cons.mp hnodup.2.1).1 (he ▸ List.mem_map_of_mem hb)
    have hbmain : b ∈ ind.main := by simp [hmain, hb]
    exact ⟨(leads_of_finds hne hfinds).1, b, hbmain, hne.symm, .inr (ends_of_finds hne hfinds)⟩

omit [Nonempty γ] in
/-- Linking an action anew ends and adds the links that are proposed for it and not there yet, each once. All
other links stay, so those of the action are the proposed ones if and only if no old one is out of date. -/
theorem relink_adds_proposed (g : γ) (hr : r.IsDefinite) (hids : ind.ids.Nodup)
    (htrees : ∀ a ∈ ind.main, ∀ p ∈ a.params, p.gene.WellFormed) (ha : a ∈ ind.main) :
    ∃ added, Linking.Ends (r.relink a.id : Linking γ Nat) ind added.length
        { ind with links := ind.links ++ added } ∧
      added.Nodup ∧
      (∀ l, l ∈ added ↔ l ∉ ind.links ∧ r.Proposes γ ind a l) ∧
      (∀ l ∈ added, ind.Attaches a l) ∧
      ((∀ l, ind.Attaches a l → (l ∈ ind.links ++ added ↔ r.Proposes γ ind a l)) ↔
        ∀ l ∈ ind.links, ind.Attaches a l → r.Proposes γ ind a l) := by
  have : Nonempty γ := ⟨g⟩
  obtain ⟨added, hends, hnodup, hadded⟩ := exists_relink_added (γ := γ) hr hids htrees ha
  have hproposed : ∀ l, l ∈ added ↔ l ∉ ind.links ∧ r.Proposes γ ind a l := fun l => by
    rw [hadded, proposes_iff hids ha]
  have hattaches : ∀ l ∈ added, ind.Attaches a l := fun l hl =>
    attaches_of_proposes hids ((hproposed l).mp hl).2
  refine ⟨added, hends, hnodup, hproposed, hattaches, ?_⟩
  constructor
  · intro hexact l hl hjoins
    exact (hexact l hjoins).mp (List.mem_append_left added hl)
  · intro hnone l hjoins
    rw [List.mem_append, hproposed]
    constructor
    · rintro (hold | ⟨-, hnew⟩)
      · exact hnone l hold hjoins
      · exact hnew
    · intro hnow
      by_cases hold : l ∈ ind.links
      · exact .inl hold
      · exact .inr ⟨hold, hnow⟩

/-- The second of two calls takes its id from the first one. -/
theorem relink_adds_proposed_of_calls :
    let call (id : Nat) : Action := ⟨⟨id⟩, "call", .rpc "shop" "get", [⟨"id", .path, longIn "id" 0 9⟩], true⟩
    let ind := { Individual.new .random 0 with main := [call 1, call 2] }
    let r : Linker := { config := { inactiveOptionalProbability := 0 } }
    ∃ l, Linking.Ends (r.relink ⟨2⟩ : Linking WordSource Nat) ind 1 { ind with links := [l] } ∧
      r.Proposes WordSource ind (call 2) l := by
  intro call ind r
  have hcount : ((r.relink ⟨2⟩ : Linking WordSource Nat).run.run ind ⟨[], 1⟩).map
      (fun x => x.1.1.toOption) = .ok (some 1) := by decide +kernel
  have hids : ind.ids.Nodup := by decide
  have hcall : ∀ a ∈ ind.main, ∀ p ∈ a.params, p.gene.WellFormed := by
    simp only [ind, call, List.forall_mem_cons, List.not_mem_nil, false_imp_iff, implies_true, and_true]
    exact ⟨(Built.longIn "id" 0 9).wellFormed, (Built.longIn "id" 0 9).wellFormed⟩
  have hzero : (0 : Double).same 0 = true := by decide +kernel
  have hdefinite : r.IsDefinite := .inl hzero
  have hsecond : call 2 ∈ ind.main := List.mem_cons_of_mem _ List.mem_cons_self
  obtain ⟨added, hends, -, hproposed, -⟩ :=
    relink_adds_proposed (⟨[], 1⟩ : WordSource) hdefinite hids hcall hsecond
  obtain ⟨g', hrun⟩ := hends ⟨[], 1⟩
  rw [hrun] at hcount
  have hone : added.length = 1 := Option.some.inj (Except.ok.inj hcount)
  obtain ⟨l, rfl⟩ := List.length_eq_one_iff.mp hone
  exact ⟨l, hends, ((hproposed l).mp List.mem_cons_self).2⟩

/-- An address that both calls give is linked. Then the second call leaves it out, and nothing is proposed for
it any more, but the link is there still when it is linked anew. -/
theorem relink_keeps_stale_link :
    let body (active : Bool) := Parameter.body (object "body" [optional "email" (string "email") active])
    let call (id : Nat) (active : Bool) : Action := ⟨⟨id⟩, "call", .rpc "people" "put", [body active], true⟩
    let r : Linker := { config := { inactiveOptionalProbability := 0 } }
    let ind := { Individual.new .random 0 with main := [call 1 true, call 2 true] }
    let run : Linking WordSource (List Link × Nat × List Link) := do
      let _ ← r.linkAll
      let linked ← get
      set { linked with main := [call 1 true, call 2 false] }
      let count ← r.relink ⟨2⟩
      return (linked.links, count, (← get).links)
    let link : Link := ⟨⟨⟨1⟩, 0, ⟨2⟩⟩, ⟨⟨2⟩, 0, ⟨1⟩⟩, .params⟩
    (run.run.run ind ⟨[], 1⟩).map (fun x => x.1.1.toOption) = .ok (some ([link], 0, [link])) ∧
      ((r.proposalsAround [call 1 true] (call 2 false) [] : Matching.Proposal WordSource (List Link)).run
        ⟨[], 1⟩).map (fun x => x.1.toOption) = .ok (some []) := by
  decide +kernel

end Linker
end CallEvolution
