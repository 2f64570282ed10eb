import CallEvolution.Proofs.Settling
import CallEvolution.Proofs.TotalSearch

/-! The links that a linker finds for the parameters of an individual. For a definite linker they are a
matter of the actions and of their order: each pair of main actions has its links, whenever it is searched. -/

namespace CallEvolution

open Attempt Matching

section Flatten

variable {γ ε α β : Type} [Nonempty γ] {f : α → ExceptT ε (Draw γ) (List β)}

theorem mem_flatten_of_settles {l : List α} {bs : List (List β)}
    (h : List.Forall₂ (fun a b => Settles (f a) b) l bs) (y : β) :
    y ∈ bs.flatten ↔ ∃ a ∈ l, ∃ b, Settles (f a) b ∧ y ∈ b := by
  induction h with
  | nil => simp
  | @cons a b l bs hab _ ih =>
    rw [List.flatten_cons, List.mem_append, ih, List.exists_mem_cons_iff]
    refine or_congr_left ⟨fun hy => ⟨b, hab, hy⟩, ?_⟩
    rintro ⟨b', hb', hy⟩
    rwa [hab.eq_of_yields hb'.yields] at hy

end Flatten

namespace Linker

variable (γ : Type) [RandomSource γ]

/-- Does the search for links find one for a parameter of `b` among the parameters of `a`? -/
def Finds (r : Linker) (a b : Action) (l : Link) : Prop :=
  ∃ w ∈ ParamSite.ofAction b, ∃ ls,
    Settles (r.linksInto w (ParamSite.ofAction a) : Proposal γ (List Link)) ls ∧ l ∈ ls

/-- The links that an individual should have: those from each main action to each later one. -/
def Due (r : Linker) (ind : Individual) (l : Link) : Prop :=
  ∃ a ∈ ind.main, ∃ b ∈ ind.main, a.id ≠ b.id ∧ r.Finds γ a b l ∧ ind.allows l = true

variable {γ} [Nonempty γ] {r : Linker} {a b : Action} {l : Link} {earlier as before after : List Action}
  {targets : List ParamSite}

theorem leads_of_finds (hne : a.id ≠ b.id) (h : r.Finds γ a b l) :
    l.origin = .params ∧ l.Leads [a] [b] := by
  obtain ⟨w, hw, ls, hls, hl⟩ := h
  obtain ⟨v, hv, hjoins⟩ := joins_of_linksInto hls.yields l hl
  have hdiffer : v.action ≠ w.action := by
    rw [ParamSite.action_of_mem hv, ParamSite.action_of_mem hw]
    exact hne
  obtain ⟨hsource, htarget⟩ := hjoins.of_ne hdiffer
  exact ⟨hjoins.1, ⟨a, by simp, v, hv, hsource⟩, b, by simp, w, hw, htarget⟩

theorem ends_of_finds (hne : a.id ≠ b.id) (h : r.Finds γ a b l) :
    l.source.action = a.id ∧ l.target.action = b.id := by
  obtain ⟨-, ⟨c, hc, v, hv, hsource⟩, d, hd, w, hw, htarget⟩ := leads_of_finds hne h
  rw [List.mem_singleton] at hc hd
  subst hc hd
  exact ⟨hsource.1.1.trans (ParamSite.action_of_mem hv), htarget.1.1.trans (ParamSite.action_of_mem hw)⟩

theorem settled_proposals (hr : r.IsDefinite) (htargets : ∀ w ∈ targets, w.tree.WellFormed)
    (hearlier : ∀ a ∈ earlier, ∀ p ∈ a.params, p.gene.WellFormed) :
    ∃ ls, Settles (r.proposals targets earlier : Proposal γ (List Link)) ls ∧
      ∀ l, l ∈ ls ↔ ∃ a ∈ earlier, ∃ w ∈ targets, ∃ ks,
        Settles (r.linksInto w (ParamSite.ofAction a) : Proposal γ (List Link)) ks ∧ l ∈ ks := by
  induction targets with
  | nil => exact ⟨[], settles_pure [], by simp⟩
  | cons target targets ih =>
    obtain ⟨htarget, hrest⟩ := List.forall_mem_cons.mp htargets
    have hsites : ∀ a ∈ earlier, ∀ v ∈ ParamSite.ofAction a, v.tree.WellFormed := by
      intro a ha v hv
      obtain ⟨i, p, hp, rfl⟩ := ParamSite.mem_ofAction_iff.mp hv
      exact hearlier a ha p (List.mem_of_getElem? hp)
    obtain ⟨each, heach, hall⟩ := settles_mapM (f := fun a => r.linksBetween a target) fun a ha =>
      settled_linksInto (γ := γ) hr htarget (hsites a ha)
    obtain ⟨rest, hsettles, hmem⟩ := ih hrest
    refine ⟨each.flatten ++ rest, heach.bind (hsettles.bind (settles_pure _)), fun l => ?_⟩
    rw [List.mem_append, mem_flatten_of_settles hall, hmem]
    constructor
    · rintro (⟨a, ha, ks, hks, hl⟩ | ⟨a, ha, w, hw, hfound⟩)
      · exact ⟨a, ha, target, by simp, ks, hks, hl⟩
      · exact ⟨a, ha, w, by simp [hw], hfound⟩
    · rintro ⟨a, ha, w, hw, ks, hks, hl⟩
      rcases List.mem_cons.mp hw with rfl | hw
      · exact .inl ⟨a, ha, ks, hks, hl⟩
      · exact .inr ⟨a, ha, w, hw, ks, hks, hl⟩

theorem settled_proposals_of_action (earlier : List Action) (hr : r.IsDefinite) (hb : ∀ p ∈ b.params, p.gene.WellFormed)
    (hearlier : ∀ a ∈ earlier, ∀ p ∈ a.params, p.gene.WellFormed) :
    ∃ ls, Settles (r.proposals (ParamSite.ofAction b) earlier : Proposal γ (List Link)) ls ∧
      ∀ l, l ∈ ls ↔ ∃ a ∈ earlier, r.Finds γ a b l := by
  refine settled_proposals hr (fun w hw => ?_) hearlier
  obtain ⟨i, p, hp, rfl⟩ := ParamSite.mem_ofAction_iff.mp hw
  exact hb p (List.mem_of_getElem? hp)

theorem settled_allProposals (earlier as : List Action) (hr : r.IsDefinite)
    (htrees : ∀ a ∈ earlier ++ as, ∀ p ∈ a.params, p.gene.WellFormed) :
    ∃ ls, Settles (r.allProposals earlier as : Proposal γ (List Link)) ls ∧
      ∀ l, l ∈ ls ↔ ∃ pre b post, as = pre ++ b :: post ∧ ∃ a ∈ earlier ++ pre, r.Finds γ a b l := by
  induction as generalizing earlier with
  | nil => exact ⟨[], settles_pure [], by simp⟩
  | cons b as ih =>
    have happend : earlier ++ [b] ++ as = earlier ++ b :: as := by simp
    obtain ⟨own, hown, hfinds⟩ := settled_proposals_of_action (γ := γ) earlier hr (htrees b (by simp))
      fun a ha => htrees a (List.mem_append_left _ ha)
    obtain ⟨rest, hrest, hlater⟩ := ih (earlier ++ [b]) (happend.symm ▸ htrees)
    refine ⟨own ++ rest, hown.bind (hrest.bind (settles_pure _)), fun l => ?_⟩
    rw [List.mem_append, hfinds, hlater]
    constructor
    · rintro (⟨a, ha, hl⟩ | ⟨pre, c, post, rfl, a, ha, hl⟩)
      · exact ⟨[], b, as, rfl, a, by simpa using ha, hl⟩
      · exact ⟨b :: pre, c, post, rfl, a, by simpa using ha, hl⟩
    · rintro ⟨pre, c, post, hsplit, a, ha, hl⟩
      cases pre with
      | nil =>
        obtain ⟨rfl, rfl⟩ := List.cons.inj hsplit
        exact .inl ⟨a, by simpa using ha, hl⟩
      | cons d pre =>
        obtain ⟨rfl, rfl⟩ := List.cons.inj hsplit
        exact .inr ⟨pre, c, post, rfl, a, by simpa using ha, hl⟩

theorem settled_proposalsAround (hr : r.IsDefinite)
    (htrees : ∀ c ∈ before ++ a :: after, ∀ p ∈ c.params, p.gene.WellFormed) :
    ∃ ls, Settles (r.proposalsAround before a after : Proposal γ (List Link)) ls ∧
      ∀ l, l ∈ ls ↔ (∃ b ∈ before, r.Finds γ b a l) ∨ ∃ b ∈ after, r.Finds γ a b l := by
  have ha := htrees a (by simp)
  obtain ⟨own, hown, hfinds⟩ := settled_proposals_of_action (γ := γ) before hr ha fun c hc =>
    htrees c (List.mem_append_left _ hc)
  have hone : ∀ b ∈ after, ∃ ls,
      Settles (r.proposals (ParamSite.ofAction b) [a] : Proposal γ (List Link)) ls ∧
        ∀ l, l ∈ ls ↔ r.Finds γ a b l := by
    intro b hb
    have hb := htrees b (by simp [hb])
    simpa using settled_proposals_of_action (γ := γ) [a] hr hb (by simpa using ha)
  obtain ⟨later, hlater, hall⟩ := settles_mapM
    (f := fun b => (r.proposals (ParamSite.ofAction b) [a] : Proposal γ (List Link))) (l := after)
    fun b hb => (hone b hb).imp fun _ h => h.1
  refine ⟨own ++ later.flatten, hown.bind (hlater.bind (settles_pure _)), fun l => ?_⟩
  rw [List.mem_append, hfinds, mem_flatten_of_settles hall]
  refine or_congr_right ⟨?_, ?_⟩
  · rintro ⟨b, hb, ks, hks, hl⟩
    obtain ⟨ls, hls, hmem⟩ := hone b hb
    rw [hls.eq_of_yields hks.yields, hmem] at hl
    exact ⟨b, hb, hl⟩
  · rintro ⟨b, hb, hl⟩
    obtain ⟨ls, hls, hmem⟩ := hone b hb
    exact ⟨b, hb, ls, hls, (hmem l).mpr hl⟩

end Linker
end CallEvolution
