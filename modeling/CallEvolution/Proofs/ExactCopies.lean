import CallEvolution.Proofs.Admission
import CallEvolution.Proofs.Agreement
import CallEvolution.Proofs.ArenaIntegrity
import CallEvolution.Proofs.Comparison

/-! What a copy leaves behind. A copy that has been allowed ends with a value that is equal to the one of
the source, and beside that value nothing has changed; one that is not allowed changes nothing at all. -/

namespace CallEvolution

open GeneTerm GeneTree

namespace GeneTree

variable {check : NodeId → NodeId → Except GeneError Unit} {name : String} {mine theirs : Gene}

/-- A number within bounds is no NaN, so it is the same as itself. -/
theorem same_self_of_within {F : Format} {x low high : Binary F} (h : within x low high = true) :
    x.same x = true := by
  cases x with
  | nan =>
    rw [within, Bool.and_eq_true, decide_eq_true_eq] at h
    have hlow : (low.less .nan || low.same .nan) = true := h.1
    cases low <;> cases hlow
  | infinity s => exact beq_self_eq_true s
  | finite s m _ => exact decide_eq_true rfl

/-- A value that can be taken over is equal to itself. -/
theorem carries_self (hv : mine.variant = theirs.variant)
    (h : assessGenes check name mine theirs = .ok ()) : theirs.Carries theirs := by
  cases Gene.kindred_of_variant hv
  case float | double =>
    exact same_self_of_within (of_requireBounds h)
  all_goals first | rfl | trivial

theorem carries_takeValue (hv : mine.variant = theirs.variant)
    (h : assessGenes check name mine theirs = .ok ()) : (takeValue mine theirs).Carries theirs := by
  have hself := carries_self hv h
  cases Gene.kindred_of_variant hv
  case choice values _ theirValues index =>
    rw [assessGenes] at h
    cases hvalue : theirValues[index]? with
    | none =>
      rw [hvalue] at h
      cases h
    | some value =>
      rw [hvalue] at h
      by_cases hmem : values.contains value = true
      · obtain ⟨position, hposition, hat⟩ := exists_position hmem
        simp only [takeValue, hvalue, Option.bind_some, hposition]
        exact hat.trans hvalue.symm
      · simp only [hmem] at h
        cases h
  all_goals exact hself

end GeneTree

namespace GeneTerm

variable {v s : GeneTerm} {vs ws : List GeneTerm}

theorem zip_overlayAll (vs ws : List GeneTerm) :
    (overlayAll vs ws).zip ws = (vs.zip ws).map fun r => (overlay r.1 r.2, r.2) := by
  induction vs generalizing ws with
  | nil => cases ws <;> simp [overlayAll]
  | cons v vs ih =>
    cases ws with
    | nil => simp
    | cons w ws =>
      rw [overlayAll, List.zip_cons_cons, List.zip_cons_cons, List.map_cons, ih]

theorem length_overlayAll (vs ws : List GeneTerm) : (overlayAll vs ws).length = vs.length := by
  induction vs generalizing ws with
  | nil => cases ws <;> simp [overlayAll]
  | cons v vs ih =>
    cases ws with
    | nil => simp [overlayAll]
    | cons w ws => rw [overlayAll, List.length_cons, List.length_cons, ih]

theorem zip_self (vs : List GeneTerm) : vs.zip vs = vs.map fun v => (v, v) := by
  simpa using List.zip_map' (f := fun v => v) (g := fun v => v) (l := vs)

theorem exists_mem_zip (hlen : vs.length = ws.length) {w : GeneTerm} (hw : w ∈ ws) :
    ∃ r ∈ vs.zip ws, r.2 = w := by
  rw [← List.map_snd_zip hlen.ge] at hw
  exact List.mem_map.mp hw

/-- A value that a term admits is equal to itself, and the term carries it once it is laid over. -/
theorem agrees_of_admits (hv : v.Shaped) (hs : s.Shaped) (h : v.Admits s) :
    (overlay v s).Agrees s ∧ s.Agrees s := by
  induction h with
  | @node id sid content theirs parts others hvariant hvalue hbelow ih =>
    have hself := carries_self hvariant hvalue
    have hcoll : content.gene.isCollection = theirs.gene.isCollection :=
      Gene.isCollection_of_variant hvariant
    by_cases hc : content.gene.isCollection = true
    · -- the members become copies of the other ones, each of which the template admits
      have hc' : theirs.gene.isCollection = true := hcoll ▸ hc
      obtain ⟨p, ps, rfl⟩ := hv.exists_template hc
      obtain ⟨q, qs, rfl⟩ := hs.exists_template hc'
      have hmembers : ∀ r ∈ qs.zip qs, r.1.Agrees r.2 := by
        rw [zip_self, List.forall_mem_map]
        intro m hm
        have hpair : (p, m) ∈ pairings content.gene.isCollection (p :: ps) (q :: qs) := by
          simp [pairings, hc, hm]
        exact (ih (p, m) hpair (hv.part (by simp)) (hs.part (List.mem_cons_of_mem _ hm))).2
      have hlisted : (content.gene.withMembers (qs.map GeneTerm.id)).isCollection = true := by
        rw [Gene.isCollection_withMembers, hc]
      have hvariant' : (content.gene.withMembers (qs.map GeneTerm.id)).variant = theirs.gene.variant := by
        rw [Gene.variant_withMembers]
        exact hvariant
      have hcarries : (content.gene.withMembers (qs.map GeneTerm.id)).Carries theirs.gene :=
        Gene.carries_of_collection hlisted _
      rw [overlay, if_pos hc]
      refine ⟨.node hvariant' hcarries ?_ ?_, .node rfl hself rfl ?_⟩
      · simp [labels, valueParts, hlisted, hc', hvariant']
      · simpa [valueParts, hlisted, hc'] using hmembers
      · simpa [valueParts, hc'] using hmembers
    · rw [Bool.not_eq_true] at hc
      have hc' : theirs.gene.isCollection = false := hcoll ▸ hc
      have hlen := (fits_of_assessGenes hvariant hvalue).length hc
      rw [← hv.length_parts, ← hs.length_parts] at hlen
      have hbelow : ∀ r ∈ parts.zip others, (overlay r.1 r.2).Agrees r.2 ∧ r.2.Agrees r.2 := by
        intro r hr
        have hmem := List.of_mem_zip hr
        exact ih r (by rwa [pairings, hc]) (hv.part hmem.1) (hs.part hmem.2)
      have hset : (takeValue content.gene theirs.gene).isCollection = false := by
        rw [← Gene.isCollection_blank, blank_takeValue, Gene.isCollection_blank, hc]
      have hvariant' : (takeValue content.gene theirs.gene).variant = theirs.gene.variant := by
        rw [← Gene.variant_blank, blank_takeValue, Gene.variant_blank]
        exact hvariant
      rw [overlay, if_neg (by simp [hc])]
      refine ⟨.node hvariant' (carries_takeValue hvariant hvalue) ?_ ?_, .node rfl hself rfl ?_⟩
      · exact labels_of_plain hset hc' (by rw [length_overlayAll, hlen])
      · simp only [valueParts, hset, hc', Bool.false_eq_true, if_false, zip_overlayAll]
        exact List.forall_mem_map.mpr fun r hr => (hbelow r hr).1
      · simp only [valueParts, hc', Bool.false_eq_true, if_false, zip_self]
        refine List.forall_mem_map.mpr fun m hm => ?_
        obtain ⟨r, hr, rfl⟩ := exists_mem_zip hlen hm
        exact (hbelow r hr).2

end GeneTerm

namespace GeneTree

variable {t u src : GeneTree} {v w s : GeneTerm} {x : NodeId} {n : GeneNode}

/-- What lies outside of a term that is refilled stays. -/
theorem Refills.get?_outside (h : Refills t v u w) (hv : t.Holds v) (hx : t.get? x = some n)
    (hout : ¬ Relation.ReflTransGen t.Owns v.id x) : u.get? x = some n :=
  h.frame.get?_eq hx fun hmem => hout (hv.reaches hmem)

/-- Inside of it, a node that lies in no member keeps all but its value. -/
theorem Refills.exists_inside (h : Refills t v u w) (hv : t.Holds v) (hx : t.get? x = some n)
    (hin : Relation.ReflTransGen t.Owns v.id x) (hmember : ¬ t.InMember v.id x) :
    ∃ k, u.get? x = some k ∧ k.blank = n.blank := by
  obtain ⟨m, hm⟩ := hv.exists_outer (hv.mem_of_reaches hin) hmember
  have hkept := hv.kept (mem_nodes_of_mem_outer hm)
  rw [hx, Option.some.injEq] at hkept
  obtain ⟨k, hk, hblank⟩ :=
    (Matches.of_mould hv.shaped h.holds.shaped h.mould.symm).exists_of_mem hm
  exact ⟨k, h.holds.kept (mem_nodes_of_mem_outer hk), hkept ▸ hblank⟩

/-- A tree `t` has become `u` by taking over a value at one of its nodes, and is otherwise what it was. -/
structure TakesOver (t : GeneTree) (id : NodeId) (src : GeneTree) (srcId : NodeId) (u : GeneTree) :
    Prop where
  wellFormed : u.WellFormed
  equal : u.sameValue id src srcId = .ok true
  outside : ∀ x n, t.get? x = some n → ¬ Relation.ReflTransGen t.Owns id x → u.get? x = some n
  inside : ∀ x n, t.get? x = some n → Relation.ReflTransGen t.Owns id x → ¬ t.InMember id x →
    ∃ k, u.get? x = some k ∧ k.blank = n.blank

end GeneTree

namespace Edit

variable {t src : GeneTree} {id srcId : NodeId}

/-- What has been allowed is written, and the term carries the value of the source then. -/
theorem ensures_copyFrom_agrees {v s : GeneTerm} (ht : t.FreeExact) (hv : t.Holds v) (hs : src.Holds s)
    (h : t.assessCopy v.id src s.id = .ok ()) :
    Ensures (copyFrom v.id src s.id) t fun r u => r = .ok () ∧ ∃ w, w.Agrees s ∧ Refills t v u w := by
  have hadmits := (assessCopy_iff hv hs).mp h
  refine (ensures_copyFrom ht hv hs h).mono ?_
  rintro r u ⟨rfl, w, herase, hw⟩
  exact ⟨rfl, w, (agrees_of_admits hv.shaped hs.shaped hadmits).1.of_erase herase, hw⟩

/-- A copy answers what its assessment says. One that is refused leaves the tree as it is, and one that is
allowed is written to the end: the value is then equal to the one of the source, nodes outside of the
subtree are the same, and those inside of it, members apart, differ in their values only. -/
theorem copyFrom_exact (ht : t.WellFormed) (hsrc : src.WellFormed) (hid : t.contains id = true)
    (hsrcId : src.contains srcId = true) :
    ∃ u, (copyFrom id src srcId).run.run t = .ok (t.assessCopy id src srcId, u) ∧
      (∀ e, t.assessCopy id src srcId = .error e → u = t) ∧
      (t.assessCopy id src srcId = .ok () → t.TakesOver id src srcId u) := by
  obtain ⟨n, hn⟩ := Option.isSome_iff_exists.mp hid
  obtain ⟨m, hm⟩ := Option.isSome_iff_exists.mp hsrcId
  obtain ⟨v, rfl, hv, hkeep⟩ := ht.exists_term hn
  obtain ⟨s, rfl, hs, -⟩ := hsrc.exists_term hm
  cases hassess : t.assessCopy v.id src s.id with
  | error e =>
    obtain ⟨⟨⟨r, u⟩, hrun⟩, hall⟩ := ensures_copyFrom_error hassess
    obtain ⟨rfl, rfl⟩ := hall r u hrun
    exact ⟨u, hrun, fun _ _ => rfl, fun h => by cases h⟩
  | ok =>
    obtain ⟨⟨⟨r, u⟩, hrun⟩, hall⟩ := ensures_copyFrom_agrees ht.exact hv hs hassess
    obtain ⟨rfl, w, hagrees, hw⟩ := hall r u hrun
    have hequal := sameValue_of_agrees hw.holds hs hagrees
    rw [id_eq_of_mould_eq hw.mould] at hequal
    exact ⟨u, hrun, (fun _ h => by cases h), fun _ => ⟨hkeep u w hw.becomes, hequal,
      fun x k hx hout => hw.get?_outside hv hx hout,
      fun x k hx hin hmember => hw.exists_inside hv hx hin hmember⟩⟩

/-- An array without elements takes over the two of another one. -/
theorem copyFrom_exact_of_numbers :
    ∃ (src u : GeneTree) (s : WordSource),
      TreeCall.leaveAll [.randomize ⟨0⟩ true] (array "xs" (integerIn "x" 0 9) 3) ⟨[], 8⟩ = .ok (src, s) ∧
      (copyFrom ⟨0⟩ src ⟨0⟩).run.run (array "ys" (integerIn "y" 0 99) 2) = .ok (.ok (), u) ∧
      u.size = 4 ∧ (array "ys" (integerIn "y" 0 99) 2).TakesOver ⟨0⟩ src ⟨0⟩ u := by
  have hcopy : (TreeCall.leaveAll [.randomize ⟨0⟩ true] (array "xs" (integerIn "x" 0 9) 3)
      (⟨[], 8⟩ : WordSource)).map (fun r => (r.1.contains ⟨0⟩,
        (array "ys" (integerIn "y" 0 99) 2).assessCopy ⟨0⟩ r.1 ⟨0⟩,
        ((copyFrom ⟨0⟩ r.1 ⟨0⟩).run.run (array "ys" (integerIn "y" 0 99) 2)).map (·.2.size))) =
      .ok (true, .ok (), .ok 4) := by decide +kernel
  cases hleave : TreeCall.leaveAll [.randomize ⟨0⟩ true] (array "xs" (integerIn "x" 0 9) 3)
      (⟨[], 8⟩ : WordSource) with
  | error e =>
    rw [hleave] at hcopy
    cases hcopy
  | ok r =>
    obtain ⟨src, s⟩ := r
    rw [hleave] at hcopy
    have hparts := Except.ok.inj hcopy
    simp only [Prod.mk.injEq] at hparts
    obtain ⟨hlive, hassess, hsize⟩ := hparts
    have hxs := (Built.array "xs" 3 (.integerIn "x" 0 9)).wellFormed
    have hys := (Built.array "ys" 2 (.integerIn "y" 0 99)).wellFormed
    have hsrc := TreeCall.wellFormed_of_leaveAll hxs (by simp [TreeCall.source?]) ⟨_, _, hleave⟩
    have hroot : (array "ys" (integerIn "y" 0 99) 2).contains ⟨0⟩ = true := rfl
    obtain ⟨u, hrun, -, htakes⟩ := copyFrom_exact hys hsrc hroot hlive
    rw [hrun] at hsize
    exact ⟨src, u, s, rfl, hassess ▸ hrun, Except.ok.inj hsize, htakes hassess⟩

end Edit
end CallEvolution
