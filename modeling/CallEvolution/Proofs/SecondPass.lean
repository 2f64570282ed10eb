import CallEvolution.Proofs.Draws
import CallEvolution.Proofs.LinkPass

/-! A second pass over the links. While no link writes to the source of a link that is not behind it, what
the first pass has left is left by the second one too. -/

namespace CallEvolution

open GeneTerm GeneTree

namespace Individual

variable {ind s u fin : Individual} {id id' : ActionId} {i j : Nat} {v w : GeneTerm} {t : GeneTree}
  {a b : GeneAddress}

/-- Is there a gene at an address, outside of all collections? -/
def Carries (ind : Individual) (a : GeneAddress) : Prop :=
  ∃ v, ind.Shows a.action a.param v ∧ a.node ∈ v.fixed

/-- Do the regions of two addresses have a place in common? -/
def Meet (ind : Individual) (a b : GeneAddress) : Prop :=
  a.action = b.action ∧ a.param = b.param ∧
    ∃ v x, ind.Shows a.action a.param v ∧ v.Covers a.node x ∧ v.Covers b.node x

/-- Every parameter is there still, with a term of the same mould. -/
def Alike (s u : Individual) : Prop :=
  ∀ id i v, s.Shows id i v → ∃ w, u.Shows id i w ∧ w.mould = v.mould

/-- Each place has in `u` the value that it has in `s` or the one that it has in `fin`. -/
def Between (s fin u : Individual) : Prop :=
  ∀ id i v, s.Shows id i v → ∃ w x, fin.Shows id i w ∧ u.Shows id i x ∧ w.mould = v.mould ∧
    x.mould = v.mould ∧ ∀ z ∈ v.fixed, x.valueAt z = v.valueAt z ∨ x.valueAt z = w.valueAt z

theorem shows_setGene_self (h : ind.Shows id i v) (hw : t.Unfolds w) :
    (ind.setGene id i t).Shows id i w := by
  obtain ⟨u, hu, -⟩ := h
  exact ⟨t, gene_setGene_self hu, hw⟩

theorem shows_setGene_of_ne (h : (id', j) ≠ (id, i)) :
    (ind.setGene id i t).Shows id' j v ↔ ind.Shows id' j v := by
  rw [Shows, Shows, gene_setGene_of_ne h]

theorem Alike.refl (s : Individual) : s.Alike s := fun _ _ v hv => ⟨v, hv, rfl⟩

theorem Alike.trans (h : s.Alike u) (k : u.Alike fin) : s.Alike fin := by
  intro id i v hv
  obtain ⟨w, hw, hwv⟩ := h id i v hv
  obtain ⟨x, hx, hxw⟩ := k id i w hw
  exact ⟨x, hx, hxw.trans hwv⟩

theorem alike_setGene (h : ind.Shows id i v) (hw : t.Unfolds w) (hmould : w.mould = v.mould) :
    ind.Alike (ind.setGene id i t) := by
  intro id' j x hx
  by_cases hid : (id', j) = (id, i)
  · obtain ⟨rfl, rfl⟩ := Prod.mk.inj hid
    rw [hx.unique h]
    exact ⟨w, shows_setGene_self h hw, hmould⟩
  · exact ⟨x, (shows_setGene_of_ne hid).mpr hx, rfl⟩

theorem Carries.alike (h : s.Carries a) (hsu : s.Alike u) : u.Carries a := by
  obtain ⟨v, hv, ha⟩ := h
  obtain ⟨w, hw, hmould⟩ := hsu _ _ v hv
  obtain ⟨_, hold⟩ := hv.exists_holds
  obtain ⟨_, hold'⟩ := hw.exists_holds
  exact ⟨w, hw, fixed_eq_of_mould_eq hold'.shaped hold.shaped hmould ▸ ha⟩

/-- Whether two regions meet depends on the moulds only. -/
theorem Meet.of_alike (h : u.Meet a b) (hsu : s.Alike u) (ha : s.Carries a) : s.Meet a b := by
  obtain ⟨haction, hparam, w, x, hw, hxa, hxb⟩ := h
  obtain ⟨v, hv, -⟩ := ha
  obtain ⟨w', hw', hmould⟩ := hsu _ _ v hv
  rw [hw'.unique hw] at hmould
  obtain ⟨_, hold⟩ := hv.exists_holds
  obtain ⟨_, hold'⟩ := hw.exists_holds
  exact ⟨haction, hparam, v, x, hv, hold'.covers_of_mould hold hmould hxa,
    hold'.covers_of_mould hold hmould hxb⟩

end Individual

namespace Revision

variable {γ α β : Type} {s u fin : Individual} {l : Link} {n : Nat}

theorem Yields.eq_of_gives {x : Revision γ α} {r r' : Except ActionError α} (h : Yields x s r u)
    (hx : Gives (x.run.run s) (r', fin)) : r' = r ∧ fin = u := by
  obtain ⟨g, g', hg⟩ := hx
  rw [h g, Except.ok.injEq, Prod.mk.injEq, Prod.mk.injEq] at hg
  exact ⟨hg.1.1.symm, hg.1.2.symm⟩

theorem Yields.applyAll_cons {b : Bool} {ls : List Link}
    (hl : Yields (applyLink l : Revision γ Bool) s (.ok b) fin)
    (hls : Yields (applyAll ls : Revision γ Nat) fin (.ok n) u) :
    Yields (applyAll (l :: ls) : Revision γ Nat) s (.ok ((if b then 1 else 0) + n)) u :=
  hl.bind_ok (hls.bind_ok (yields_pure _ u))

theorem Yields.sync {ls : List Link} (hls : s.links = ls)
    (h : Yields (applyAll ls : Revision γ Nat) s (.ok n) u) :
    Yields (Revision.sync : Revision γ Nat) s (.ok n) u :=
  (yields_get s).bind_ok (hls.symm ▸ h)

/-- A link changes the region of its target only. -/
theorem exists_applyLink (hsource : s.Carries l.source) (htarget : s.Carries l.target) :
    ∃ r s', Yields (applyLink l : Revision γ Bool) s r s' ∧ s.Alike s' ∧
      ∀ id i v, s.Shows id i v → ∃ w, s'.Shows id i w ∧ w.mould = v.mould ∧
        ∀ x, (l.target.action = id → l.target.param = i → ¬ v.Covers l.target.node x) →
          w.valueAt x = v.valueAt x := by
  obtain ⟨v, hv, hx⟩ := hsource
  obtain ⟨w, hw, hz⟩ := htarget
  obtain ⟨r, t, -, x, -, hrun, -, hxt, -, hmould, -, -, hkept⟩ :=
    lockstep_applyLink hv hv rfl hx (fun _ _ => rfl) hw hw rfl hz
  refine ⟨r, _, hrun, Individual.alike_setGene hw hxt hmould, fun id i y hy => ?_⟩
  by_cases hid : (id, i) = (l.target.action, l.target.param)
  · obtain ⟨rfl, rfl⟩ := Prod.mk.inj hid
    rw [hy.unique hw]
    exact ⟨x, Individual.shows_setGene_self hw hxt, hmould, fun z hz => hkept z (hz rfl rfl)⟩
  · exact ⟨y, (Individual.shows_setGene_of_ne hid).mpr hy, rfl, fun _ _ => rfl⟩

/-- A pass changes the regions of the targets only. -/
theorem kept_of_applyAll {ls : List Link} (hends : ∀ l ∈ ls, s.Carries l.source ∧ s.Carries l.target)
    (hrun : Gives ((applyAll ls : Revision γ Nat).run.run s) (.ok n, fin)) :
    s.Alike fin ∧ ∀ id i v, s.Shows id i v → ∃ w, fin.Shows id i w ∧ w.mould = v.mould ∧
      ∀ x, (∀ k ∈ ls, k.target.action = id → k.target.param = i → ¬ v.Covers k.target.node x) →
        w.valueAt x = v.valueAt x := by
  induction ls generalizing s n with
  | nil =>
    obtain ⟨-, rfl⟩ := Prod.mk.inj (Outcomes.eq_of_pure (m := Draw γ) hrun)
    exact ⟨.refl fin, fun id i v hv => ⟨v, hv, rfl, fun _ _ => rfl⟩⟩
  | cons l ls ih =>
    obtain ⟨hl, hrest⟩ := List.forall_mem_cons.mp hends
    obtain ⟨b, s₁, hstep, hafter⟩ := gives_of_bind_ok hrun
    obtain ⟨n', s₂, hpass, hpure⟩ := gives_of_bind_ok hafter
    obtain ⟨r, s', hyields, halike, hkept⟩ := exists_applyLink (γ := γ) hl.1 hl.2
    obtain ⟨-, rfl⟩ := hyields.eq_of_gives hstep
    obtain ⟨-, rfl⟩ := Prod.mk.inj (Outcomes.eq_of_pure (m := Draw γ) hpure)
    obtain ⟨halike', hkept'⟩ :=
      ih (fun k hk => ⟨(hrest k hk).1.alike halike, (hrest k hk).2.alike halike⟩) hpass
    refine ⟨halike.trans halike', fun id i v hv => ?_⟩
    obtain ⟨w, hw, hmould, hvw⟩ := hkept id i v hv
    obtain ⟨x, hx, hmould', hwx⟩ := hkept' id i w hw
    obtain ⟨_, hold⟩ := hv.exists_holds
    obtain ⟨_, hold'⟩ := hw.exists_holds
    refine ⟨x, hx, hmould'.trans hmould, fun y hy => ?_⟩
    rw [hwx y fun k hk ha hp hc => hy k (List.mem_cons_of_mem _ hk) ha hp
      (hold'.covers_of_mould hold hmould hc), hvw y (hy l (by simp))]

/-- A link whose source has its last value already takes an individual on to where it took the first one,
or leaves it where it was. -/
theorem between_applyLink (hsource : s.Carries l.source) (htarget : s.Carries l.target)
    (hbetween : s.Between fin u)
    (hsettled : ∀ v w, s.Shows l.source.action l.source.param v →
      fin.Shows l.source.action l.source.param w →
        ∀ x, v.Covers l.source.node x → w.valueAt x = v.valueAt x) :
    ∃ r s' u', Yields (applyLink l : Revision γ Bool) s r s' ∧
      Yields (applyLink l : Revision γ Bool) u r u' ∧ s.Alike s' ∧ s'.Between fin u' := by
  obtain ⟨v, hv, hx⟩ := hsource
  obtain ⟨w, hw, hz⟩ := htarget
  obtain ⟨v₁, v₂, hv₁, hv₂, hmould₁, hmould₂, hvalue⟩ := hbetween _ _ v hv
  obtain ⟨w₁, w₂, hw₁, hw₂, hmould₁', hmould₂', hvalue'⟩ := hbetween _ _ w hw
  -- at the source both individuals have the last value already
  have hsame : ∀ x, v.Covers l.source.node x → v₂.valueAt x = v.valueAt x := by
    intro x hx
    have hlast := hsettled v v₁ hv hv₁ x hx
    rcases hvalue x (Holds.mem_fixed_of_covers hx).2 with h | h
    · exact h
    · rw [h, hlast]
  obtain ⟨r, t, t', x, x', hrun, hrun', hxt, hxt', hmould, hmould', hover, -⟩ :=
    lockstep_applyLink hv hv₂ hmould₂.symm hx hsame hw hw₂ hmould₂'.symm hz
  refine ⟨r, _, _, hrun, hrun', Individual.alike_setGene hw hxt hmould, fun id i y hy => ?_⟩
  by_cases hid : (id, i) = (l.target.action, l.target.param)
  · obtain ⟨rfl, rfl⟩ := Prod.mk.inj hid
    rw [hy.unique (Individual.shows_setGene_self hw hxt)]
    obtain ⟨_, hold⟩ := hw.exists_holds
    refine ⟨w₁, x', hw₁, Individual.shows_setGene_self hw₂ hxt', hmould₁'.trans hmould.symm,
      (hmould'.trans hmould₂').trans hmould.symm, fun z hzx => ?_⟩
    have hzw : z ∈ w.fixed := fixed_eq_of_mould_eq hxt.holds.shaped hold.shaped hmould ▸ hzx
    rcases hover z hzw with h | ⟨hxz, hxz'⟩
    · exact .inl h
    · rw [hxz, hxz']
      exact hvalue' z hzw
  · have hy' := (Individual.shows_setGene_of_ne hid).mp hy
    obtain ⟨y₁, y₂, hy₁, hy₂, hrest⟩ := hbetween id i y hy'
    exact ⟨y₁, y₂, hy₁, (Individual.shows_setGene_of_ne hid).mpr hy₂, hrest⟩

/-- A second pass, from where the first one has ended, ends there again. -/
theorem between_applyAll {ls : List Link} (hends : ∀ l ∈ ls, s.Carries l.source ∧ s.Carries l.target)
    (hrun : Gives ((applyAll ls : Revision γ Nat).run.run s) (.ok n, fin))
    (hself : ∀ l ∈ ls, ¬ s.Meet l.source l.target)
    (horder : ls.Pairwise fun l k => ¬ s.Meet l.source k.target) (hbetween : s.Between fin u) :
    ∃ u', Yields (applyAll ls : Revision γ Nat) u (.ok n) u' ∧ fin.Between fin u' := by
  induction ls generalizing s u n with
  | nil =>
    obtain ⟨hn, rfl⟩ := Prod.mk.inj (Outcomes.eq_of_pure (m := Draw γ) hrun)
    rw [Except.ok.injEq] at hn
    subst hn
    exact ⟨u, yields_pure 0 u, hbetween⟩
  | cons l ls ih =>
    have hkept := (kept_of_applyAll hends hrun).2
    obtain ⟨hl, hrest⟩ := List.forall_mem_cons.mp hends
    obtain ⟨hselfl, hself⟩ := List.forall_mem_cons.mp hself
    obtain ⟨hbefore, horder⟩ := List.pairwise_cons.mp horder
    obtain ⟨b, s₁, hstep, hafter⟩ := gives_of_bind_ok hrun
    obtain ⟨n', s₂, hpass, hpure⟩ := gives_of_bind_ok hafter
    -- no link from here on writes to the source of this one
    have hsettled : ∀ v w, s.Shows l.source.action l.source.param v →
        fin.Shows l.source.action l.source.param w →
          ∀ x, v.Covers l.source.node x → w.valueAt x = v.valueAt x := by
      intro v w hv hw x hx
      obtain ⟨w', hw', -, hvalue⟩ := hkept _ _ v hv
      rw [hw.unique hw']
      refine hvalue x fun k hk ha hp hc => ?_
      have hmeet : s.Meet l.source k.target := ⟨ha.symm, hp.symm, v, x, hv, hx, hc⟩
      rcases List.mem_cons.mp hk with rfl | hk
      · exact hselfl hmeet
      · exact hbefore k hk hmeet
    obtain ⟨r, s', u', hs', hu', halike, hbetween'⟩ :=
      between_applyLink (γ := γ) hl.1 hl.2 hbetween hsettled
    obtain ⟨rfl, rfl⟩ := hs'.eq_of_gives hstep
    obtain ⟨hn, rfl⟩ := Prod.mk.inj (Outcomes.eq_of_pure (m := Draw γ) hpure)
    rw [Except.ok.injEq] at hn
    subst hn
    obtain ⟨u₂, hu₂, hfin⟩ := ih (fun k hk => ⟨(hrest k hk).1.alike halike, (hrest k hk).2.alike halike⟩)
      hpass (fun k hk hmeet => hself k hk (hmeet.of_alike halike (hrest k hk).1))
      (horder.imp_of_mem fun {k k'} hk _ hnot hmeet =>
        hnot (hmeet.of_alike halike (hrest k hk).1)) hbetween'
    exact ⟨u₂, hu'.applyAll_cons hu₂, hfin⟩

end Revision
end CallEvolution
