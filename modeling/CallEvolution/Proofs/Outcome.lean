import CallEvolution.Gene.Randomize

/-! What steps may lead to, whatever words are drawn. A statement about all outcomes is one about every
stream of random words; a fault is no outcome. -/

namespace CallEvolution

/-- Computations with outcomes. The outcomes of a sequence are outcomes of its last part, and it runs if
that runs from all outcomes of the first part. -/
class Outcomes (m : Type → Type) [Monad m] where
  Gives {α : Type} : m α → α → Prop
  Runs {α : Type} : m α → Prop
  eq_of_pure {α : Type} {a b : α} : Gives (pure a : m α) b → b = a
  exists_of_bind {α β : Type} {x : m α} {f : α → m β} {b : β} :
    Gives (x >>= f) b → ∃ a, Gives x a ∧ Gives (f a) b
  runs_pure {α : Type} (a : α) : Runs (pure a : m α)
  runs_of_bind {α β : Type} {x : m α} {f : α → m β} :
    Runs x → (∀ a, Gives x a → Runs (f a)) → Runs (x >>= f)

export Outcomes (Gives Runs)

instance : Outcomes (Except Fault) where
  Gives x a := x = .ok a
  Runs x := ∃ a, x = .ok a
  eq_of_pure h := (Except.ok.inj h).symm
  exists_of_bind {α β x f b} h := by
    cases x with
    | error e => cases h
    | ok a => exact ⟨a, rfl, h⟩
  runs_pure a := ⟨a, rfl⟩
  runs_of_bind := by
    rintro α β x f ⟨a, rfl⟩ hf
    exact hf a rfl

/-- A draw gives what it gives from some state of the source. It need not give anything. -/
instance {γ : Type} : Outcomes (Draw γ) where
  Gives x a := ∃ s s', x s = .ok (a, s')
  Runs _ := True
  eq_of_pure := by
    rintro α a b ⟨s, s', h⟩
    exact (congrArg Prod.fst (Except.ok.inj h)).symm
  exists_of_bind := by
    rintro α β x f b ⟨s, s', h⟩
    cases hx : x s with
    | error e =>
      have he : (x >>= f) s = .error e := by
        change (x s >>= fun r => f r.1 r.2) = _
        rw [hx]
        rfl
      rw [he] at h
      cases h
    | ok r =>
      obtain ⟨a, s₁⟩ := r
      have he : (x >>= f) s = f a s₁ := by
        change (x s >>= fun r => f r.1 r.2) = _
        rw [hx]
        rfl
      exact ⟨a, ⟨s, s₁, hx⟩, ⟨s₁, s', he ▸ h⟩⟩
  runs_pure _ := trivial
  runs_of_bind _ _ := trivial

variable {m : Type → Type} [Monad m] [Outcomes m] {ε σ α β : Type}

/-- A step on a state runs, and every outcome satisfies `Q`, be it a result or an error. -/
def Ensures (x : ExceptT ε (StateT σ m) α) (s : σ) (Q : Except ε α → σ → Prop) : Prop :=
  Runs (x.run.run s) ∧ ∀ r s', Gives (x.run.run s) (r, s') → Q r s'

/-- A sequence that succeeds does so step by step. -/
theorem gives_of_bind_ok {x : ExceptT ε (StateT σ m) α} {f : α → ExceptT ε (StateT σ m) β} {s u : σ}
    {b : β} (h : Gives ((x >>= f).run.run s) (.ok b, u)) :
    ∃ a s', Gives (x.run.run s) (.ok a, s') ∧ Gives ((f a).run.run s') (.ok b, u) := by
  obtain ⟨⟨r, s'⟩, hx, hf⟩ := Outcomes.exists_of_bind (m := m) h
  cases r with
  | ok a => exact ⟨a, s', hx, hf⟩
  | error e =>
    have hfail := Outcomes.eq_of_pure (m := m) hf
    cases hfail

namespace Ensures

theorem mono {x : ExceptT ε (StateT σ m) α} {s : σ} {P Q : Except ε α → σ → Prop}
    (h : Ensures x s P) (himp : ∀ r s', P r s' → Q r s') : Ensures x s Q :=
  ⟨h.1, fun r s' hr => himp r s' (h.2 r s' hr)⟩

theorem and {x : ExceptT ε (StateT σ m) α} {s : σ} {P Q : Except ε α → σ → Prop}
    (h : Ensures x s P) (h' : Ensures x s Q) : Ensures x s fun r s' => P r s' ∧ Q r s' :=
  ⟨h.1, fun r s' hr => ⟨h.2 r s' hr, h'.2 r s' hr⟩⟩

theorem pure {s : σ} {a : α} {Q : Except ε α → σ → Prop} (h : Q (.ok a) s) :
    Ensures (Pure.pure a : ExceptT ε (StateT σ m) α) s Q := by
  refine ⟨Outcomes.runs_pure (m := m) _, fun r s' hr => ?_⟩
  obtain ⟨rfl, rfl⟩ := Prod.mk.inj (Outcomes.eq_of_pure (m := m) hr)
  exact h

theorem throw {s : σ} {e : ε} {Q : Except ε α → σ → Prop} (h : Q (.error e) s) :
    Ensures (MonadExcept.throw e : ExceptT ε (StateT σ m) α) s Q := by
  refine ⟨Outcomes.runs_pure (m := m) _, fun r s' hr => ?_⟩
  obtain ⟨rfl, rfl⟩ := Prod.mk.inj (Outcomes.eq_of_pure (m := m) hr)
  exact h

/-- A sequence stops at the first error. -/
theorem bind {x : ExceptT ε (StateT σ m) α} {f : α → ExceptT ε (StateT σ m) β} {s : σ}
    {P : Except ε α → σ → Prop} {Q : Except ε β → σ → Prop} (hx : Ensures x s P)
    (hok : ∀ a s', P (.ok a) s' → Ensures (f a) s' Q)
    (herr : ∀ e s', P (.error e) s' → Q (.error e) s') : Ensures (x >>= f) s Q := by
  refine ⟨Outcomes.runs_of_bind (m := m) hx.1 ?_, fun r s' hr => ?_⟩
  · rintro ⟨ra, sa⟩ ha
    have hP := hx.2 ra sa ha
    cases ra with
    | ok a => exact (hok a sa hP).1
    | error e => exact Outcomes.runs_pure (m := m) _
  · obtain ⟨⟨ra, sa⟩, ha, hb⟩ := Outcomes.exists_of_bind (m := m) hr
    have hP := hx.2 ra sa ha
    cases ra with
    | ok a => exact (hok a sa hP).2 r s' hb
    | error e =>
      obtain ⟨rfl, rfl⟩ := Prod.mk.inj (Outcomes.eq_of_pure (m := m) hb)
      exact herr e _ hP

/-- A sequence whose first part does not fail. -/
theorem bind_ok {x : ExceptT ε (StateT σ m) α} {f : α → ExceptT ε (StateT σ m) β} {s : σ}
    {P : α → σ → Prop} {Q : Except ε β → σ → Prop}
    (hx : Ensures x s fun r s' => ∃ a, r = .ok a ∧ P a s')
    (hok : ∀ a s', P a s' → Ensures (f a) s' Q) : Ensures (x >>= f) s Q := by
  refine bind hx ?_ ?_
  · rintro a s' ⟨b, hb, hP⟩
    cases hb
    exact hok a s' hP
  · rintro e s' ⟨b, hb, -⟩
    cases hb

theorem map {x : ExceptT ε (StateT σ m) α} {f : α → β} {s : σ} {Q : Except ε β → σ → Prop}
    (h : Ensures x s fun r s' => Q (r.map f) s') : Ensures (f <$> x) s Q := by
  refine ⟨Outcomes.runs_of_bind (m := m) h.1 ?_, fun r s' hr => ?_⟩
  · rintro ⟨ra, sa⟩ ha
    cases ra with
    | ok a | error e => exact Outcomes.runs_pure (m := m) _
  · obtain ⟨⟨ra, sa⟩, ha, hb⟩ := Outcomes.exists_of_bind (m := m) hr
    have hQ := h.2 ra sa ha
    cases ra with
    | ok a | error e =>
      obtain ⟨rfl, rfl⟩ := Prod.mk.inj (Outcomes.eq_of_pure (m := m) hb)
      exact hQ

/-- A step on the state alone, seen as one that may fail. -/
theorem lift {x : StateT σ m α} {s : σ} {Q : Except ε α → σ → Prop} (hruns : Runs (x.run s))
    (h : ∀ a s', Gives (x.run s) (a, s') → Q (.ok a) s') :
    Ensures (ExceptT.lift x : ExceptT ε (StateT σ m) α) s Q := by
  refine ⟨Outcomes.runs_of_bind (m := m) hruns fun _ _ => Outcomes.runs_pure (m := m) _, ?_⟩
  intro r s' hr
  obtain ⟨⟨a, s₁⟩, ha, hb⟩ := Outcomes.exists_of_bind (m := m) hr
  obtain ⟨rfl, rfl⟩ := Prod.mk.inj (Outcomes.eq_of_pure (m := m) hb)
  exact h a _ ha

theorem get_bind {f : σ → ExceptT ε (StateT σ m) β} {s : σ} {Q : Except ε β → σ → Prop}
    (h : Ensures (f s) s Q) : Ensures (MonadState.get >>= f) s Q := by
  refine bind_ok (P := fun a s' => a = s ∧ s' = s)
    (lift (Outcomes.runs_pure (m := m) _) fun a s' ha => ?_) ?_
  · obtain ⟨rfl, rfl⟩ := Prod.mk.inj (Outcomes.eq_of_pure (m := m) ha)
    exact ⟨_, rfl, rfl, rfl⟩
  · rintro a s' ⟨rfl, rfl⟩
    exact h

theorem set {s s₁ : σ} {Q : Except ε PUnit → σ → Prop} (h : Q (.ok ⟨⟩) s₁) :
    Ensures (MonadState.set s₁ : ExceptT ε (StateT σ m) PUnit) s Q := by
  refine lift (Outcomes.runs_pure (m := m) _) fun a s' ha => ?_
  obtain ⟨rfl, rfl⟩ := Prod.mk.inj (Outcomes.eq_of_pure (m := m) ha)
  exact h

/-- What is caught goes on from the state that the failure has left. -/
theorem tryCatch {x : ExceptT ε (StateT σ m) α} {handle : ε → ExceptT ε (StateT σ m) α} {s : σ}
    {P Q : Except ε α → σ → Prop} (hx : Ensures x s P) (hok : ∀ a s', P (.ok a) s' → Q (.ok a) s')
    (herr : ∀ e s', P (.error e) s' → Ensures (handle e) s' Q) :
    Ensures (MonadExcept.tryCatch x handle) s Q := by
  refine ⟨Outcomes.runs_of_bind (m := m) hx.1 ?_, fun r s' hr => ?_⟩
  · rintro ⟨ra, sa⟩ ha
    have hP := hx.2 ra sa ha
    cases ra with
    | ok a => exact Outcomes.runs_pure (m := m) _
    | error e => exact (herr e sa hP).1
  · obtain ⟨⟨ra, sa⟩, ha, hb⟩ := Outcomes.exists_of_bind (m := m) hr
    have hP := hx.2 ra sa ha
    cases ra with
    | ok a =>
      obtain ⟨rfl, rfl⟩ := Prod.mk.inj (Outcomes.eq_of_pure (m := m) hb)
      exact hok a _ hP
    | error e => exact (herr e sa hP).2 r s' hb

end Ensures

/-- A step that leaves the state alone, and gives nothing but what satisfies `R`. -/
def Views (x : ExceptT ε (StateT σ m) α) (s : σ) (R : α → Prop) : Prop :=
  Ensures x s fun r s' => s' = s ∧ ∀ a, r = .ok a → R a

namespace Views

theorem pure {s : σ} {a : α} {R : α → Prop} (h : R a) :
    Views (Pure.pure a : ExceptT ε (StateT σ m) α) s R :=
  Ensures.pure ⟨rfl, fun _ hb => Except.ok.inj hb ▸ h⟩

theorem mk_pure {r : Except ε α} {s : σ} :
    Views (ExceptT.mk (Pure.pure r) : ExceptT ε (StateT σ m) α) s fun a => r = .ok a := by
  refine ⟨Outcomes.runs_pure (m := m) _, fun r' s' h => ?_⟩
  obtain ⟨rfl, rfl⟩ := Prod.mk.inj (Outcomes.eq_of_pure (m := m) h)
  exact ⟨rfl, fun _ h => h⟩

theorem ensures_bind {x : ExceptT ε (StateT σ m) α} {f : α → ExceptT ε (StateT σ m) β} {s : σ}
    {R : α → Prop} {Q : Except ε β → σ → Prop} (hx : Views x s R)
    (hok : ∀ a, R a → Ensures (f a) s Q) (herr : ∀ e, Q (.error e) s) : Ensures (x >>= f) s Q := by
  refine Ensures.bind hx ?_ ?_
  · rintro a s' ⟨rfl, ha⟩
    exact hok a (ha a rfl)
  · rintro e s' ⟨rfl, -⟩
    exact herr e

theorem map {x : ExceptT ε (StateT σ m) α} {f : α → β} {s : σ} {R : α → Prop} {R' : β → Prop}
    (hx : Views x s R) (hf : ∀ a, R a → R' (f a)) : Views (f <$> x) s R' := by
  refine Ensures.map (Ensures.mono hx ?_)
  rintro r s' ⟨rfl, hr⟩
  refine ⟨rfl, fun b hb => ?_⟩
  cases r with
  | error e => cases hb
  | ok a =>
    cases hb
    exact hf a (hr a rfl)

theorem bind {x : ExceptT ε (StateT σ m) α} {f : α → ExceptT ε (StateT σ m) β} {s : σ}
    {R : α → Prop} {R' : β → Prop} (hx : Views x s R) (hok : ∀ a, R a → Views (f a) s R') :
    Views (x >>= f) s R' :=
  hx.ensures_bind hok fun _ => ⟨rfl, fun _ h => by cases h⟩

end Views

/-- A view that does not fail. -/
def Finds (x : ExceptT ε (StateT σ m) α) (s : σ) (R : α → Prop) : Prop :=
  Ensures x s fun r s' => s' = s ∧ ∃ a, r = .ok a ∧ R a

namespace Finds

variable {x : ExceptT ε (StateT σ m) α} {s : σ} {R : α → Prop}

theorem pure {a : α} (h : R a) : Finds (Pure.pure a : ExceptT ε (StateT σ m) α) s R :=
  Ensures.pure ⟨rfl, a, rfl, h⟩

theorem views (hx : Finds x s R) : Views x s R := by
  refine Ensures.mono hx ?_
  rintro r s' ⟨rfl, a, rfl, ha⟩
  exact ⟨rfl, fun b hb => Except.ok.inj hb ▸ ha⟩

theorem ensures_bind {f : α → ExceptT ε (StateT σ m) β} {Q : Except ε β → σ → Prop} (hx : Finds x s R)
    (hok : ∀ a, R a → Ensures (f a) s Q) : Ensures (x >>= f) s Q := by
  refine Ensures.bind_ok (P := fun a s' => R a ∧ s' = s) (Ensures.mono hx ?_) ?_
  · rintro r s' ⟨rfl, a, rfl, ha⟩
    exact ⟨a, rfl, ha, rfl⟩
  · rintro a s' ⟨ha, rfl⟩
    exact hok a ha

theorem bind {f : α → ExceptT ε (StateT σ m) β} {R' : β → Prop} (hx : Finds x s R)
    (hok : ∀ a, R a → Finds (f a) s R') : Finds (x >>= f) s R' :=
  hx.ensures_bind hok

theorem map {f : α → β} {R' : β → Prop} (hx : Finds x s R) (hf : ∀ a, R a → R' (f a)) :
    Finds (f <$> x) s R' := by
  refine Ensures.map (Ensures.mono hx ?_)
  rintro r s' ⟨rfl, a, rfl, ha⟩
  exact ⟨rfl, f a, rfl, hf a ha⟩

end Finds

namespace Edit

variable {t : GeneTree}

theorem ensures_query {q : GeneTree → Except GeneError α} {Q : Except GeneError α → GeneTree → Prop}
    (h : Q (q t) t) : Ensures (query q) t Q := by
  refine ⟨⟨_, rfl⟩, fun r s' hr => ?_⟩
  cases hr
  exact h

theorem views_query {q : GeneTree → Except GeneError α} : Views (query q) t fun a => q t = .ok a :=
  ensures_query ⟨rfl, fun _ h => h⟩

theorem ensures_update {f : GeneTree → GeneTree} {Q : Except GeneError Unit → GeneTree → Prop}
    (h : Q (.ok ()) (f t)) : Ensures (update f) t Q := by
  refine ⟨⟨_, rfl⟩, fun r s' hr => ?_⟩
  cases hr
  exact h

theorem ensures_query_bind {q : GeneTree → Except GeneError α} {f : α → Edit β} {a : α}
    {Q : Except GeneError β → GeneTree → Prop} (hq : q t = .ok a) (h : Ensures (f a) t Q) :
    Ensures (query q >>= f) t Q := by
  refine Ensures.bind_ok (P := fun b u => b = a ∧ u = t) (ensures_query ⟨a, hq, rfl, rfl⟩) ?_
  rintro b u ⟨rfl, rfl⟩
  exact h

theorem ensures_setActive {id gene : NodeId} {n : GeneNode} {active on : Bool}
    {Q : Except GeneError Unit → GeneTree → Prop} (hid : t.get? id = some n)
    (hn : n.gene = .optional gene active) (h : Q (.ok ()) (t.setGene id (.optional gene on))) :
    Ensures (setActive id on) t Q := by
  have hnode : t.node id = .ok n := by simp [GeneTree.node, hid]
  refine ensures_query_bind hnode ?_
  rw [hn]
  exact ensures_update h

end Edit

namespace RandomEdit

variable {γ : Type} {t : GeneTree}

theorem gives_of_lift {e : Edit α} {r : Except GeneError α} {u : GeneTree}
    (h : Gives ((lift e : RandomEdit γ α).run.run t) (r, u)) : Gives (e.run.run t) (r, u) := by
  obtain ⟨s, s', h⟩ := h
  change (e.run t).map (fun r => (r, s)) = _ at h
  cases he : e.run t with
  | error f =>
    rw [he] at h
    cases h
  | ok x =>
    rw [he] at h
    cases h
    exact he

theorem ensures_lift {e : Edit α} {Q : Except GeneError α → GeneTree → Prop} (h : Ensures e t Q) :
    Ensures (lift e : RandomEdit γ α) t Q :=
  ⟨trivial, fun r u hr => h.2 r u (gives_of_lift hr)⟩

theorem ensures_fault {f : Fault} {Q : Except GeneError α → GeneTree → Prop} :
    Ensures (lift (Edit.fault f) : RandomEdit γ α) t Q := by
  refine ⟨trivial, ?_⟩
  rintro r u ⟨s, s', hr⟩
  cases hr

theorem ensures_draw {d : Draw γ α} {Q : Except GeneError α → GeneTree → Prop}
    (h : ∀ a, Gives d a → Q (.ok a) t) : Ensures (draw d) t Q := by
  refine Ensures.lift trivial fun a u hr => ?_
  obtain ⟨b, hb, hc⟩ := Outcomes.exists_of_bind (m := Draw γ) hr
  obtain ⟨rfl, rfl⟩ := Prod.mk.inj (Outcomes.eq_of_pure (m := Draw γ) hc)
  exact h _ hb

theorem views_query {q : GeneTree → Except GeneError α} :
    Views (lift (Edit.query q) : RandomEdit γ α) t fun a => q t = .ok a :=
  ensures_lift Edit.views_query

theorem finds_query {q : GeneTree → Except GeneError α} {a : α} (h : q t = .ok a) :
    Finds (lift (Edit.query q) : RandomEdit γ α) t fun b => b = a :=
  ensures_lift (Edit.ensures_query ⟨rfl, a, h, rfl⟩)

theorem finds_draw {d : Draw γ α} : Finds (draw d) t fun a => Gives d a :=
  ensures_draw fun a ha => ⟨rfl, a, rfl, ha⟩

theorem views_draw {d : Draw γ α} : Views (draw d) t fun a => Gives d a := finds_draw.views

theorem finds_get : Finds (lift get : RandomEdit γ GeneTree) t fun a => a = t :=
  ensures_lift (Ensures.get_bind (Ensures.pure ⟨rfl, t, rfl, rfl⟩))

theorem views_get : Views (lift get : RandomEdit γ GeneTree) t fun a => a = t := finds_get.views

end RandomEdit
end CallEvolution
