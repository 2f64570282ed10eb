import CallEvolution.Proofs.Draws
import CallEvolution.Search.Attempt
import CallEvolution.Individual.Sync

/-! Steps on individuals: what they may leave behind, and what follows from an attempt that succeeds. -/

namespace CallEvolution

variable {γ α β : Type}

/-- Steps that keep to a transitive relation keep to it in a row. -/
theorem Ensures.bind_rel {ε σ : Type} {Q : σ → σ → Prop}
    (htrans : ∀ s t u, Q s t → Q t u → Q s u) {x : ExceptT ε (StateT σ (Draw γ)) α}
    {f : α → ExceptT ε (StateT σ (Draw γ)) β} {s : σ} (hx : Ensures x s fun _ t => Q s t)
    (hf : ∀ a t, Ensures (f a) t fun _ u => Q t u) : Ensures (x >>= f) s fun _ u => Q s u := by
  refine Ensures.bind hx ?_ fun _ _ h => h
  intro a t ht
  exact (hf a t).mono fun _ u hu => htrans s t u ht hu

namespace Revision

variable {ind : Individual}

theorem views_query {q : Individual → Except ActionError α} :
    Views (query q : Revision γ α) ind fun a => q ind = .ok a := by
  refine ⟨trivial, ?_⟩
  rintro r u ⟨s, s', h⟩
  cases h
  exact ⟨rfl, fun _ h => h⟩

theorem ensures_set {u : Individual} {Q : Except ActionError PUnit → Individual → Prop}
    (h : Q (.ok ⟨⟩) u) : Ensures (set u : Revision γ PUnit) ind Q := Ensures.set h

theorem ensures_draw_bind {d : Draw γ α} {f : α → Revision γ β}
    {Q : Except ActionError β → Individual → Prop}
    (h : ∀ a, Gives d a → Ensures (f a) ind Q) :
    Ensures ((StateT.lift d : StateT Individual (Draw γ) α) >>= f : Revision γ β) ind Q := by
  refine Ensures.bind_ok (P := fun a u => u = ind ∧ Gives d a) (Ensures.lift trivial fun a u hr => ?_) ?_
  · have hr : Gives (d >>= fun a => pure (a, ind)) (a, u) := hr
    obtain ⟨b, hb, hc⟩ := Draw.gives_of_bind hr
    obtain ⟨rfl, rfl⟩ := Prod.mk.inj (Draw.eq_of_gives_pure hc)
    exact ⟨_, rfl, rfl, hb⟩
  · rintro a u ⟨rfl, ha⟩
    exact h a ha

/-- An edit of a gene changes the tree of its parameter only. -/
theorem ensures_editGene {id : ActionId} {param : Nat} {t : GeneTree} {m : RandomEdit γ α}
    {P : Except GeneError α → GeneTree → Prop} (ht : ind.gene id param = .ok t) (hm : Ensures m t P) :
    Ensures (editGene id param m) ind fun r u =>
      ∃ r' t', P r' t' ∧ u = ind.setGene id param t' ∧ r = r'.mapError .gene := by
  refine Ensures.bind_ok (P := fun a u => a = t ∧ u = ind) ?_ ?_
  · refine ⟨trivial, ?_⟩
    rintro r u ⟨s, s', h⟩
    cases h
    exact ⟨t, ht, rfl, rfl⟩
  · rintro a u ⟨rfl, rfl⟩
    refine ensures_draw_bind ?_
    rintro ⟨r', t'⟩ ht'
    refine ⟨trivial, ?_⟩
    rintro r u ⟨s, s', h⟩
    cases h
    exact ⟨r', t', hm.2 r' t' ht', rfl, rfl⟩

theorem ensures_applyLink {l : Link} :
    Ensures (applyLink l : Revision γ Bool) ind fun r u => u = ind ∨
      ∃ source t, ind.sourceValue? l = some source ∧
        ind.gene l.target.action l.target.param = .ok t ∧ t.contains l.target.node = true ∧
        ∃ r' t', Gives ((Edit.adopt l.target.node source source.root).run.run t) (r', t') ∧
          u = ind.setGene l.target.action l.target.param t' ∧ r = r'.mapError .gene := by
  refine Ensures.get_bind ?_
  cases hsource : ind.sourceValue? l with
  | none => exact Ensures.pure (.inl rfl)
  | some source =>
    refine views_query.ensures_bind ?_ fun _ => .inl rfl
    intro t ht
    split
    · next hnode =>
      have hadopt : Ensures (RandomEdit.lift (Edit.adopt l.target.node source source.root) :
          RandomEdit γ Bool) t fun r' t' => Gives ((Edit.adopt l.target.node source source.root).run.run t) (r', t') :=
        ⟨trivial, fun _ _ h => RandomEdit.gives_of_lift h⟩
      refine (ensures_editGene ht hadopt).mono ?_
      rintro r u ⟨r', t', hgives, hu⟩
      exact .inr ⟨source, t, rfl, ht, hnode, r', t', hgives, hu⟩
    · exact Ensures.pure (.inl rfl)

/-- What every link keeps to, a pass over links keeps to. -/
theorem ensures_applyAll {Q : Individual → Individual → Prop} (hrefl : ∀ s, Q s s)
    (htrans : ∀ s t u, Q s t → Q t u → Q s u) {links : List Link}
    (hlink : ∀ l ∈ links, ∀ s, Ensures (applyLink l : Revision γ Bool) s fun _ t => Q s t) :
    Ensures (applyAll links : Revision γ Nat) ind fun _ u => Q ind u := by
  induction links generalizing ind with
  | nil => exact Ensures.pure (hrefl ind)
  | cons l rest ih =>
    refine Ensures.bind_rel htrans (hlink l List.mem_cons_self ind) ?_
    intro applied t
    refine Ensures.map ?_
    exact ih fun k hk => hlink k (List.mem_cons_of_mem _ hk)

/-- What links of an individual keep to beside its links, a pass over such links keeps to. -/
theorem ensures_applyAll_of_mem {Q : Individual → Individual → Prop} (hrefl : ∀ s, Q s s)
    (htrans : ∀ s t u, Q s t → Q t u → Q s u)
    (hlink : ∀ s, ∀ l ∈ s.links, Ensures (applyLink l : Revision γ Bool) s fun _ t => t.links = s.links ∧ Q s t)
    {links : List Link} (hlinks : links ⊆ ind.links) :
    Ensures (applyAll links : Revision γ Nat) ind fun _ u => u.links = ind.links ∧ Q ind u := by
  -- the links of the pass have to be known as links of each individual that it goes through
  have hpass : Ensures (applyAll links : Revision γ Nat) ind fun _ u =>
      links ⊆ ind.links → u.links = ind.links ∧ Q ind u := by
    refine ensures_applyAll (Q := fun s u => links ⊆ s.links → u.links = s.links ∧ Q s u) ?_ ?_ ?_
    · exact fun s _ => ⟨rfl, hrefl s⟩
    · intro s t u hst htu hsub
      obtain ⟨hsame, hQ⟩ := hst hsub
      obtain ⟨hsame', hQ'⟩ := htu (hsame ▸ hsub)
      exact ⟨hsame'.trans hsame, htrans s t u hQ hQ'⟩
    · exact fun l hl s => ⟨trivial, fun r u hr hsub => (hlink s l (hsub hl)).2 r u hr⟩
  exact hpass.mono fun _ _ h => h hlinks

end Revision

namespace Linking

variable {ind : Individual}

theorem views_search {s : Matching.Proposal γ α} :
    Views (search s : Linking γ α) ind fun a => Gives s.run (.ok a) := by
  refine ⟨trivial, fun r u hr => ?_⟩
  have hr : Gives (s.run >>= fun r => pure (r, ind)) (r, u) := hr
  obtain ⟨r', hr', h⟩ := Draw.gives_of_bind hr
  obtain ⟨rfl, rfl⟩ := Prod.mk.inj (Draw.eq_of_gives_pure h)
  refine ⟨rfl, fun a ha => ?_⟩
  rwa [ha] at hr'

theorem ensures_revise {m : Revision γ α} {Q : Except LinkError α → Individual → Prop}
    (h : Ensures m ind fun r u => Q (r.mapError .action) u) : Ensures (revise m) ind Q := by
  refine ⟨trivial, fun r u hr => ?_⟩
  have hr : Gives (m.run.run ind >>= fun p => pure (p.1.mapError .action, p.2)) (r, u) := hr
  obtain ⟨⟨r', u'⟩, hr', h'⟩ := Draw.gives_of_bind hr
  obtain ⟨rfl, rfl⟩ := Prod.mk.inj (Draw.eq_of_gives_pure h')
  exact h.2 r' _ hr'

theorem gives_of_get_bind {f : Individual → Linking γ α} {r : Except LinkError α} {u : Individual}
    (h : Gives ((get >>= f).run.run ind) (r, u)) : Gives ((f ind).run.run ind) (r, u) := h

theorem gives_of_revise {m : Revision γ α} {a : α} {u : Individual}
    (h : Gives ((revise m).run.run ind) (.ok a, u)) : Gives (m.run.run ind) (.ok a, u) := by
  have h : Gives (m.run.run ind >>= fun p => pure (p.1.mapError LinkError.action, p.2)) (.ok a, u) := h
  obtain ⟨⟨r, u'⟩, hr, hlast⟩ := Draw.gives_of_bind h
  have hlast := Draw.eq_of_gives_pure hlast
  cases r with
  | ok b =>
    cases hlast
    exact hr
  | error e => cases hlast

end Linking

namespace Attempt

variable {ε : Type}

/-- An attempt that can succeed with a result. -/
def Yields (x : ExceptT ε (Draw γ) α) (a : α) : Prop := Gives x.run (.ok a)

/-- The result of an attempt and the generator it leaves, if it succeeds. -/
def result? (x : ExceptT ε (Draw γ) α) (g : γ) : Option (α × γ) :=
  (x.run g).toOption.bind fun r => r.1.toOption.map fun a => (a, r.2)

theorem run_of_result? {x : ExceptT ε (Draw γ) α} {a : α} {g g' : γ} (h : result? x g = some (a, g')) :
    x.run g = .ok (.ok a, g') := by
  rw [result?] at h
  cases hx : x.run g with
  | error f =>
    rw [hx] at h
    cases h
  | ok r =>
    obtain ⟨r, k⟩ := r
    rw [hx] at h
    cases r with
    | error e => cases h
    | ok b =>
      cases h
      rfl

theorem of_bind {x : ExceptT ε (Draw γ) α} {f : α → ExceptT ε (Draw γ) β} {b : β}
    (h : Yields (x >>= f) b) : ∃ a, Yields x a ∧ Yields (f a) b := by
  obtain ⟨r, hr, h⟩ := Draw.gives_of_bind h
  cases r with
  | ok a => exact ⟨a, hr, h⟩
  | error e => cases Draw.eq_of_gives_pure h

theorem eq_of_pure {a b : α} (h : Yields (pure a : ExceptT ε (Draw γ) α) b) : b = a :=
  Except.ok.inj (Draw.eq_of_gives_pure h)

theorem not_throw {e : ε} {a : α} : ¬ Yields (throw e : ExceptT ε (Draw γ) α) a := by
  intro h
  cases Draw.eq_of_gives_pure h

theorem of_mapM {f : α → ExceptT ε (Draw γ) β} {l : List α} {ys : List β}
    (h : Yields (l.mapM f) ys) : ∀ y ∈ ys, ∃ x ∈ l, Yields (f x) y := by
  induction l generalizing ys with
  | nil =>
    rw [List.mapM_nil] at h
    rw [eq_of_pure h]
    simp
  | cons x l ih =>
    rw [List.mapM_cons] at h
    obtain ⟨y, hy, h⟩ := of_bind h
    obtain ⟨rest, hrest, h⟩ := of_bind h
    rw [eq_of_pure h]
    intro z hz
    rcases List.mem_cons.mp hz with rfl | hz
    · exact ⟨x, by simp, hy⟩
    · obtain ⟨w, hw, hwz⟩ := ih hrest z hz
      exact ⟨w, List.mem_cons_of_mem _ hw, hwz⟩

theorem gives_of_lift {d : Draw γ α} {a : α} (h : Yields (liftM d : ExceptT ε (Draw γ) α) a) :
    Gives d a := by
  have h : Gives (d >>= fun a => pure (Except.ok a)) (.ok a : Except ε α) := h
  obtain ⟨b, hb, h⟩ := Draw.gives_of_bind h
  rw [Except.ok.inj (Draw.eq_of_gives_pure h)]
  exact hb

theorem eq_ok_of_mapError {ε' : Type} {wrap : ε' → ε} {r : Except ε' α} {a : α}
    (h : Yields (ExceptT.mk (pure (r.mapError wrap)) : ExceptT ε (Draw γ) α) a) : r = .ok a := by
  have h := Draw.eq_of_gives_pure h
  cases r with
  | error e => cases h
  | ok b =>
    cases h
    rfl

theorem gives_of_ofChange {wrap : ε → SearchError} {m : Draw γ (Except ε α × β)} {a : α}
    {b : β} (h : Yields (ofChange wrap m) (a, b)) : Gives m (.ok a, b) := by
  obtain ⟨⟨r, b'⟩, hr, h⟩ := Draw.gives_of_bind h
  have h := Draw.eq_of_gives_pure h
  cases r with
  | ok a' =>
    cases h
    exact hr
  | error e => cases h

end Attempt
end CallEvolution
