import CallEvolution.Proofs.Proposals

/-! Where the links of a linker start and end: in two actions of those that are matched, or in a row and
the action of a directive. -/

namespace CallEvolution

open Attempt Matching

/-- Does a link lead from a parameter of one of the actions to a parameter of one of the others? -/
def Link.Leads (l : Link) (sources targets : List Action) : Prop :=
  (∃ a ∈ sources, ∃ v ∈ ParamSite.ofAction a, v.Gives l.source) ∧
    ∃ b ∈ targets, ∃ w ∈ ParamSite.ofAction b, w.Takes l.target

/-- Does a link join a column of a row to a parameter of an action? A column is the target only if the
row does not exist yet and the parameter has the better rank. -/
def Link.Directs (l : Link) (row a : Action) : Prop :=
  l.origin = .database ∧ ∃ v ∈ ParamSite.ofAction row, ∃ w ∈ ParamSite.ofAction a,
    (l.source = v.address v.tree.root ∧ w.Takes l.target) ∨
    (row.isExisting = false ∧ w.Gives l.source ∧ l.target = v.address v.tree.root ∧
      ∃ k s, v.tree.variant v.tree.root = .ok k ∧ w.tree.variant l.source.node = .ok s ∧
        direction k s none = .reversed)

theorem Link.Leads.mono {l : Link} {sources targets sources' targets' : List Action}
    (h : l.Leads sources targets) (hs : sources ⊆ sources') (ht : targets ⊆ targets') :
    l.Leads sources' targets' := by
  obtain ⟨⟨a, ha, hsource⟩, b, hb, htarget⟩ := h
  exact ⟨⟨a, hs ha, hsource⟩, b, ht hb, htarget⟩

/-- Does a link join parameters of the actions? -/
def Link.Within (l : Link) (as : List Action) : Prop := l.Leads as as

theorem ParamSite.mem_ofAction_iff {a : Action} {v : ParamSite} :
    v ∈ ofAction a ↔ ∃ i p, a.param? i = some p ∧ v = ⟨a.id, i, p, a.path?⟩ := by
  rw [ofAction, List.mem_map]
  constructor
  · rintro ⟨⟨p, i⟩, hmem, rfl⟩
    exact ⟨i, p, List.mem_zipIdx_iff_getElem?.mp hmem, rfl⟩
  · rintro ⟨i, p, hp, rfl⟩
    exact ⟨(p, i), List.mem_zipIdx_iff_getElem?.mpr hp, rfl⟩

theorem ParamSite.action_of_mem {a : Action} {v : ParamSite} (h : v ∈ ofAction a) :
    v.action = a.id := by
  obtain ⟨i, p, -, rfl⟩ := mem_ofAction_iff.mp h
  rfl

namespace Link

variable {l : Link} {as bs : List Action} {a b : Action} {v w : ParamSite}

theorem Leads.target_mem (h : l.Leads as bs) : l.target.action ∈ bs.map Action.id := by
  obtain ⟨-, b, hb, w, hw, htarget⟩ := h
  rw [htarget.1.1, ParamSite.action_of_mem hw]
  exact List.mem_map_of_mem hb

theorem Within.mono (h : l.Within as) (hsub : as ⊆ bs) : l.Within bs := Leads.mono h hsub hsub

theorem within_of_joins (ha : a ∈ as) (hv : v ∈ ParamSite.ofAction a) (hb : b ∈ as)
    (hw : w ∈ ParamSite.ofAction b) (h : v.Joins w l) : l.Within as := by
  rcases h.2 with ⟨hsource, htarget⟩ | ⟨-, hsource, htarget⟩
  · exact ⟨⟨a, ha, v, hv, hsource⟩, b, hb, w, hw, htarget⟩
  · exact ⟨⟨b, hb, w, hw, hsource⟩, a, ha, v, hv, htarget⟩

end Link

namespace Linker

variable {γ : Type} [RandomSource γ] {r : Linker} {target : ParamSite} {l : Link} {ls : List Link}
  {candidates targets : List ParamSite} {earlier as before after : List Action} {a : Action}

omit [RandomSource γ] in
theorem joins_of_linkFrom {candidate : Option ParamSite} (h : linkFrom target candidate = .ok ls) :
    ∀ l ∈ ls, ∃ v, candidate = some v ∧ v.Joins target l := by
  cases candidate with
  | none =>
    cases h
    exact List.forall_mem_nil _
  | some v =>
    obtain ⟨l, hl, h⟩ := ok_of_bind h
    cases h
    rw [List.forall_mem_singleton]
    exact ⟨v, rfl, joins_of_valueLink hl⟩

theorem joins_of_linksInto (h : Yields (r.linksInto target candidates : Proposal γ (List Link)) ls) :
    ∀ l ∈ ls, ∃ v ∈ candidates, v.Joins target l := by
  have hfrom : ∀ p : ParamSite → Bool,
      Yields (ofGene (linkFrom target (candidates.find? p)) : Proposal γ (List Link)) ls →
        ∀ l ∈ ls, ∃ v ∈ candidates, v.Joins target l := by
    intro p h l hl
    obtain ⟨v, hv, hjoins⟩ := joins_of_linkFrom (eq_ok_of_ofGene h) l hl
    exact ⟨v, List.mem_of_find?_eq_some hv, hjoins⟩
  have hbody : ∀ body rest, candidates = body :: rest →
      Yields (ofGene (linksWithBody body target false) : Proposal γ (List Link)) ls →
        ∀ l ∈ ls, ∃ v ∈ candidates, v.Joins target l := by
    rintro body rest rfl h l hl
    have hjoins := joins_of_linksWithBody (eq_ok_of_ofGene h) l hl
    exact ⟨body, List.mem_cons_self, by simpa using hjoins⟩
  have hnone : Yields (pure [] : Proposal γ (List Link)) ls →
      ∀ l ∈ ls, ∃ v ∈ candidates, v.Joins target l := by
    intro h
    rw [eq_of_pure h]
    exact List.forall_mem_nil _
  unfold linksInto at h
  cases hrole : target.param.role <;> rw [hrole] at h <;> dsimp only at h
  case path | form | header =>
    split at h
    · split at h
      · exact hbody _ _ rfl h
      · exact hnone h
    · exact hfrom _ h
  case query =>
    split at h
    · exact hbody _ _ rfl h
    · exact hfrom _ h
  case body =>
    split at h
    · exact hnone h
    · next first rest _ =>
      exact fun l hl => ⟨first, List.mem_cons_self, joins_of_bodyLinks h l hl⟩
    · obtain ⟨each, heach, h⟩ := of_bind h
      rw [eq_of_pure h]
      intro l hl
      obtain ⟨ks, hks, hl⟩ := List.mem_flatten.mp hl
      obtain ⟨v, hv, hlinks⟩ := ok_of_mapM (eq_ok_of_ofGene heach) ks hks
      have hjoins := joins_of_linksWithBody hlinks l hl
      exact ⟨v, List.mem_of_mem_filter hv, by simpa using hjoins⟩
  case dbColumn | result => exact hnone h

theorem joins_of_proposals (h : Yields (r.proposals targets earlier : Proposal γ (List Link)) ls) :
    ∀ l ∈ ls, ∃ a ∈ earlier, ∃ v ∈ ParamSite.ofAction a, ∃ w ∈ targets, v.Joins w l := by
  induction targets generalizing ls with
  | nil =>
    rw [eq_of_pure h]
    exact List.forall_mem_nil _
  | cons target targets ih =>
    obtain ⟨each, heach, h⟩ := of_bind h
    obtain ⟨rest, hrest, h⟩ := of_bind h
    rw [eq_of_pure h, List.forall_mem_append]
    constructor
    · intro l hl
      obtain ⟨ks, hks, hl⟩ := List.mem_flatten.mp hl
      obtain ⟨a, ha, hlinks⟩ := of_mapM heach ks hks
      obtain ⟨v, hv, hjoins⟩ := joins_of_linksInto hlinks l hl
      exact ⟨a, ha, v, hv, target, List.mem_cons_self, hjoins⟩
    · intro l hl
      obtain ⟨a, ha, v, hv, w, hw, hjoins⟩ := ih hrest l hl
      exact ⟨a, ha, v, hv, w, List.mem_cons_of_mem _ hw, hjoins⟩

/-- Links for the parameters of an action lead to it from the actions before it. -/
theorem leads_of_proposals (hid : a.id ∉ earlier.map Action.id)
    (h : Yields (r.proposals (ParamSite.ofAction a) earlier : Proposal γ (List Link)) ls) :
    ∀ l ∈ ls, l.Leads earlier [a] := by
  intro l hl
  obtain ⟨b, hb, v, hv, w, hw, hjoins⟩ := joins_of_proposals h l hl
  have hne : v.action ≠ w.action := by
    rw [ParamSite.action_of_mem hv, ParamSite.action_of_mem hw]
    exact fun he => hid (he ▸ List.mem_map_of_mem hb)
  obtain ⟨hsource, htarget⟩ := hjoins.of_ne hne
  exact ⟨⟨b, hb, v, hv, hsource⟩, a, List.mem_singleton_self a, w, hw, htarget⟩

theorem within_of_proposals
    (h : Yields (r.proposals (ParamSite.ofAction a) earlier : Proposal γ (List Link)) ls) :
    ∀ l ∈ ls, l.Within (earlier ++ [a]) := by
  intro l hl
  obtain ⟨b, hb, v, hv, w, hw, hjoins⟩ := joins_of_proposals h l hl
  exact Link.within_of_joins (List.mem_append_left _ hb) hv (by simp) hw hjoins

theorem within_of_allProposals (h : Yields (r.allProposals earlier as : Proposal γ (List Link)) ls) :
    ∀ l ∈ ls, l.Within (earlier ++ as) := by
  induction as generalizing earlier ls with
  | nil =>
    rw [eq_of_pure h]
    exact List.forall_mem_nil _
  | cons a as ih =>
    obtain ⟨own, hown, h⟩ := of_bind h
    obtain ⟨rest, hrest, h⟩ := of_bind h
    have happend : earlier ++ a :: as = earlier ++ [a] ++ as := by simp
    rw [eq_of_pure h, List.forall_mem_append, happend]
    exact ⟨fun l hl => (within_of_proposals hown l hl).mono (List.subset_append_left _ _), ih hrest⟩

theorem within_of_proposalsAround
    (h : Yields (r.proposalsAround before a after : Proposal γ (List Link)) ls) :
    ∀ l ∈ ls, l.Within (before ++ a :: after) := by
  obtain ⟨own, hown, h⟩ := of_bind h
  obtain ⟨later, hlater, h⟩ := of_bind h
  rw [eq_of_pure h, List.forall_mem_append]
  constructor
  · exact fun l hl => (within_of_proposals hown l hl).mono (by simp)
  · intro l hl
    obtain ⟨ks, hks, hl⟩ := List.mem_flatten.mp hl
    obtain ⟨b, hb, hks⟩ := of_mapM hlater ks hks
    have hpair : [a] ++ [b] ⊆ before ++ a :: after := by simp [hb]
    exact (within_of_proposals hks l hl).mono hpair

/-- Links are proposed in the order of their targets, and each source comes before its target: no link
leads to an action that an earlier one starts from. -/
theorem forward_of_allProposals (hids : ((earlier ++ as).map Action.id).Nodup)
    (h : Yields (r.allProposals earlier as : Proposal γ (List Link)) ls) :
    (∀ l ∈ ls, l.Leads (earlier ++ as) as ∧ l.source.action ≠ l.target.action) ∧
      ls.Pairwise fun l k => l.source.action ≠ k.target.action := by
  induction as generalizing earlier ls with
  | nil =>
    rw [eq_of_pure h]
    exact ⟨List.forall_mem_nil _, .nil⟩
  | cons a as ih =>
    obtain ⟨own, hown, h⟩ := of_bind h
    obtain ⟨rest, hrest, h⟩ := of_bind h
    have happend : earlier ++ [a] ++ as = earlier ++ a :: as := by simp
    obtain ⟨hlater, horder⟩ := ih (happend.symm ▸ hids) hrest
    rw [happend] at hlater
    rw [List.map_append, List.nodup_append] at hids
    have hfresh : a.id ∉ earlier.map Action.id := fun hmem => hids.2.2 a.id hmem a.id (by simp) rfl
    have hown := leads_of_proposals hfresh hown
    -- the links to the first action start before it, the later links lead behind it
    have hapart : ∀ l ∈ own, ∀ k : Link, ∀ bs ⊆ a :: as, k.Leads (earlier ++ a :: as) bs →
        l.source.action ≠ k.target.action := by
      intro l hl k bs hbs hk
      obtain ⟨⟨b, hb, v, hv, hsource⟩, -⟩ := hown l hl
      obtain ⟨-, c, hc, w, hw, htarget⟩ := hk
      rw [hsource.1.1, htarget.1.1, ParamSite.action_of_mem hv, ParamSite.action_of_mem hw]
      exact hids.2.2 b.id (List.mem_map_of_mem hb) c.id (List.mem_map_of_mem (hbs hc))
    have hown' : ∀ l ∈ own, l.Leads (earlier ++ a :: as) (a :: as) := fun l hl =>
      (hown l hl).mono (by simp) (by simp)
    have hrest' : ∀ l ∈ rest, l.Leads (earlier ++ a :: as) (a :: as) := fun l hl =>
      (hlater l hl).1.mono (List.Subset.refl _) (by simp)
    rw [eq_of_pure h, List.forall_mem_append, List.pairwise_append]
    refine ⟨⟨fun l hl => ⟨hown' l hl, ?_⟩, fun l hl => ⟨hrest' l hl, (hlater l hl).2⟩⟩, ?_, horder, ?_⟩
    · exact hapart l hl l _ (List.Subset.refl _) (hown' l hl)
    · rw [List.pairwise_iff_forall_sublist]
      intro l k hlk
      have hl : l ∈ own := hlk.subset (by simp)
      have hk : k ∈ own := hlk.subset (by simp)
      exact hapart l hl k _ (List.Subset.refl _) (hown' k hk)
    · exact fun l hl k hk => hapart l hl k _ (List.Subset.refl _) (hrest' k hk)

end Linker

namespace Matching

variable {t : GeneTree} {x : NodeId} {d : DbDirective} {row a : Action} {i j : Nat} {p q : Parameter}
  {l : Link} {ind : Individual}

theorem mem_of_field {object : NodeId} {name : String} (h : t.field object name = .ok (some x)) :
    ∃ fields type, t.gene object = .ok (.object fields type) ∧ x ∈ fields := by
  obtain ⟨g, hg, h⟩ := ok_of_bind h
  split at h
  · next fields type =>
    refine ⟨fields, type, hg, ?_⟩
    clear hg
    induction fields with
    | nil => cases h
    | cons f fields ih =>
      rw [List.findM?] at h
      obtain ⟨found, -, h⟩ := ok_of_bind h
      cases found with
      | true =>
        cases h
        exact List.mem_cons_self
      | false => exact List.mem_cons_of_mem _ (ih h)
  · cases h

theorem bears_of_directedNode? (h : directedNode? d t = .ok (some x)) : t.Bears x := by
  obtain ⟨value, hvalue, h⟩ := ok_of_bind h
  have hvalue := (GeneTree.fixes_root t).bears_core hvalue
  split at h
  · cases h
    exact hvalue
  · obtain ⟨k, -, h⟩ := ok_of_bind h
    split at h
    · cases h
    · obtain ⟨found, hfound, h⟩ := ok_of_bind h
      cases found with
      | none => cases h
      | some f =>
        obtain ⟨y, hy, h⟩ := ok_of_bind h
        cases h
        obtain ⟨fields, type, hg, hf⟩ := mem_of_field hfound
        exact (hvalue.1.child hg rfl hf).bears_core hy

theorem directs_of_directedLink? (hp : row.param? i = some p) (hq : a.param? j = some q)
    (h : directedLink? d row a (i, p) (j, q) = .ok (some l)) : l.Directs row a := by
  have hrow := ParamSite.mem_ofAction_iff.mpr ⟨i, p, hp, rfl⟩
  have ha := ParamSite.mem_ofAction_iff.mpr ⟨j, q, hq, rfl⟩
  obtain ⟨node, hnode, h⟩ := ok_of_bind h
  cases node with
  | none => cases h
  | some node =>
    have hbears := bears_of_directedNode? hnode
    obtain ⟨k, hk, h⟩ := ok_of_bind h
    obtain ⟨s, hs, h⟩ := ok_of_bind h
    split at h
    · obtain ⟨y, hy, h⟩ := ok_of_bind h
      cases h
      exact ⟨rfl, _, hrow, _, ha, .inl ⟨rfl, ParamSite.takes_of_entryPoint hbears hy⟩⟩
    · next hdirection =>
      cases h
      split at hdirection
      · cases hdirection
      · next hnew =>
        rw [Bool.not_eq_true] at hnew
        exact ⟨rfl, _, hrow, _, ha,
          .inr ⟨hnew, ParamSite.gives_address hbears, rfl, k, s, hk, hs, hdirection⟩⟩

theorem param_of_findParam {f : Parameter → Bool} (h : findParam a f = some (i, p)) :
    a.param? i = some p := by
  obtain ⟨k, -, h⟩ := Option.bind_eq_some_iff.mp h
  obtain ⟨q, hq, h⟩ := Option.bind_eq_some_iff.mp h
  cases h
  exact hq

theorem directs_of_linkOfDirective? (h : linkOfDirective? ind a d = .ok (some l)) :
    ∃ row ∈ ind.init, l.Directs row a := by
  rw [linkOfDirective?] at h
  split at h
  · next row column param hparts =>
    obtain ⟨row', hrow, hparts⟩ := Option.bind_eq_some_iff.mp hparts
    obtain ⟨⟨i, p⟩, hcolumn, hparts⟩ := Option.bind_eq_some_iff.mp hparts
    obtain ⟨⟨j, q⟩, hparam, hparts⟩ := Option.bind_eq_some_iff.mp hparts
    cases hparts
    refine ⟨row, List.mem_reverse.mp (List.mem_of_find?_eq_some hrow), ?_⟩
    exact directs_of_directedLink? (param_of_findParam hcolumn) (param_of_findParam hparam) h
  · cases h

end Matching

/-- The links that directives make join rows to the action. -/
theorem Linker.directs_of_directedLinks {r : Linker} {ind : Individual} {a : Action}
    {ds : List DbDirective} {ls : List Link} (h : r.directedLinks ind a ds = .ok ls) :
    ∀ l ∈ ls, ∃ row ∈ ind.init, l.Directs row a := by
  induction ds generalizing ls with
  | nil =>
    cases h
    exact List.forall_mem_nil _
  | cons d ds ih =>
    rw [directedLinks] at h
    split at h
    · cases h
    · obtain ⟨link, hlink, h⟩ := ok_of_bind h
      obtain ⟨links, hrest, h⟩ := ok_of_bind h
      cases h
      rw [List.forall_mem_append]
      refine ⟨fun l hl => ?_, ih hrest⟩
      rw [Option.mem_toList] at hl
      subst hl
      cases hd : linkOfDirective? ind a d with
      | error e =>
        rw [hd] at hlink
        cases hlink
      | ok k =>
        rw [hd] at hlink
        cases hlink
        exact directs_of_linkOfDirective? hd

end CallEvolution
