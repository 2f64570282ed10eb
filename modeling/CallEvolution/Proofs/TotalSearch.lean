import CallEvolution.Proofs.LinkEnds
import CallEvolution.Proofs.Scores
import CallEvolution.Proofs.TotalReading

/-! Searches that end the same way whatever words are drawn. If inactive optionals take part always or
never, the search for links in well-formed trees is one of them. -/

namespace CallEvolution

open GeneTerm GeneTree Matching

namespace Attempt

variable {γ ε α β : Type} {x : ExceptT ε (Draw γ) α} {f : α → ExceptT ε (Draw γ) β} {a b : α}

/-- An attempt that succeeds with one result from every state of the source. -/
def Settles (x : ExceptT ε (Draw γ) α) (a : α) : Prop := ∀ g, ∃ g', x.run g = .ok (.ok a, g')

theorem settles_pure (a : α) : Settles (pure a : ExceptT ε (Draw γ) α) a := fun g => ⟨g, rfl⟩

theorem Settles.bind {b : β} (hx : Settles x a) (hf : Settles (f a) b) : Settles (x >>= f) b := by
  intro g
  obtain ⟨g', hg⟩ := hx g
  obtain ⟨g'', hg'⟩ := hf g'
  refine ⟨g'', ?_⟩
  change (x.run g >>= _) = _
  rw [hg]
  exact hg'

theorem Settles.yields [Nonempty γ] (hx : Settles x a) : Yields x a := by
  obtain ⟨g⟩ := ‹Nonempty γ›
  obtain ⟨g', hg⟩ := hx g
  exact ⟨g, g', hg⟩

theorem Settles.eq_of_yields (hx : Settles x a) (hb : Yields x b) : b = a := by
  obtain ⟨g, g', hg⟩ := hb
  obtain ⟨g'', hg'⟩ := hx g
  change x.run g = _ at hg
  rw [hg'] at hg
  exact (Except.ok.inj (Prod.mk.inj (Except.ok.inj hg)).1).symm

theorem exists_settles_bind (hx : Settles x a) (hf : ∃ b, Settles (f a) b) :
    ∃ b, Settles (x >>= f) b := by
  obtain ⟨b, hb⟩ := hf
  exact ⟨b, hx.bind hb⟩

theorem settles_mapM {f : α → ExceptT ε (Draw γ) β} {l : List α}
    (h : ∀ a ∈ l, ∃ b, Settles (f a) b) :
    ∃ bs, Settles (l.mapM f) bs ∧ List.Forall₂ (fun a b => Settles (f a) b) l bs := by
  induction l with
  | nil => exact ⟨[], settles_pure [], .nil⟩
  | cons a l ih =>
    obtain ⟨b, hb⟩ := h a (by simp)
    obtain ⟨bs, hbs, hall⟩ := ih fun c hc => h c (by simp [hc])
    refine ⟨b :: bs, ?_, .cons hb hall⟩
    rw [List.mapM_cons]
    exact hb.bind (hbs.bind (settles_pure _))

theorem settles_lift {d : Draw γ α} (h : ∀ g, ∃ g', d g = .ok (a, g')) :
    Settles (liftM d : ExceptT ε (Draw γ) α) a := by
  intro g
  obtain ⟨g', hg⟩ := h g
  refine ⟨g', ?_⟩
  change (d g >>= fun r => Except.ok (Except.ok r.1, r.2)) = _
  rw [hg]
  rfl

theorem settles_ofGene {r : Except GeneError α} (h : r = .ok a) :
    Settles (Matching.ofGene r : Proposal γ α) a := by
  rw [h]
  exact fun g => ⟨g, rfl⟩

theorem exists_settles_ofGene {r : Except GeneError α} (h : ∃ a, r = .ok a) :
    ∃ a, Settles (Matching.ofGene r : Proposal γ α) a := by
  obtain ⟨a, ha⟩ := h
  exact ⟨a, settles_ofGene ha⟩

theorem exists_settles_ofGene_bind {r : Except GeneError α} {f : α → Proposal γ β}
    (h : ∃ a, r = .ok a) (hf : ∀ a, r = .ok a → ∃ b, Settles (f a) b) :
    ∃ b, Settles (Matching.ofGene r >>= f) b := by
  obtain ⟨a, ha⟩ := h
  exact exists_settles_bind (settles_ofGene ha) (hf a ha)

end Attempt

theorem GeneTerm.height_core_le (v : GeneTerm) : v.core.height ≤ v.height := by
  induction v using induct with
  | node id content parts ih =>
    by_cases hw : content.gene.isWrapper = true
    · cases parts with
      | nil => simp [core, hw]
      | cons p rest =>
        have hp := ih p (by simp)
        have hlt := height_lt_of_part id content (List.mem_cons_self (a := p) (l := rest))
        simp only [core, hw, if_true, List.map_cons, List.headD_cons]
        omega
    · rw [Bool.not_eq_true] at hw
      rw [core_self hw]

namespace Binary

variable {F : Format}

theorem truncate?_round_zero (negative : Bool) (den : Nat) :
    (round negative 0 den : Binary F).truncate? = some 0 := by
  have hnearest : ∀ d, nearest 0 d = 0 := fun d => by simp [nearest]
  have hpos := twoPow_pos F.top
  cases negative <;> simp [round, hnearest, hpos, truncate?, signed]

theorem isFinite_of_same {x y : Binary F} (h : x.same y = true) (hy : y.isFinite = true) :
    x.isFinite = true := by
  cases x with
  | finite s m h => rfl
  | nan | infinity s =>
    cases y with
    | nan | infinity t => simp [isFinite] at hy
    | finite t n k => simp [same] at h

theorem truncate?_mul_of_zero {x y : Binary F} (hx : x.isFinite = true) (hrank : x.rank = 0)
    (hy : y.isFinite = true) : (x * y).truncate? = some 0 := by
  cases x with
  | nan | infinity s => simp [isFinite] at hx
  | finite s m h =>
    cases y with
    | nan | infinity t => simp [isFinite] at hy
    | finite t n k =>
      have hm : m = 0 := by
        cases s <;> simp [rank, signed] at hrank <;> omega
      subst hm
      have hmul : (finite s 0 h * finite t n k : Binary F) =
          round (s ^^ t) (0 * n) (twoPow F.fraction) := rfl
      rw [hmul, Nat.zero_mul]
      exact truncate?_round_zero _ _

end Binary

namespace Draw

variable {γ : Type} [RandomSource γ] {p : Double}

theorem chance_never (hp : p.same 0 = true) (g : γ) : ∃ g', chance p g = .ok (false, g') := by
  have hbounds : (0 : Double).isFinite = true ∧ (1 : Double).isFinite = true ∧
      (0 : Double).rank = 0 ∧ 0 < (1 : Double).rank := by decide +kernel
  have hfinite := Binary.isFinite_of_same hp hbounds.1
  rw [Binary.same_iff_rank hfinite hbounds.1, hbounds.2.2.1] at hp
  have hone : ¬ p.same 1 = true := by
    rw [Binary.same_iff_rank hfinite hbounds.2.1, hp]
    exact Int.ne_of_lt hbounds.2.2.2
  have hle : 0 ≤ p := by
    rw [Binary.le_iff_rank hbounds.1 hfinite, hp, hbounds.2.2.1]
  have hlt : p < 1 := by
    rw [Binary.lt_iff_rank hfinite hbounds.2.1, hp]
    exact hbounds.2.2.2
  have hthreshold : (p * Binary.ofInt (twoPow 64)).truncate?.getD 0 = 0 := by
    rw [Binary.truncate?_mul_of_zero hfinite hp (by decide +kernel)]
    rfl
  refine ⟨(RandomSource.next64 g).2, ?_⟩
  rw [chance, if_neg hone, if_pos ⟨hle, hlt⟩, hthreshold]
  change Except.ok (decide (((RandomSource.next64 g).1.toNat : Int) < 0), _) = _
  rw [decide_eq_false (Int.not_lt.mpr (Int.natCast_nonneg _))]
  rfl

/-- A chance of nothing or of certainty. -/
theorem settled_chance (hp : p.same 0 = true ∨ p.same 1 = true) :
    ∃ b, ∀ g : γ, ∃ g', chance p g = .ok (b, g') := by
  rcases hp with hzero | hone
  · exact ⟨false, chance_never hzero⟩
  · exact ⟨true, fun g => ⟨g, by rw [chance, if_pos hone]; rfl⟩⟩

end Draw

theorem GeneTree.Holds.children_of_object {t : GeneTree} {p : GeneTerm} (hp : t.Holds p)
    (hpo : t.variant p.id = .ok .object) : t.children p.id = .ok (p.parts.map GeneTerm.id) := by
  obtain ⟨id, content, parts⟩ := p
  have hvariant := exists_variant hp.get?_node
  change t.variant id = _ at hpo
  rw [hpo, Except.ok.injEq] at hvariant
  obtain ⟨fields, type, hobject⟩ := Gene.eq_object_of_variant hvariant.symm
  have hshaped := hp.shaped
  rw [Shaped, hobject] at hshaped
  change t.children id = .ok (parts.map GeneTerm.id)
  rw [GeneTree.children, gene_of_get? hp.get?_node, hobject, hshaped.1]
  rfl

namespace Linker

open Attempt

variable {γ : Type} [RandomSource γ] {r : Linker} {source target : ParamSite} {x y : NodeId}

/-- Do inactive optionals take part always or never? -/
def IsDefinite (r : Linker) : Prop :=
  r.config.inactiveOptionalProbability.same 0 = true ∨ r.config.inactiveOptionalProbability.same 1 = true

theorem settled_isEligible (hr : r.IsDefinite) (g : Gene) :
    ∃ b, Settles (liftM (r.isEligible g : Draw γ Bool) : Proposal γ Bool) b := by
  unfold isEligible
  split
  · obtain ⟨b, hb⟩ := Draw.settled_chance (γ := γ) hr
    exact ⟨b, settles_lift hb⟩
  · exact ⟨true, settles_lift fun g => ⟨g, rfl⟩⟩

omit [RandomSource γ] in
theorem settled_collectLinks {linksOf : NodeId → Proposal γ (List Link)} {fields : List NodeId}
    (h : ∀ f ∈ fields, ∃ ls, Settles (linksOf f) ls) : ∃ ls, Settles (collectLinks linksOf fields) ls := by
  induction fields with
  | nil => exact ⟨[], settles_pure []⟩
  | cons f fields ih =>
    obtain ⟨ls, hls⟩ := h f (by simp)
    obtain ⟨rest, hrest⟩ := ih fun k hk => h k (by simp [hk])
    exact ⟨ls ++ rest, hls.bind (hrest.bind (settles_pure _))⟩

theorem exists_matchingField? {t : GeneTree} (ht : t.WellFormed) {object : NodeId} {name : String}
    {k : Variant} {fields : List NodeId} (hobject : t.Fixes object) (hfields : ∀ f ∈ fields, t.Fixes f) :
    ∃ found, r.matchingField? t object name k fields = .ok found := by
  obtain ⟨o, ho⟩ := ht.exists_get? hobject
  induction fields with
  | nil => exact ⟨none, rfl⟩
  | cons f fields ih =>
    obtain ⟨hf, hrest⟩ := List.forall_mem_cons.mp hfields
    obtain ⟨n, hn⟩ := ht.exists_get? hf
    obtain ⟨value, m, hvalue, hm⟩ := ht.exists_coreNode hn
    refine exists_ok_bind ⟨value, hvalue⟩ fun value' hvalue' => ?_
    rw [hvalue, Except.ok.injEq] at hvalue'
    subst hvalue'
    refine exists_ok_bind ⟨_, exists_variant hm⟩ fun fieldVariant _ => ?_
    split
    · exact ih hrest
    · refine exists_ok_bind (exists_qualifiedName ho hm) fun qualified _ => ?_
      split
      · exact ⟨some value, rfl⟩
      · exact ih hrest

theorem exists_fieldFor? {t : GeneTree} (ht : t.WellFormed) {object : NodeId} {name : String}
    {k : Variant} {fields : List NodeId} (hobject : t.Fixes object) (hfields : ∀ f ∈ fields, t.Fixes f) :
    ∃ found, r.fieldFor? t object name k fields = .ok found := by
  obtain ⟨o, ho⟩ := ht.exists_get? hobject
  induction fields with
  | nil => exact ⟨none, rfl⟩
  | cons f fields ih =>
    obtain ⟨hf, hrest⟩ := List.forall_mem_cons.mp hfields
    obtain ⟨n, hn⟩ := ht.exists_get? hf
    refine exists_ok_bind (exists_qualifiedName ho hn) fun qualified _ => ?_
    refine exists_ok_bind ⟨_, exists_variant hn⟩ fun fieldVariant _ => ?_
    refine exists_ok_bind ⟨_, exists_name hn⟩ fun fieldName _ => ?_
    split
    · exact ⟨some f, rfl⟩
    · exact ih hrest

theorem exists_part_of_child {t : GeneTree} {p : GeneTerm} (hp : t.Holds p)
    (hpo : t.variant p.id = .ok .object) {fields : List NodeId} (hfields : t.children p.id = .ok fields)
    {f : NodeId} (hf : f ∈ fields) : ∃ q, t.Holds q ∧ q.id = f ∧ q.height < p.height := by
  rw [hp.children_of_object hpo, Except.ok.injEq] at hfields
  rw [← hfields] at hf
  obtain ⟨q, hq, rfl⟩ := List.mem_map.mp hf
  obtain ⟨id, content, parts⟩ := p
  exact ⟨q, hp.of_part hq, rfl, height_lt_of_part id content hq⟩

theorem settled_objectLinksWithin (hr : r.IsDefinite) (ht : target.tree.WellFormed)
    (hs : source.tree.WellFormed) {depth : Nat} {p : GeneTerm} (hp : target.tree.Holds p)
    (hdepth : p.height ≤ depth) (hx : target.tree.Fixes p.id)
    (hxo : target.tree.variant p.id = .ok .object) (hy : source.tree.Fixes y)
    (hyo : source.tree.variant y = .ok .object) :
    ∃ ls, Settles (r.objectLinksWithin target source depth p.id y : Proposal γ (List Link)) ls := by
  -- the depth is enough for the term at the target, and the parts are lower
  induction depth generalizing p y with
  | zero =>
    obtain ⟨id, content, parts⟩ := p
    simp [height] at hdepth
  | succ depth ih =>
    obtain ⟨n, hn⟩ := ht.exists_get? hx
    obtain ⟨o, ho⟩ := hs.exists_get? hy
    have hchildren : ∃ fields, target.tree.children p.id = .ok fields :=
      exists_ok_bind ⟨_, gene_of_get? hn⟩ fun g _ => ⟨_, rfl⟩
    have hothers : ∃ fields, source.tree.children y = .ok fields :=
      exists_ok_bind ⟨_, gene_of_get? ho⟩ fun g _ => ⟨_, rfl⟩
    refine exists_settles_ofGene_bind hchildren fun fields hfields => ?_
    have hfixed := fixes_children_of_object hx hxo hfields
    refine settled_collectLinks fun f hf => ?_
    obtain ⟨m, hm⟩ := ht.exists_get? (hfixed f hf)
    refine exists_settles_ofGene_bind ⟨_, gene_of_get? hm⟩ fun g _ => ?_
    obtain ⟨eligible, heligible⟩ := settled_isEligible (γ := γ) hr g
    refine exists_settles_bind heligible ?_
    split
    · exact ⟨[], settles_pure []⟩
    · obtain ⟨q, hq, rfl, hlow⟩ := exists_part_of_child hp hxo hfields hf
      have hcore := ((hfixed _ hf).core hq.coreNode)
      refine exists_settles_bind (settles_ofGene hq.coreNode) ?_
      refine exists_settles_ofGene_bind ⟨_, exists_variant hq.core.get?_id⟩ fun k hk => ?_
      refine exists_settles_ofGene_bind (exists_qualifiedName hn hq.core.get?_id) fun name _ => ?_
      refine exists_settles_ofGene_bind hothers fun others hothers => ?_
      have hfixed' := fixes_children_of_object hy hyo hothers
      refine exists_settles_ofGene_bind (exists_matchingField? hs hy hfixed') fun found hfound => ?_
      cases found with
      | none => exact ⟨[], settles_pure []⟩
      | some z =>
        obtain ⟨⟨hz, -⟩, hzk⟩ := bears_of_matchingField? hfixed' hfound
        dsimp only
        split
        · next hobject =>
          have hheight := height_core_le q
          exact ih hq.core (by omega) hcore (hobject ▸ hk) hz (hobject ▸ hzk)
        · refine exists_settles_ofGene_bind (exists_orientedLink hs ht hz hcore) fun l _ => ?_
          exact ⟨[l], settles_pure [l]⟩

theorem settled_bodyLinks (hr : r.IsDefinite) (ht : target.tree.WellFormed) (hs : source.tree.WellFormed) :
    ∃ ls, Settles (r.bodyLinks target source : Proposal γ (List Link)) ls := by
  obtain ⟨w, hw⟩ := ht.unfolds
  obtain ⟨x, hx, hfix, n, hn⟩ := exists_siteCore ht
  obtain ⟨y, hy, hfix', m, hm⟩ := exists_siteCore hs
  refine exists_settles_bind (settles_ofGene hx) ?_
  refine exists_settles_bind (settles_ofGene hy) ?_
  refine exists_settles_ofGene_bind ⟨_, exists_variant hn⟩ fun k hk => ?_
  split
  · exact ⟨[], settles_pure []⟩
  · next hobject =>
    rw [ne_eq, not_not] at hobject
    subst hobject
    refine exists_settles_ofGene_bind ⟨_, exists_variant hm⟩ fun k hk' => ?_
    split
    · next hsame =>
      subst hsame
      obtain ⟨p, rfl, hp, -⟩ := ht.exists_term hn
      refine settled_objectLinksWithin hr ht hs hp ?_ hfix hk hfix' hk'
      refine hp.height_le_depthBound.trans (Nat.le_trans ?_ (Nat.le_add_right _ _))
      exact Nat.le_mul_of_pos_right _ (Nat.succ_pos _)
    · refine exists_settles_ofGene_bind ⟨_, exists_name hm⟩ fun name _ => ?_
      have hchildren : ∃ fields, target.tree.children x = .ok fields :=
        exists_ok_bind ⟨_, gene_of_get? hn⟩ fun g _ => ⟨_, rfl⟩
      refine exists_settles_ofGene_bind hchildren fun fields hfields => ?_
      have hfixed := fixes_children_of_object hfix hk hfields
      refine exists_settles_ofGene_bind (exists_fieldFor? ht hfix hfixed) fun found hfound => ?_
      cases found with
      | none => exact ⟨[], settles_pure []⟩
      | some f =>
        have hf := hfixed f (mem_of_fieldFor? hfound).1
        exact exists_settles_ofGene_bind (exists_orientedLink hs ht hfix' hf) fun l _ =>
          ⟨[l], settles_pure [l]⟩

theorem settled_linksInto (hr : r.IsDefinite) {candidates : List ParamSite}
    (ht : target.tree.WellFormed) (hs : ∀ v ∈ candidates, v.tree.WellFormed) :
    ∃ ls, Settles (r.linksInto target candidates : Proposal γ (List Link)) ls := by
  have hfrom : ∀ p : ParamSite → Bool,
      ∃ ls, Settles (ofGene (linkFrom target (candidates.find? p)) : Proposal γ (List Link)) ls := by
    intro p
    refine exists_settles_ofGene ?_
    cases hfind : candidates.find? p with
    | none => exact ⟨[], rfl⟩
    | some v =>
      have hv := hs v (List.mem_of_find?_eq_some hfind)
      exact exists_ok_bind (exists_valueLink hv ht) fun l _ => ⟨[l], rfl⟩
  have hbody : ∀ body rest, candidates = body :: rest →
      ∃ ls, Settles (ofGene (linksWithBody body target false) : Proposal γ (List Link)) ls := by
    rintro body rest rfl
    exact exists_settles_ofGene (exists_linksWithBody (hs body (by simp)) ht)
  have hothers : ∃ ls, (candidates.filter fun c => !c.param.isBody).mapM
      (fun c => linksWithBody target c true) = .ok ls :=
    exists_ok_mapM fun c hc => exists_linksWithBody ht (hs c (List.mem_of_mem_filter hc))
  have hnone : ∃ ls, Settles (pure [] : Proposal γ (List Link)) ls := ⟨[], settles_pure []⟩
  unfold linksInto
  cases target.param.role <;> dsimp only
  case path | form | header =>
    split
    · split
      · exact hbody _ _ rfl
      · exact hnone
    · exact hfrom _
  case query =>
    split
    · exact hbody _ _ rfl
    · exact hfrom _
  case body =>
    split
    · exact hnone
    · next first rest _ => exact settled_bodyLinks hr ht (hs first (by simp))
    · exact exists_settles_ofGene_bind hothers fun links _ => ⟨_, settles_pure _⟩
  case dbColumn | result => exact hnone

end Linker
end CallEvolution
