import CallEvolution.Proofs.Admission
import CallEvolution.Proofs.Cores

/-! A gene that adopts a value refills its term, and a condition that admits the value lasts. A gene that
is set by hand gives way to another one. A value of another variant goes into leaves and texts in base 64
only. -/

namespace CallEvolution

open GeneTerm

open GeneTree

namespace Edit

variable {t src : GeneTree} {v s : GeneTerm} {α : Type} {P : Gene → List GeneTerm → Prop}

/-- Does every outcome of a step renew a term? -/
def Keeps (P : Gene → List GeneTerm → Prop) (x : Edit α) (t : GeneTree) (v : GeneTerm) : Prop :=
  Ensures x t fun _ u => ∃ w, Renews P t v u w

theorem keeps_setGene {id : NodeId} {content : GeneNode} {parts : List GeneTerm} {g : Gene}
    (hP : Lasts P) (ht : t.FreeExact) (hv : t.Holds (.node id content parts))
    (hg : content.gene.Varies g) (hc : content.gene.isCollection = false) :
    Keeps P (update (·.setGene id g)) t (.node id content parts) :=
  ensures_update ⟨_, .setGene hP ht hv hg hc⟩

theorem Keeps.after_view {β : Type} {x : Edit α} {f : α → Edit β} {R : α → Prop} (ht : t.FreeExact)
    (hv : t.Holds v) (h : Views x t R) (hf : ∀ a, R a → Keeps P (f a) t v) : Keeps P (x >>= f) t v :=
  h.ensures_bind hf fun _ => ⟨v, .refl ht hv⟩

theorem Keeps.bind {β : Type} {x : Edit α} {f : α → Edit β} (h : Keeps P x t v)
    (hf : ∀ a u w, Renews P t v u w → Keeps P (f a) u w) : Keeps P (x >>= f) t v := by
  refine Ensures.bind h ?_ fun _ _ hu => hu
  rintro a u ⟨w, hw⟩
  refine (hf a u w hw).mono ?_
  rintro r s ⟨x, hx⟩
  exact ⟨x, hw.trans hx⟩

theorem keeps_pure (ht : t.FreeExact) (hv : t.Holds v) (a : α) : Keeps P (pure a : Edit α) t v :=
  Ensures.pure ⟨v, .refl ht hv⟩

/-- A step that renews the part at a node outside of all collections. -/
theorem Keeps.of_fixed {step : Edit α} {x : NodeId} (hP : Lasts P) (hv : t.Holds v) (hx : x ∈ v.fixed)
    (h : ∀ p : GeneTerm, p.id = x → t.Holds p → Keeps P step t p) : Keeps P step t v := by
  obtain ⟨hs, p, rfl, hpx, hplain⟩ := exists_plug (mem_ids_of_mem_fixed hx)
  refine (h p hpx hv.of_plug).mono ?_
  rintro r u ⟨q, hq⟩
  exact ⟨plug hs q, hq.plug hP hv (hplain hx)⟩

theorem renews_copyIfFits (hP : Lasts P) (ht : t.FreeExact) (hv : t.Holds v) (hs : src.Holds s)
    (haccepts : v.Accepts P s) : Keeps P (copyIfFits v.id src s.id) t v := by
  have hsame : ∃ w, Renews P t v t w := ⟨v, .refl ht hv⟩
  have hcopy : Ensures (copyFrom v.id src s.id) t fun r u =>
      (∃ w, Renews P t v u w) ∧ ∀ e, r = .error e → u = t := by
    cases h : t.assessCopy v.id src s.id with
    | error e =>
      refine (ensures_copyFrom_error h).mono ?_
      rintro r u ⟨-, rfl⟩
      exact ⟨hsame, fun _ _ => rfl⟩
    | ok =>
      refine (renews_copyFrom hP ht hv hs haccepts h).mono ?_
      rintro r u ⟨rfl, w, hw⟩
      exact ⟨⟨w, hw⟩, fun _ he => by cases he⟩
  have hdone : Ensures (do copyFrom v.id src s.id; return true : Edit Bool) t fun r u =>
      (∃ w, Renews P t v u w) ∧ ∀ e, r = .error e → u = t := by
    refine Ensures.bind hcopy (fun _ _ h => Ensures.pure ⟨h.1, fun _ he => by cases he⟩) ?_
    rintro e u ⟨hw, hu⟩
    exact ⟨hw, fun _ he => hu e rfl⟩
  unfold Keeps copyIfFits
  refine Ensures.tryCatch hdone ?_ ?_
  · rintro a u ⟨hw, -⟩
    exact hw
  · rintro e u ⟨hw, -⟩
    split
    · exact Ensures.pure hw
    · exact Ensures.pure hw
    · exact Ensures.pure hw
    · exact Ensures.throw hw

theorem keeps_assignDecoded (hP : Lasts P) (ht : t.FreeExact) (hv : t.Holds v) (value : Scalar) :
    Keeps P (assignDecoded v.id value) t v := by
  obtain ⟨id, content, parts⟩ := v
  refine Keeps.after_view ht hv views_query fun g hg => ?_
  have he : content.gene = g := by
    rw [gene_of_get? hv.get?_id] at hg
    exact Except.ok.inj hg
  subst he
  split
  · next hgene =>
    split
    · next hwithin =>
      simp only [within, Bool.and_eq_true, decide_eq_true_eq] at hwithin
      refine Keeps.bind (keeps_setGene hP ht hv ?_ ?_) fun _ u w hw =>
        keeps_pure hw.frame.exact hw.holds _
      · rw [hgene]
        exact ⟨rfl, fun _ => hwithin, fun h => h⟩
      · rw [hgene]
        rfl
    · exact keeps_pure ht hv _
  · exact keeps_pure ht hv _

theorem keeps_assignFrom (hP : Lasts P) (ht : t.FreeExact) (hv : t.Holds v) (srcId : NodeId) :
    Keeps P (assignFrom v.id src srcId) t v := by
  refine Keeps.after_view ht hv views_query fun value _ => ?_
  cases value with
  | none => exact keeps_pure ht hv _
  | some value =>
    obtain ⟨id, ⟨name, gene, parent⟩, parts⟩ := v
    refine Keeps.after_view ht hv views_query fun g hg => ?_
    have he : gene = g := by
      rw [gene_of_get? hv.get?_id] at hg
      exact Except.ok.inj hg
    subst he
    have hassign : ∀ g, gene.assign? value = some g →
        Keeps P (do update (·.setGene id g); return true) t (.node id ⟨name, gene, parent⟩ parts) := by
      intro g hg'
      obtain ⟨hvaries, hc⟩ := Gene.varies_of_assign? hg'
      exact Keeps.bind (keeps_setGene hP ht hv hvaries hc) fun _ u w hw =>
        keeps_pure hw.frame.exact hw.holds _
    split
    · have hshaped := hv.shaped
      rw [Shaped] at hshaped
      obtain ⟨p, rfl, rfl⟩ := List.map_eq_singleton_iff.mp hshaped.1
      refine (keeps_assignDecoded hP ht (hv.parts.each p (List.mem_singleton_self p)) value).mono ?_
      rintro r u ⟨q, hq⟩
      rw [← List.nil_append [p]] at hv
      exact ⟨_, hq.part hP hv fun h => by cases h⟩
    · split
      · next h => exact hassign _ h
      · exact keeps_pure ht hv _

theorem keeps_adoptInner (hP : Lasts P) (ht : t.FreeExact) (hv : t.Holds v) (hs : src.Holds s)
    (haccepts : v.Accepts P s) : Keeps P (adoptInner v.id src s.id) t v := by
  refine Keeps.after_view ht hv views_query fun target _ => ?_
  refine Keeps.after_view ht hv views_query fun source _ => ?_
  split
  · exact renews_copyIfFits hP ht hv hs haccepts
  · split
    · exact keeps_pure ht hv _
    · exact keeps_assignFrom hP ht hv _

theorem keeps_adoptInner_core (hP : Lasts P) (ht : t.FreeExact) (hv : t.Holds v) (hs : src.Holds s)
    (haccepts : v.core.Accepts P s) : Keeps P (adoptInner v.core.id src s.id) t v := by
  refine Keeps.of_fixed hP hv (core_mem_fixed hv.shaped) fun p hpx hp => ?_
  obtain rfl := hp.eq_of_id hv.core hpx
  exact keeps_adoptInner hP ht hp hs haccepts

theorem keeps_setActive (hP : Lasts P) (ht : t.FreeExact) (hv : t.Holds v) (on : Bool) :
    Keeps P (setActive v.id on) t v := by
  obtain ⟨id, ⟨name, gene, parent⟩, parts⟩ := v
  refine ensures_query_bind (node_of_get? hv.get?_id) ?_
  cases gene
  case optional inner active => exact keeps_setGene hP ht hv ⟨rfl, fun h => h, fun h => h⟩ rfl
  all_goals exact Ensures.throw ⟨_, .refl ht hv⟩

theorem keeps_setLeaf (ht : t.FreeExact) (hv : t.Holds v) (g : Gene) :
    Ensures (setLeaf v.id g) t fun _ u => ∃ w, Becomes t v u w := by
  have hsame : ∃ w, Becomes t v t w := ⟨v, (Refills.refl ht hv).becomes⟩
  obtain ⟨id, content, parts⟩ := v
  have hrefuse : ∀ (e : GeneError) (f : Unit → Edit Unit), Ensures (throw e >>= f) t fun _ u =>
      ∃ w, Becomes t (.node id content parts) u w := by
    intro e f
    refine Ensures.bind (P := fun r u => (∃ e', r = .error e') ∧ u = t)
      (Ensures.throw ⟨⟨e, rfl⟩, rfl⟩) ?_ ?_
    · rintro a u ⟨⟨e', he⟩, -⟩
      cases he
    · rintro e' u ⟨-, rfl⟩
      exact hsame
  refine ensures_query_bind (node_of_get? hv.get?_node) ?_
  by_cases hvariant : content.variant ≠ g.variant
  · rw [if_pos hvariant]
    exact hrefuse _ _
  · rw [if_neg hvariant]
    by_cases howned : (!content.gene.owned.isEmpty || !g.owned.isEmpty) = true
    · rw [if_pos howned]
      exact hrefuse _ _
    · rw [if_neg howned]
      simp only [Bool.or_eq_true, Bool.not_eq_true', List.isEmpty_eq_false_iff, not_or,
        ne_eq, not_not] at howned
      exact ensures_update ⟨_, .setGene ht hv (howned.2.trans howned.1.symm)⟩

/-- A gene that adopts a value renews its term. -/
theorem renews_adopt (hP : Lasts P) (ht : t.FreeExact) (hv : t.Holds v) (hs : src.Holds s)
    (haccepts : v.Accepts P s) (hcore : v.core.Accepts P s) : Keeps P (adopt v.id src s.id) t v := by
  have hinto : ∀ inner, t.coreNode v.id = .ok inner → Keeps P (adoptInner inner src s.id) t v := by
    intro inner hinner
    rw [hv.coreNode, Except.ok.injEq] at hinner
    exact hinner ▸ keeps_adoptInner_core hP ht hv hs hcore
  refine Keeps.after_view ht hv views_query fun target _ => ?_
  refine Keeps.after_view ht hv views_query fun source _ => ?_
  split
  · exact renews_copyIfFits hP ht hv hs haccepts
  · split
    · refine Keeps.after_view ht hv views_query fun inner hinner => ?_
      refine Keeps.bind (hinto inner hinner) fun adopted u w hw => ?_
      have hset := keeps_setActive hP hw.frame.exact hw.holds true
      rw [hw.same_id] at hset
      cases adopted with
      | true => exact Keeps.bind hset fun _ _ _ hx => keeps_pure hx.frame.exact hx.holds _
      | false => exact keeps_pure hw.frame.exact hw.holds _
    · exact Keeps.after_view ht hv views_query hinto
    · exact keeps_adoptInner hP ht hv hs haccepts

/-- A gene that adopts a value refills its term. -/
theorem keeps_adopt (ht : t.FreeExact) (hv : t.Holds v) (hs : src.Holds s) :
    Ensures (adopt v.id src s.id) t fun _ u => ∃ w, Refills t v u w := by
  refine (renews_adopt lasts_true ht hv hs (accepts_true v s) (accepts_true _ s)).mono ?_
  rintro r u ⟨w, hw⟩
  exact ⟨w, hw.toRefills⟩

variable {x y : NodeId} {g : Gene} {k : Variant}

/-- An object or a collection takes over no value of another variant, and neither does a gene in base 64
without a text below it. -/
theorem views_adopt_of_parts (hg : t.gene x = .ok g) (hk : src.variant y = .ok k) (hne : g.variant ≠ k)
    (hw : g.isWrapper = false) (hparts : g.owned ≠ [])
    (hdata : ∀ data text min max, g = .base64 data → t.gene data ≠ .ok (.string text min max)) :
    Ensures (adopt x src y) t fun _ u => u = t := by
  have hvariant := variant_of_gene hg
  have hcopy : adoptsByCopy g.variant k = false := by simp [adoptsByCopy, hne]
  have hassign : Ensures (assignFrom x src y) t fun _ u => u = t := by
    refine (views_query (q := fun _ => src.scalar y)).ensures_bind (fun value _ => ?_) fun _ => rfl
    cases value with
    | none => exact Ensures.pure rfl
    | some value =>
      refine ensures_query_bind hg ?_
      cases g
      case base64 data =>
        refine views_query.ensures_bind (fun content hcontent => ?_) fun _ => rfl
        cases content
        case string text min max => exact absurd hcontent (hdata data text min max rfl)
        all_goals exact Ensures.pure rfl
      case object | array | map => exact Ensures.pure rfl
      case optional | primaryKey => cases hw
      all_goals exact absurd rfl hparts
  have hinner : Ensures (adoptInner x src y) t fun _ u => u = t := by
    refine ensures_query_bind hvariant (ensures_query_bind hk ?_)
    rw [if_neg (by simp [hcopy])]
    split
    · exact Ensures.pure rfl
    · exact hassign
  refine ensures_query_bind hvariant (ensures_query_bind hk ?_)
  rw [if_neg (by simp [hcopy])]
  cases g
  case optional | primaryKey => cases hw
  all_goals exact hinner

end Edit
end CallEvolution
