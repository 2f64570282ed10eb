import CallEvolution.Proofs.Admission
import CallEvolution.Proofs.Agreement
import CallEvolution.Proofs.Mutation
import CallEvolution.Proofs.OuterNodes

/-! Immutable data outside of members. Drawing and mutating leave it alone, whatever they do around it:
every node that is written carries a value of another kind. -/

namespace CallEvolution

open GeneTerm GeneTree

/-- A node that has kept all but its value, and that has got one of `S` if it is immutable data with another
value. -/
structure GeneNode.Retains (S : String → Prop) (n k : GeneNode) : Prop where
  blank : k.blank = n.blank
  data : ∀ value, k.gene = .immutableData value → n.gene = .immutableData value ∨ S value

theorem not_data_of_collection {n : GeneNode} (hc : n.gene.isCollection = true) :
    n.variant ≠ .immutableData := by
  intro hdata
  rw [Gene.isCollection_of_variant (k := .immutableData "") hdata] at hc
  cases hc

namespace GeneNode.Retains

variable {S S' : String → Prop} {n k m : GeneNode}

theorem refl (n : GeneNode) : n.Retains S n := ⟨rfl, fun _ h => .inl h⟩

theorem trans (h : n.Retains S k) (h' : k.Retains S m) : n.Retains S m :=
  ⟨h'.blank.trans h.blank, fun value hm => (h'.data value hm).elim (h.data value) .inr⟩

theorem mono (hS : ∀ value, S value → S' value) (h : n.Retains S k) : n.Retains S' k :=
  ⟨h.blank, fun value hk => (h.data value hk).imp_right (hS value)⟩

theorem of_blank (hn : n.variant ≠ .immutableData) (h : k.blank = n.blank) : n.Retains S k := by
  refine ⟨h, fun value hk => absurd ?_ hn⟩
  have hgene : k.gene.blank = n.gene.blank := congrArg GeneNode.gene h
  rw [variant, ← Gene.variant_blank, ← hgene, hk]
  rfl

theorem exists_value {value : String} (h : n.Retains S k) (hn : n.gene = .immutableData value) :
    ∃ value', k = { n with gene := .immutableData value' } ∧ (value' = value ∨ S value') := by
  obtain ⟨name, gene, parent⟩ := k
  obtain ⟨name', gene', parent'⟩ := n
  obtain ⟨hblank, hdata⟩ := h
  cases hn
  injection hblank with hname hgene hparent
  subst hname hparent
  cases gene <;> simp only [Gene.blank, reduceCtorEq] at hgene
  case immutableData value' =>
    refine ⟨value', rfl, (hdata value' rfl).imp_left fun he => ?_⟩
    exact (Gene.immutableData.inj he).symm

end GeneNode.Retains

namespace GeneTree

/-- A term has given way to one of the same mould, and immutable data has got no values but those of `S`. -/
structure Retains (S : String → Prop) (t : GeneTree) (v : GeneTerm) (u : GeneTree) (w : GeneTerm) :
    Prop extends Refills t v u w where
  outer : v.Matches (GeneNode.Retains S) w

namespace Retains

variable {S : String → Prop} {t u s : GeneTree} {v w x : GeneTerm} {id : NodeId} {content : GeneNode}
  {parts pre post : List GeneTerm}

theorem refl (ht : t.FreeExact) (hv : t.Holds v) : Retains S t v t v :=
  ⟨.refl ht hv, .refl GeneNode.Retains.refl v⟩

theorem trans (h : Retains S t v u w) (k : Retains S u w s x) : Retains S t v s x :=
  ⟨h.toRefills.trans k.toRefills, h.outer.trans (fun _ _ _ => GeneNode.Retains.trans) k.outer⟩

theorem part (h : Retains S t v u w) (hv : t.Holds (.node id content (pre ++ v :: post)))
    (hc : content.gene.isCollection = false) :
    Retains S t (.node id content (pre ++ v :: post)) u (.node id content (pre ++ w :: post)) :=
  ⟨h.toRefills.part hv fun hn => by simp [hc] at hn,
    h.outer.part GeneNode.Retains.refl⟩

theorem setGene {g : Gene} (ht : t.FreeExact) (hv : t.Holds (.node id content parts))
    (hg : g.blank = content.gene.blank) (hc : content.gene.isCollection = false)
    (hne : content.variant ≠ .immutableData) :
    Retains S t (.node id content parts) (t.setGene id g) (.node id { content with gene := g } parts) := by
  refine ⟨.setGene ht hv hg hc, .plain hc ?_ (.of_blank hne ?_) ?_⟩
  · rw [Gene.isCollection_of_blank_eq hg, hc]
  · rw [GeneNode.blank, GeneNode.blank, hg]
  · exact List.forall₂_same.mpr fun p _ => .refl GeneNode.Retains.refl p

/-- A change of members leaves no more outside of them than the collection itself. -/
theorem of_collection (h : Refills t (.node id content parts) u w) (hv : t.Holds (.node id content parts))
    (hc : content.gene.isCollection = true) : Retains S t (.node id content parts) u w :=
  ⟨h, .of_mould_collection GeneNode.Retains.refl hv.shaped h.holds.shaped hc
    (fun _ => .of_blank (not_data_of_collection hc)) h.mould.symm⟩

/-- A leaf of another kind. -/
theorem of_leaf (h : Refills t (.node id content []) u w) (hv : t.Holds (.node id content []))
    (hne : content.variant ≠ .immutableData) : Retains S t (.node id content []) u w := by
  refine ⟨h, (Matches.of_mould hv.shaped h.holds.shaped h.mould.symm).mono fun e he k hk => ?_⟩
  have hself : e = (id, content) := by simpa [GeneTerm.outer] using he
  subst hself
  exact .of_blank hne hk

end Retains

end GeneTree

section

variable {m : Type → Type} [Monad m] [Outcomes m] {α β : Type} {S : String → Prop} {t : GeneTree}
  {v p : GeneTerm} {id : NodeId} {content : GeneNode} {parts : List GeneTerm}

/-- Does every outcome of a step retain immutable data in a term? -/
def Protects (S : String → Prop) (x : ExceptT GeneError (StateT GeneTree m) α) (t : GeneTree)
    (v : GeneTerm) : Prop :=
  Ensures x t fun _ u => ∃ w, Retains S t v u w

namespace Protects

variable {x : ExceptT GeneError (StateT GeneTree m) α}
  {f : α → ExceptT GeneError (StateT GeneTree m) β}

theorem pure (ht : t.FreeExact) (hv : t.Holds v) (a : α) :
    Protects S (Pure.pure a : ExceptT GeneError (StateT GeneTree m) α) t v :=
  Ensures.pure ⟨v, .refl ht hv⟩

theorem throw (ht : t.FreeExact) (hv : t.Holds v) (e : GeneError) :
    Protects S (MonadExcept.throw e : ExceptT GeneError (StateT GeneTree m) α) t v :=
  Ensures.throw ⟨v, .refl ht hv⟩

theorem after_view {R : α → Prop} (ht : t.FreeExact) (hv : t.Holds v) (h : Views x t R)
    (hf : ∀ a, R a → Protects S (f a) t v) : Protects S (x >>= f) t v :=
  h.ensures_bind hf fun _ => ⟨v, .refl ht hv⟩

theorem throw_bind (ht : t.FreeExact) (hv : t.Holds v) (e : GeneError) :
    Protects S ((MonadExcept.throw e : ExceptT GeneError (StateT GeneTree m) α) >>= f) t v := by
  refine Ensures.bind (P := fun r u => (∃ e, r = .error e) ∧ u = t) (Ensures.throw ⟨⟨e, rfl⟩, rfl⟩) ?_ ?_
  · rintro a u ⟨⟨e, he⟩, -⟩
    cases he
  · rintro e u ⟨-, rfl⟩
    exact ⟨v, .refl ht hv⟩

/-- A look at the gene that the term has at its head. -/
theorem after_gene {x : ExceptT GeneError (StateT GeneTree m) Gene}
    {f : Gene → ExceptT GeneError (StateT GeneTree m) β} (ht : t.FreeExact) (hv : t.Holds v)
    (h : Views x t fun g => t.gene v.id = .ok g) (hf : Protects S (f v.content.gene) t v) :
    Protects S (x >>= f) t v := by
  refine after_view ht hv h fun g hg => ?_
  rw [gene_of_get? hv.get?_id, Except.ok.injEq] at hg
  exact hg ▸ hf

theorem bind (h : Protects S x t v) (hf : ∀ a u w, Retains S t v u w → Protects S (f a) u w) :
    Protects S (x >>= f) t v := by
  refine Ensures.bind h ?_ fun _ _ hu => hu
  rintro a u ⟨w, hw⟩
  refine (hf a u w hw).mono ?_
  rintro r s ⟨x, hx⟩
  exact ⟨x, hw.trans hx⟩

/-- A step that gives a node another value, if that is no immutable data. -/
theorem of_setGene {g : Gene} (h : Ensures x t fun _ u => u = t.setGene id g) (ht : t.FreeExact)
    (hv : t.Holds (.node id content parts)) (hg : g.blank = content.gene.blank)
    (hc : content.gene.isCollection = false) (hne : content.variant ≠ .immutableData) :
    Protects S x t (.node id content parts) := by
  refine h.mono ?_
  rintro r u rfl
  exact ⟨_, .setGene ht hv hg hc hne⟩

theorem of_collection (h : Ensures x t fun _ u => ∃ w, Refills t (.node id content parts) u w)
    (hv : t.Holds (.node id content parts)) (hc : content.gene.isCollection = true) :
    Protects S x t (.node id content parts) := by
  refine h.mono ?_
  rintro r u ⟨w, hw⟩
  exact ⟨w, .of_collection hw hv hc⟩

theorem of_leaf (h : Ensures x t fun _ u => ∃ w, Refills t (.node id content []) u w)
    (hv : t.Holds (.node id content [])) (hne : content.variant ≠ .immutableData) :
    Protects S x t (.node id content []) := by
  refine h.mono ?_
  rintro r u ⟨w, hw⟩
  exact ⟨w, .of_leaf hw hv hne⟩

/-- A step that protects a part of a node. -/
theorem of_part (h : Protects S x t p) (hv : t.Holds (.node id content parts)) (hp : p ∈ parts)
    (hc : content.gene.isCollection = false) : Protects S x t (.node id content parts) := by
  obtain ⟨pre, post, rfl⟩ := List.append_of_mem hp
  refine h.mono ?_
  rintro r u ⟨q, hq⟩
  exact ⟨_, hq.part hv hc⟩

/-- Protecting the parts of a node one after the other. -/
theorem forM_parts {step : NodeId → ExceptT GeneError (StateT GeneTree m) PUnit} (pre : List GeneTerm)
    {rest : List GeneTerm} (ht : t.FreeExact) (hv : t.Holds (.node id content (pre ++ rest)))
    (hstep : ∀ u, u.FreeExact → ∀ p ∈ rest, u.Holds p → Protects S (step p.id) u p)
    (hc : content.gene.isCollection = false) :
    Protects S ((rest.map GeneTerm.id).forM step) t (.node id content (pre ++ rest)) := by
  induction rest generalizing pre t with
  | nil => exact .pure ht hv _
  | cons p rest ih =>
    refine Ensures.bind (hstep t ht p (by simp) (hv.parts.each p (by simp))) ?_ ?_
    · rintro - u ⟨q, hq⟩
      have hpart := hq.part hv hc
      have hu := hpart.holds
      rw [← List.singleton_append, ← List.append_assoc] at hu
      refine (ih _ hq.frame.exact hu fun u hu p hp => hstep u hu p (List.mem_cons_of_mem _ hp)).mono ?_
      rintro r s ⟨w, hw⟩
      rw [List.append_assoc, List.singleton_append] at hw
      exact ⟨w, hpart.trans hw⟩
    · rintro e u ⟨q, hq⟩
      exact ⟨_, hq.part hv hc⟩

end Protects

end

namespace RandomEdit

variable {γ : Type} [RandomSource γ] {S : String → Prop} {t : GeneTree} {v : GeneTerm} {id : NodeId}
  {content : GeneNode} {parts : List GeneTerm}

/-- Genes of other kinds are drawn as they are; no value is drawn for what has parts, and none for
immutable data. -/
theorem protects_randomizeWithin (forceNew : Bool) {depth : Nat} (ht : t.FreeExact) (hv : t.Holds v)
    (hd : v.height ≤ depth) : Protects S (randomizeWithin (γ := γ) forceNew depth v.id) t v := by
  induction depth generalizing t v with
  | zero =>
    obtain ⟨id, content, parts⟩ := v
    simp [height] at hd
  | succ depth ih =>
    have hrefills : Ensures (randomizeWithin (γ := γ) forceNew (depth + 1) v.id) t fun _ u =>
        ∃ w, Refills t v u w := by
      refine (randomizes_randomizeWithin lasts_true forceNew (depth + 1) t v ht hv hd).mono ?_
      rintro r u ⟨-, w, hw⟩
      exact ⟨w, hw.toRefills⟩
    obtain ⟨id, content, parts⟩ := v
    have hlow : ∀ p ∈ parts, p.height ≤ depth := by
      intro p hp
      have hlt := height_lt_of_part id content hp
      omega
    have hbelow : ∀ u : GeneTree, u.FreeExact → ∀ p ∈ parts, u.Holds p →
        Protects S (randomizeWithin (γ := γ) forceNew depth p.id) u p :=
      fun u hu p hp hup => ih hu hup (hlow p hp)
    have hshaped := hv.shaped
    rw [Shaped] at hshaped
    obtain ⟨name, gene, parent⟩ := content
    have hgene : t.gene id = .ok gene := gene_of_get? hv.get?_id
    by_cases hc : gene.isCollection = true
    · exact .of_collection hrefills hv hc
    rw [Bool.not_eq_true] at hc
    -- for a gene that is no leaf nothing is drawn
    have hdescend : ∀ f : Option Gene → RandomEdit γ Unit,
        (Draw.leaf? gene : Draw γ (Option Gene)) = pure none →
          Protects S (f none) t (.node id ⟨name, gene, parent⟩ parts) →
            Protects S (draw (Draw.leaf? gene) >>= f) t (.node id ⟨name, gene, parent⟩ parts) := by
      intro f hnone h
      refine Protects.after_view ht hv views_draw fun r hr => ?_
      rw [hnone] at hr
      rwa [Draw.eq_of_gives_pure hr]
    have hleaf : gene.owned = [] → gene.variant ≠ .immutableData →
        Protects S (randomizeWithin (γ := γ) forceNew (depth + 1) id) t
          (.node id ⟨name, gene, parent⟩ parts) := by
      intro howned hne
      obtain rfl : parts = [] := List.map_eq_nil_iff.mp (hshaped.1.trans howned)
      exact .of_leaf hrefills hv hne
    cases gene
    case object fields refType =>
      refine Protects.after_gene ht hv views_query (hdescend _ rfl ?_)
      obtain rfl : parts.map GeneTerm.id = fields := hshaped.1
      exact .forM_parts [] ht hv hbelow rfl
    case immutableData value =>
      exact Protects.after_gene ht hv views_query (hdescend _ rfl (.pure ht hv _))
    case primaryKey | base64 =>
      obtain ⟨p, rfl, rfl⟩ := List.map_eq_singleton_iff.mp hshaped.1
      have hp := hbelow t ht p (by simp) (hv.parts.each p (by simp))
      exact Protects.after_gene ht hv views_query (hdescend _ rfl (hp.of_part hv (by simp) rfl))
    case optional inner active =>
      obtain ⟨p, rfl, rfl⟩ := List.map_eq_singleton_iff.mp hshaped.1
      refine Protects.after_gene ht hv views_query (hdescend _ rfl ?_)
      refine Protects.after_view ht hv views_draw fun on _ => ?_
      refine Ensures.bind_ok (P := fun _ u => u = t.setGene id (.optional p.id on))
        (ensures_lift (Edit.ensures_setActive hv.get?_id rfl ⟨(), rfl, rfl⟩)) ?_
      rintro - u rfl
      have hset := Retains.setGene (S := S) (g := .optional p.id on) ht hv rfl rfl fun h => by cases h
      have hp := hbelow _ hset.frame.exact p (by simp) (hset.holds.parts.each p (by simp))
      refine (hp.of_part hset.holds (by simp) rfl).mono ?_
      rintro r u ⟨w, hw⟩
      exact ⟨w, hset.trans hw⟩
    case array | map => cases hc
    all_goals exact hleaf rfl fun h => by cases h

theorem protects_randomize (ht : t.FreeExact) (hv : t.Holds v) (forceNew : Bool) :
    Protects S (randomize v.id forceNew : RandomEdit γ Unit) t v := by
  refine Protects.after_view ht hv views_get ?_
  rintro a rfl
  exact protects_randomizeWithin forceNew ht hv (hv.height_le_depthBound.trans (Nat.le_add_right _ _))

/-- An optional gene is switched, or the gene in it is mutated. -/
theorem protects_optional {c : MutationSettings} {step : NodeId → RandomEdit γ (List NodeId)} {name : String}
    {inner : NodeId} {active : Bool} {parent : Option NodeId} (ht : t.FreeExact)
    (hv : t.Holds (.node id ⟨name, .optional inner active, parent⟩ parts))
    (hinner : Protects S (do return id :: (← step inner)) t
      (.node id ⟨name, .optional inner active, parent⟩ parts)) :
    Protects S (do
        if !active then
          Edit.setActive id true
          return [id]
        let toggled ← draw (Draw.chance c.toggleProbability)
        let off ← if toggled then pure true else (! ·) <$> Edit.query (·.isMutable inner)
        if off then
          Edit.setActive id false
          return [id]
        else return id :: (← step inner) : RandomEdit γ (List NodeId)) t
      (.node id ⟨name, .optional inner active, parent⟩ parts) := by
  have hswitch : ∀ on, Protects S (do Edit.setActive id on; return [id] : RandomEdit γ (List NodeId)) t
      (.node id ⟨name, .optional inner active, parent⟩ parts) := by
    intro on
    have hset : Protects S (Edit.setActive id on : RandomEdit γ Unit) t (.node id _ parts) :=
      .of_setGene (ensures_lift (Edit.ensures_setActive hv.get?_node rfl rfl)) ht hv rfl rfl
        fun h => by cases h
    exact hset.bind fun _ u w hw => .pure hw.frame.exact hw.holds _
  cases active with
  | false => exact hswitch true
  | true =>
    have hoff : ∀ off : Bool, Protects S (if off then do
          Edit.setActive id false
          return [id]
        else do return id :: (← step inner) : RandomEdit γ (List NodeId)) t
          (.node id ⟨name, .optional inner true, parent⟩ parts) := by
      intro off
      cases off with
      | true => exact hswitch false
      | false => exact hinner
    refine Protects.after_view ht hv views_draw fun toggled _ => ?_
    cases toggled with
    | true => exact hoff true
    | false =>
      have hview : Views ((! ·) <$> (Edit.query (·.isMutable inner) : RandomEdit γ Bool)) t
          fun _ => True := views_query.map fun _ _ => trivial
      exact Protects.after_view ht hv hview fun off _ => hoff off

theorem protects_mutateWithin (c : MutationSettings) (steering : Steering) {depth : Nat}
    (ht : t.FreeExact) (hv : t.Holds v) :
    Protects S (mutateWithin (γ := γ) c steering depth v.id) t v := by
  induction depth generalizing t v with
  | zero => exact .throw ht hv _
  | succ depth ih =>
    have hrefills : Ensures (mutateWithin (γ := γ) c steering (depth + 1) v.id) t fun _ u =>
        ∃ w, Refills t v u w := by
      refine (mutates_mutateWithin lasts_true c steering (depth + 1) t v ht hv).mono ?_
      rintro r u ⟨w, hw⟩
      exact ⟨w, hw.toRefills⟩
    obtain ⟨id, content, parts⟩ := v
    have hshaped := hv.shaped
    rw [Shaped] at hshaped
    by_cases hc : content.gene.isCollection = true
    · exact .of_collection hrefills hv hc
    rw [Bool.not_eq_true] at hc
    have hbelow : ∀ x ∈ content.gene.owned,
        Protects S (do return id :: (← mutateWithin (γ := γ) c steering depth x)) t
          (.node id content parts) := by
      intro x hx
      rw [← hshaped.1] at hx
      obtain ⟨p, hp, rfl⟩ := List.mem_map.mp hx
      refine ((ih ht (hv.parts.each p hp)).of_part hv hp hc).bind fun _ u w hw => ?_
      exact .pure hw.frame.exact hw.holds _
    refine Protects.after_view ht hv views_query fun changes hmut => ?_
    cases changes with
    | false =>
      exact Protects.after_view ht hv views_query fun name _ => .throw_bind ht hv _
    | true =>
      refine Protects.after_gene ht hv views_query ?_
      obtain ⟨name, gene, parent⟩ := content
      cases gene
      case object fields refType =>
        obtain rfl : parts.map GeneTerm.id = fields := hshaped.1
        refine Protects.after_view ht hv (finds_pickMutable steering hv.parts).views ?_
        rintro x ⟨p, hp, rfl, -⟩
        exact hbelow p.id (List.mem_map_of_mem hp)
      case optional inner active =>
        exact protects_optional ht hv (hbelow inner (by simp [Gene.owned, Gene.children]))
      case primaryKey table inner uniqueId | base64 inner =>
        exact hbelow inner (by simp [Gene.owned, Gene.children])
      case array | map => cases hc
      case immutableData =>
        rw [hv.isMutable, changeable] at hmut
        cases hmut
      -- what is left are leaves
      all_goals
        refine Protects.after_view ht hv views_draw fun fresh hfresh => ?_
        have hblank := (Draw.varies_of_mutatedLeaf hfresh).blank
        have hset : Protects S (Edit.update (·.setGene id fresh) : RandomEdit γ Unit) t (.node id _ parts) :=
          .of_setGene (ensures_lift (Edit.ensures_update rfl)) ht hv hblank rfl fun h => by cases h
        exact hset.bind fun _ u w hw => .pure hw.frame.exact hw.holds _

theorem protects_mutate (ht : t.FreeExact) (hv : t.Holds v) (c : MutationSettings) (steering : Steering) :
    Protects S (mutate c steering v.id : RandomEdit γ (List NodeId)) t v := by
  refine Protects.after_view ht hv views_get ?_
  rintro a rfl
  exact protects_mutateWithin c steering ht hv

end RandomEdit

end CallEvolution
