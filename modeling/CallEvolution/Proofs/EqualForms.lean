import CallEvolution.Proofs.Printing
import CallEvolution.Proofs.ValueEquality

/-! Equal values have equal JSON forms, provided that the nodes compared are of the same kinds throughout. The
comparison does not look below inactive optionals, but whether a field is left out may depend on what is
there. -/

namespace CallEvolution

open GeneTerm

theorem toOption_mapM_congr {ε α β γ : Type} {F : α → Except ε γ} {G : β → Except ε γ} {xs : List α}
    {ys : List β} (hlen : xs.length = ys.length)
    (h : ∀ r ∈ xs.zip ys, (F r.1).toOption = (G r.2).toOption) :
    (xs.mapM F).toOption = (ys.mapM G).toOption := by
  induction xs generalizing ys with
  | nil => rw [List.length_eq_zero_iff.mp hlen.symm]
           rfl
  | cons x xs ih =>
    cases ys with
    | nil => cases hlen
    | cons y ys =>
      obtain ⟨hhead, htail⟩ := List.forall_mem_cons.mp h
      rw [List.mapM_cons, List.mapM_cons, toOption_bind, toOption_bind, hhead]
      refine congrArg _ (funext fun z => ?_)
      rw [toOption_bind, toOption_bind, ih (Nat.succ.inj hlen) htail]

namespace Gene

variable {g k : Gene}

theorem isWrapper_congr (h : g.variant = k.variant) : g.isWrapper = k.isWrapper := by
  rw [Bool.eq_iff_iff, ← not_iff_not, Bool.not_eq_true, Bool.not_eq_true, isWrapper_eq_false_iff,
    isWrapper_eq_false_iff, h]

end Gene

namespace GeneTree

/-- Do two nodes stand at the same place below two others? -/
def Beneath (t u : GeneTree) (p q : NodeId × NodeId) : Prop :=
  ∃ xs ys, t.children p.1 = .ok xs ∧ u.children p.2 = .ok ys ∧ q ∈ xs.zip ys

/-- Are nodes at the same place of one variant, and fields at the same place of one name? -/
structure Congruent (t u : GeneTree) (p : NodeId × NodeId) : Prop where
  variant : ∀ q, Relation.ReflTransGen (Beneath t u) p q → t.variant q.1 = u.variant q.2
  name : ∀ q r, Relation.ReflTransGen (Beneath t u) p q → t.variant q.1 = .ok .object →
    Beneath t u q r → t.name r.1 = u.name r.2

variable {t u : GeneTree} {p q : NodeId × NodeId} {v s : GeneTerm} {id sid : NodeId}
  {content theirs : GeneNode} {parts others : List GeneTerm}

theorem Congruent.beneath (h : Congruent t u p) (hq : Beneath t u p q) : Congruent t u q where
  variant r hr := h.variant r (.head hq hr)
  name r r' hr := h.name r r' (.head hq hr)

theorem children_of_get? {x : NodeId} {n : GeneNode} (hx : t.get? x = some n) :
    t.children x = .ok n.gene.children := by
  rw [children, gene_of_get? hx]
  rfl

theorem Holds.beneath (hv : t.Holds (.node id content parts)) (hs : u.Holds (.node sid theirs others))
    {c : GeneTerm × GeneTerm} (hc : c ∈ (valueParts content.gene parts).zip (valueParts theirs.gene others)) :
    Beneath t u (id, sid) (c.1.id, c.2.id) := by
  refine ⟨_, _, children_of_get? hv.get?_node, children_of_get? hs.get?_node, ?_⟩
  rw [← map_id_valueParts hv.shaped, ← map_id_valueParts hs.shaped, List.zip_map]
  exact List.mem_map_of_mem hc

theorem Congruent.variant_eq (h : Congruent t u (v.id, s.id)) (hv : t.Holds v) (hs : u.Holds s) :
    v.content.gene.variant = s.content.gene.variant := by
  have hvariant := h.variant _ .refl
  rw [exists_variant hv.get?_id, exists_variant hs.get?_id] at hvariant
  exact Except.ok.inj hvariant

theorem Congruent.variant_core (h : Congruent t u (v.id, s.id)) (hv : t.Holds v) (hs : u.Holds s) :
    v.core.content.gene.variant = s.core.content.gene.variant := by
  induction v using induct generalizing s with
  | node id content parts ih =>
    obtain ⟨sid, theirs, others⟩ := s
    have hvariant : content.gene.variant = theirs.gene.variant := h.variant_eq hv hs
    have hwrapper := Gene.isWrapper_congr hvariant
    cases hw : content.gene.isWrapper with
    | false => rwa [core_self hw, core_self (hwrapper ▸ hw)]
    | true =>
      have hw' : theirs.gene.isWrapper = true := hwrapper ▸ hw
      obtain ⟨p, rfl⟩ := hv.shaped.exists_part hw
      obtain ⟨q, rfl⟩ := hs.shaped.exists_part hw'
      rw [core_wrapper hw, core_wrapper hw']
      have hp := hv.parts.head
      have hq := hs.parts.head
      refine ih p (by simp) (h.beneath (hv.beneath hs (c := (p, q)) ?_)) hp hq
      simp [valueParts, Gene.not_isCollection_of_isWrapper hw, Gene.not_isCollection_of_isWrapper hw']

theorem Congruent.isLeftOut_eq (h : Congruent t u (v.id, s.id)) (hv : t.Holds v) (hs : u.Holds s)
    (hvalue : v.content.gene.Carries s.content.gene) : t.isLeftOut v.id = u.isLeftOut s.id := by
  rw [hv.isLeftOut_eq, hs.isLeftOut_eq, h.variant_core hv hs,
    Gene.shows_eq_of_carries (h.variant_eq hv hs) hvalue]

theorem name_eq_of_mem_zip {xs ys : List GeneTerm} {c : GeneTerm × GeneTerm}
    (h : xs.map (·.content.name) = ys.map (·.content.name)) (hc : c ∈ xs.zip ys) :
    c.1.content.name = c.2.content.name := by
  induction xs generalizing ys with
  | nil => cases hc
  | cons x xs ih =>
    cases ys with
    | nil => cases hc
    | cons y ys =>
      obtain ⟨hhead, htail⟩ := List.cons.inj h
      rcases List.mem_cons.mp hc with rfl | hc
      · exact hhead
      · exact ih htail hc

/-- Do nodes of one variant and one value have one JSON form, and are both left out or neither? -/
structure FormsAgree (t u : GeneTree) (d e : Nat) (r : NodeId × NodeId) : Prop where
  json : (t.toJsonWithin d r.1).toOption = (u.toJsonWithin e r.2).toOption
  leftOut : t.isLeftOut r.1 = u.isLeftOut r.2
  genes : ∃ g k, t.gene r.1 = .ok g ∧ u.gene r.2 = .ok k ∧ g.variant = k.variant ∧ g.Carries k

section Node

variable {x y : NodeId} {name name' : String} {parent parent' : Option NodeId} {g k : Gene} {d e : Nat}

/-- Texts for base 64 are taken as they are, other values in their JSON forms. -/
theorem toOption_base64 {data data' : NodeId} (hx : t.node x = .ok ⟨name, .base64 data, parent⟩)
    (hy : u.node y = .ok ⟨name', .base64 data', parent'⟩) (h : FormsAgree t u d e (data, data')) :
    (t.toJsonWithin (d + 1) x).toOption = (u.toJsonWithin (e + 1) y).toOption := by
  obtain ⟨g, k, hg, hk, hvariant, hvalue⟩ := h.genes
  have hjson : (t.toJsonWithin d data).toOption = (u.toJsonWithin e data').toOption := h.json
  have hencoded : (t.toJsonWithin d data >>= fun j =>
        (pure (.string (Text.Base64.ofText (requestText j))) : Except GeneError Json)).toOption =
      (u.toJsonWithin e data' >>= fun j =>
        (pure (.string (Text.Base64.ofText (requestText j))) : Except GeneError Json)).toOption := by
    rw [toOption_bind, toOption_bind, hjson]
  rw [toJsonWithin_base64 hx, toJsonWithin_base64 hy, hg, hk]
  cases Gene.kindred_of_variant hvariant
  case string => exact congrArg (fun text => some (Json.string (Text.Base64.ofText text))) hvalue
  all_goals exact hencoded

/-- The JSON form of a node follows from those of its children. -/
theorem toOption_toJsonWithin_node (hx : t.node x = .ok ⟨name, g, parent⟩)
    (hy : u.node y = .ok ⟨name', k, parent'⟩) (hvariant : g.variant = k.variant) (hvalue : g.Carries k)
    (hexact : g.IsExact) (hlen : g.children.length = k.children.length)
    (hbelow : g.shows = true → ∀ r ∈ g.children.zip k.children, FormsAgree t u d e r)
    (hnames : g.variant = .object ∨ g.variant = .map →
      ∀ r ∈ g.children.zip k.children, t.name r.1 = u.name r.2) :
    (t.toJsonWithin (d + 1) x).toOption = (u.toJsonWithin (e + 1) y).toOption := by
  cases Gene.kindred_of_variant hvariant
  case float => exact absurd rfl hexact.1
  case double => exact absurd rfl hexact.2
  case object fields type fields' type' =>
    rw [toJsonWithin_object hx, toJsonWithin_object hy, toOption_bind, toOption_bind]
    refine congrArg (Option.bind · _) (toOption_mapM_congr hlen fun r hr => ?_)
    rw [toOption_bind, toOption_bind, (hbelow rfl r hr).leftOut]
    refine congrArg _ (funext fun out => ?_)
    cases out with
    | true => rfl
    | false =>
      change (_ >>= _ : Except GeneError _).toOption = (_ >>= _ : Except GeneError _).toOption
      rw [toOption_bind, toOption_bind, hnames (.inl rfl) r hr]
      simp only [toOption_bind, (hbelow rfl r hr).json]
  case array template elements maxSize template' elements' maxSize' =>
    rw [toJsonWithin_array hx, toJsonWithin_array hy, toOption_bind, toOption_bind]
    exact congrArg (Option.bind · _) (toOption_mapM_congr hlen fun r hr => (hbelow rfl r hr).json)
  case map template entries maxSize template' entries' maxSize' =>
    rw [toJsonWithin_map hx, toJsonWithin_map hy, toOption_bind, toOption_bind]
    refine congrArg (Option.bind · _) (toOption_mapM_congr hlen fun r hr => ?_)
    simp only [toOption_bind, hnames (.inr rfl) r hr, (hbelow rfl r hr).json]
  case base64 data data' => exact toOption_base64 hx hy (hbelow rfl _ (List.mem_singleton_self _))
  case choice xs i ys j =>
    have hvalue : xs[i]? = ys[j]? := hvalue
    rw [toJsonWithin_choice hx, toJsonWithin_choice hy, hvalue]
    cases ys[j]? <;> rfl
  case optional inner active inner' active' =>
    obtain rfl : active = active' := hvalue
    rw [toJsonWithin_optional hx, toJsonWithin_optional hy]
    cases active with
    | true => exact (hbelow rfl _ (List.mem_singleton_self _)).json
    | false => rfl
  case primaryKey =>
    rw [toJsonWithin_primaryKey hx, toJsonWithin_primaryKey hy]
    exact (hbelow rfl _ (List.mem_singleton_self _)).json
  case cyclePlaceholder | limitPlaceholder =>
    rw [toJsonWithin_placeholder rfl hx, toJsonWithin_placeholder rfl hy]
    rfl
  case autoIncrement => rw [toJsonWithin_leaf rfl hx, toJsonWithin_leaf rfl hy]
  all_goals
    obtain rfl := hvalue
    rw [toJsonWithin_leaf rfl hx, toJsonWithin_leaf rfl hy]

end Node

/-- Terms of one value have one JSON form or none at all. -/
theorem toOption_toJsonWithin {d e : Nat} (h : v.Coincides s) (hv : t.Holds v) (hs : u.Holds s)
    (hexact : v.Every fun g _ => g.IsExact) (hplaced : Congruent t u (v.id, s.id)) (hd : v.height ≤ d)
    (he : s.height ≤ e) : (t.toJsonWithin d v.id).toOption = (u.toJsonWithin e s.id).toOption := by
  induction h generalizing d e with
  | @node id sid content theirs parts others hvariant hvalue hlabels hbelow ih =>
    cases d with
    | zero => simp [height] at hd
    | succ d =>
      cases e with
      | zero => simp [height] at he
      | succ e =>
        rw [Every] at hexact
        have hchildren := map_id_valueParts hv.shaped
        have hchildren' := map_id_valueParts hs.shaped
        have hpairs : ∀ r ∈ content.gene.children.zip theirs.gene.children,
            ∃ c ∈ (valueParts content.gene parts).zip (valueParts theirs.gene others),
              r = (c.1.id, c.2.id) := by
          intro r hr
          rw [← hchildren, ← hchildren', List.zip_map] at hr
          obtain ⟨c, hc, rfl⟩ := List.mem_map.mp hr
          exact ⟨c, hc, rfl⟩
        refine toOption_toJsonWithin_node (node_of_get? hv.get?_node) (node_of_get? hs.get?_node) hvariant hvalue
          hexact.1 ?_ (fun hshows r hr => ?_) fun hnamed r hr => ?_
        · rw [← hchildren, ← hchildren', List.length_map, List.length_map]
          exact length_of_labels hlabels
        · obtain ⟨c, hc, rfl⟩ := hpairs r hr
          have hmem := mem_of_mem_valueParts (List.of_mem_zip hc).1
          have hmem' := mem_of_mem_valueParts (List.of_mem_zip hc).2
          have hp := hv.parts.each _ hmem
          have hq := hs.parts.each _ hmem'
          have hlt := height_lt_of_part id content hmem
          have hlt' := height_lt_of_part sid theirs hmem'
          have hparts := hplaced.beneath (hv.beneath hs hc)
          obtain ⟨-, hcarries⟩ := (hbelow hshows c hc).head
          refine ⟨ih hshows c hc hp hq (hexact.2 _ hmem) hparts (by omega) (by omega),
            hparts.isLeftOut_eq hp hq hcarries, _, _, gene_of_get? hp.get?_id, gene_of_get? hq.get?_id,
            hparts.variant_eq hp hq, hcarries⟩
        · obtain ⟨c, hc, rfl⟩ := hpairs r hr
          have hobject : t.variant id = .ok content.gene.variant := exists_variant hv.get?_node
          rcases hnamed with hnamed | hnamed
          · exact hplaced.name _ _ .refl (hnamed ▸ hobject) (hv.beneath hs hc)
          · have hnames := names_of_labels hlabels hnamed (hvariant.symm.trans hnamed)
            rw [exists_name (hv.parts.each _ (mem_of_mem_valueParts (List.of_mem_zip hc).1)).get?_id,
              exists_name (hs.parts.each _ (mem_of_mem_valueParts (List.of_mem_zip hc).2)).get?_id,
              name_eq_of_mem_zip hnames hc]

/-- Does no node of a tree carry a float? -/
def IsExact (t : GeneTree) : Prop := ∀ x g, t.gene x = .ok g → g.IsExact

/-- The equality of values is reflexive, symmetric even in its failures, and transitive. Nodes that are found
equal have one JSON form or none, if those at the same places are congruent. -/
theorem sameValue_equivalence {w : GeneTree} {a b c : NodeId} {n m l : GeneNode} (ht : t.WellFormed)
    (hu : u.WellFormed) (hw : w.WellFormed) (hexact : t.IsExact) (ha : t.get? a = some n)
    (hb : u.get? b = some m) (hc : w.get? c = some l) :
    t.sameValue a t a = .ok true ∧
    (∀ equal, t.sameValue a u b = .ok equal ↔ u.sameValue b t a = .ok equal) ∧
    ((∃ e, t.sameValue a u b = .error e) ↔ ∃ e, u.sameValue b t a = .error e) ∧
    (t.sameValue a u b = .ok true → u.sameValue b w c = .ok true → t.sameValue a w c = .ok true) ∧
    (t.sameValue a u b = .ok true → Congruent t u (a, b) →
      (∃ j, t.toJson a = .ok j ∧ u.toJson b = .ok j) ∨
      ∃ e e', t.toJson a = .error e ∧ u.toJson b = .error e') := by
  obtain ⟨v, rfl, hv, -⟩ := ht.exists_term ha
  obtain ⟨s, rfl, hs, -⟩ := hu.exists_term hb
  obtain ⟨r, rfl, hr, -⟩ := hw.exists_term hc
  have hevery : v.Every fun g _ => g.IsExact := hv.every_gene hexact
  have hsides : (t.sameValue v.id u s.id).toOption = (u.sameValue s.id t v.id).toOption := by
    rw [sameValue, sameValue, toOption_sameValueWithin_comm, pairBound, pairBound, Nat.mul_comm]
  refine ⟨sameValue_of_coincides hv hv (coincides_refl hevery), eq_ok_iff_of_toOption hsides,
    exists_error_iff_of_toOption hsides, fun hab hbc => ?_, fun hab hplaced => ?_⟩
  · have hvs := (hv.sameValue_iff hs).mp hab
    have hsr := (hs.sameValue_iff hr).mp hbc
    exact sameValue_of_coincides hv hr (hvs.trans hevery hsr)
  · have hforms := toOption_toJsonWithin ((hv.sameValue_iff hs).mp hab) hv hs hevery hplaced
      hv.height_le_depthBound hs.height_le_depthBound
    cases hj : u.toJson s.id with
    | ok j => exact .inl ⟨j, (eq_ok_iff_of_toOption hforms j).mpr hj, rfl⟩
    | error e =>
      obtain ⟨e', he'⟩ := (exists_error_iff_of_toOption hforms).mpr ⟨e, hj⟩
      exact .inr ⟨e', e, he', rfl⟩

/-- Choices from different texts, with one text chosen. -/
theorem sameValue_equivalence_of_choices :
    (object "o" [choice "kind" ["a", "b"]]).sameValue ⟨0⟩ (object "q" [choice "kind" ["a", "c"]]) ⟨0⟩ =
      .ok true ∧
    ∃ j, (object "o" [choice "kind" ["a", "b"]]).toJson ⟨0⟩ = .ok j ∧
      (object "p" [choice "kind" ["a"]]).toJson ⟨0⟩ = .ok j := by
  have hwell : ∀ name values, (object name [choice "kind" values]).WellFormed := by
    intro name values
    refine (Built.object name ?_).wellFormed
    simp only [List.forall_mem_cons, List.not_mem_nil, false_implies, implies_true, and_true]
    exact .choice "kind" values
  have hnodes : ∀ i < 2, ((object "o" [choice "kind" ["a", "b"]]).get? ⟨i⟩).all
      (fun n => decide n.gene.IsExact) = true := by decide +kernel
  have hexact : (object "o" [choice "kind" ["a", "b"]]).IsExact := by
    intro x g hg
    obtain ⟨n, hn, rfl⟩ := live_of_gene hg
    have hlt : x.index < 2 := lt_size_of_get? hn
    have hnode := hnodes x.index hlt
    rw [hn] at hnode
    exact of_decide_eq_true hnode
  have hroots : (object "o" [choice "kind" ["a", "b"]]).children ⟨0⟩ = .ok [⟨1⟩] ∧
      (object "p" [choice "kind" ["a"]]).children ⟨0⟩ = .ok [⟨1⟩] := by decide +kernel
  have hleaf : (object "o" [choice "kind" ["a", "b"]]).children ⟨1⟩ = .ok [] := by decide +kernel
  have hfields : ∀ q r, q = (⟨0⟩, ⟨0⟩) ∨ q = (⟨1⟩, ⟨1⟩) →
      Beneath (object "o" [choice "kind" ["a", "b"]]) (object "p" [choice "kind" ["a"]]) q r →
      r = (⟨1⟩, ⟨1⟩) := by
    rintro q r hq ⟨xs, ys, hxs, hys, hmem⟩
    rcases hq with rfl | rfl
    · cases hroots.1.symm.trans hxs
      cases hroots.2.symm.trans hys
      exact List.mem_singleton.mp hmem
    · cases hleaf.symm.trans hxs
      cases hmem
  have hplaces : ∀ q, Relation.ReflTransGen
      (Beneath (object "o" [choice "kind" ["a", "b"]]) (object "p" [choice "kind" ["a"]])) (⟨0⟩, ⟨0⟩) q →
      q = (⟨0⟩, ⟨0⟩) ∨ q = (⟨1⟩, ⟨1⟩) := by
    intro q hq
    induction hq with
    | refl => exact .inl rfl
    | tail _ hstep ih => exact .inr (hfields _ _ ih hstep)
  have hplaced : Congruent (object "o" [choice "kind" ["a", "b"]]) (object "p" [choice "kind" ["a"]])
      (⟨0⟩, ⟨0⟩) := by
    constructor
    · intro q hq
      rcases hplaces q hq with rfl | rfl <;> decide +kernel
    · intro q r hq _ hr
      obtain rfl := hfields q r (hplaces q hq) hr
      decide +kernel
  obtain ⟨n, ha, -⟩ := (hwell "o" ["a", "b"]).root_live
  obtain ⟨m, hb, -⟩ := (hwell "p" ["a"]).root_live
  obtain ⟨l, hc, -⟩ := (hwell "q" ["a", "c"]).root_live
  obtain ⟨-, -, -, htrans, hforms⟩ :=
    sameValue_equivalence (hwell _ _) (hwell _ _) (hwell _ _) hexact ha hb hc
  refine ⟨htrans (by decide +kernel) (by decide +kernel), ?_⟩
  rcases hforms (by decide +kernel) hplaced with hform | ⟨e, -, he, -⟩
  · exact hform
  · have hprints : ((object "o" [choice "kind" ["a", "b"]]).toJson ⟨0⟩).toOption.isSome = true := by
      decide +kernel
    have he : (object "o" [choice "kind" ["a", "b"]]).toJson ⟨0⟩ = .error e := he
    rw [he] at hprints
    cases hprints

end GeneTree
end CallEvolution
