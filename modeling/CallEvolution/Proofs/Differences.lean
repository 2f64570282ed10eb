import CallEvolution.Proofs.Comparison
import CallEvolution.Proofs.MutationPaths

/-! One difference is seen by the comparison of the whole. The comparison fails nowhere between a term and what
it has been altered to, so a difference that no inactive optional hides decides it. -/

namespace CallEvolution

open GeneTerm GeneTree

namespace GeneTerm

variable {R : Gene → Gene → Prop} {p q v w : GeneTerm} {path : List NodeId}

theorem Traces.name_eq (h : Traces R v w path) : w.content.name = v.content.name := by
  cases h with
  | here h => exact h.name_eq
  | part => rfl

/-- A leaf that is altered in one way or another. -/
theorem Traces.imp_or {Q : Gene → List GeneTerm → Prop} {R' : Gene → Gene → Prop} {S : Gene → Prop}
    (h : Traces R v w path) (hv : v.Every Q) (himp : ∀ g k, Q g [] → R g k → R' g k ∨ S g) :
    Traces R' v w path ∨ ∃ x n, path.getLast? = some x ∧ (x, n) ∈ v.nodes ∧ S n.gene := by
  induction h with
  | here h =>
    cases h with
    | @leaf id content g h =>
      rw [Every] at hv
      rcases himp _ _ hv.1 h with h | h
      · exact .inl (.here (.leaf h))
      · exact .inr ⟨id, content, rfl, mem_nodes_self _, h⟩
    | switch h => exact .inl (.here (.switch h))
    | grow hc => exact .inl (.here (.grow hc))
    | shrink hc => exact .inl (.here (.shrink hc))
  | @part id content before after p q path hmember hactive h ih =>
    have hp : p ∈ before ++ p :: after := by simp
    rcases ih (hv.of_part hp) with hpath | ⟨x, n, hlast, hn, hS⟩
    · exact .inl (.part hmember hactive hpath)
    · refine .inr ⟨x, n, ?_, mem_nodes_of_part hp hn, hS⟩
      rw [List.getLast?_cons, hlast]
      rfl

end GeneTerm

/-- Does a gene of the same kind carry another value? -/
def Gene.Departs (g k : Gene) : Prop := k.variant = g.variant ∧ ¬ g.Carries k

namespace GeneTree

variable {t u : GeneTree} {p v w : GeneTerm} {path : List NodeId} {g k : Gene} {d : Nat}

theorem comparison_of_departs (h : g.Departs k) : comparison t u g k = .ok (.decided false) := by
  obtain ⟨hvariant, hvalue⟩ := h
  cases Gene.kindred_of_variant hvariant.symm
  case array | map | object | base64 | primaryKey |
      autoIncrement | cyclePlaceholder | limitPlaceholder =>
    exact absurd trivial hvalue
  case optional x active y active' =>
    have hne : active ≠ active' := hvalue
    rw [comparison, if_pos hne]
    rfl
  case float | double =>
    rw [comparison, Bool.eq_false_iff.mpr hvalue]
    rfl
  -- what is left are leaves that carry one value each
  all_goals
    simp only [Gene.Carries] at hvalue
    rw [comparison, beq_eq_false_iff_ne.mpr hvalue]
    rfl

theorem comparison_of_length (hg : g.isCollection = true) (hvariant : k.variant = g.variant)
    (h : g.children.length ≠ k.children.length) : comparison t u g k = .ok (.decided false) := by
  cases g <;> simp only [Gene.isCollection, Bool.false_eq_true] at hg
  all_goals
    cases k <;> simp only [Gene.variant, reduceCtorEq] at hvariant
  case array => exact congrArg Except.ok (if_neg h)
  case map template xs maxSize template' ys maxSize' =>
    have hlen : xs.length ≠ ys.length := h
    rw [comparison, if_pos hlen]
    rfl

theorem comparison_self (hkeys : g.variant = .map → sameKeys t u (g.children.zip g.children) = .ok true) :
    comparison t u g g = .ok (.pairs (g.children.zip g.children)) ∨
      ∃ b, comparison t u g g = .ok (.decided b) ∧ (g.children = [] ∨ ∃ inner, g = .optional inner false) := by
  cases g
  case map template xs maxSize =>
    have hkeys : sameKeys t u (xs.zip xs) = .ok true := hkeys rfl
    left
    rw [comparison, if_neg (by simp), hkeys]
    rfl
  case optional inner active =>
    cases active with
    | true => exact .inl rfl
    | false => exact .inr ⟨true, rfl, .inr ⟨inner, rfl⟩⟩
  case object | array | base64 | primaryKey | autoIncrement | cyclePlaceholder | limitPlaceholder =>
    left
    change Except.ok (memberPairs _ _) = _
    rw [memberPairs, if_pos rfl]
  all_goals exact .inr ⟨_, rfl, .inl rfl⟩

variable {compare : NodeId → NodeId → Except GeneError Bool} {pairs : List (NodeId × NodeId)}

theorem exists_allPairs (h : ∀ r ∈ pairs, ∃ b, compare r.1 r.2 = .ok b) :
    ∃ b, allPairs compare pairs = .ok b := by
  induction pairs with
  | nil => exact ⟨true, rfl⟩
  | cons r pairs ih =>
    obtain ⟨hr, hrest⟩ := List.forall_mem_cons.mp h
    obtain ⟨b, hb⟩ := hr
    rw [allPairs, hb]
    cases b with
    | true => exact ih hrest
    | false => exact ⟨false, rfl⟩

/-- One pair that differs decides, if none fails. -/
theorem allPairs_of_differs (h : ∀ r ∈ pairs, ∃ b, compare r.1 r.2 = .ok b)
    (hdiffers : ∃ r ∈ pairs, compare r.1 r.2 = .ok false) : allPairs compare pairs = .ok false := by
  induction pairs with
  | nil =>
    obtain ⟨r, hr, -⟩ := hdiffers
    cases hr
  | cons r pairs ih =>
    obtain ⟨hr, hrest⟩ := List.forall_mem_cons.mp h
    obtain ⟨b, hb⟩ := hr
    rw [allPairs, hb]
    cases b with
    | false => rfl
    | true =>
      refine ih hrest ?_
      obtain ⟨s, hs, hfalse⟩ := hdiffers
      rcases List.mem_cons.mp hs with rfl | hs
      · rw [hb] at hfalse
        cases hfalse
      · exact ⟨s, hs, hfalse⟩

theorem exists_of_mem_zip_self {ids : List NodeId} {r : NodeId × NodeId} (h : r ∈ ids.zip ids) :
    ∃ x ∈ ids, r = (x, x) := by
  obtain ⟨i, hi⟩ := List.mem_iff_getElem?.mp h
  obtain ⟨h₁, h₂⟩ := List.getElem?_zip_eq_some.mp hi
  have heq := h₁.symm.trans h₂
  exact ⟨r.1, List.mem_of_getElem? h₁, Prod.ext rfl (Option.some.inj heq).symm⟩

theorem map_name_valueParts {g : Gene} {parts others : List GeneTerm}
    (h : parts.map (·.content.name) = others.map (·.content.name)) :
    (valueParts g parts).map (·.content.name) = (valueParts g others).map (·.content.name) := by
  unfold valueParts
  split
  · rw [List.map_drop, h, List.map_drop]
  · exact h

/-- A node that has the same gene in two trees is compared with itself by its children, or at once. -/
theorem sameValueWithin_self {id : NodeId} {content : GeneNode} {parts others : List GeneTerm}
    (hv : t.Holds (.node id content parts)) (hw : u.Holds (.node id content others))
    (hnames : parts.map (·.content.name) = others.map (·.content.name)) (d : Nat) :
    t.sameValueWithin u (d + 1) id id =
        allPairs (t.sameValueWithin u d) (content.gene.children.zip content.gene.children) ∨
      ∃ b, t.sameValueWithin u (d + 1) id id = .ok b ∧
        (content.gene.children = [] ∨ ∃ inner, content.gene = .optional inner false) := by
  have hgene := gene_of_get? hv.get?_node
  have hgene' := gene_of_get? hw.get?_node
  have hkeys := sameKeys_of_names (fun x hx => hv.parts.each x (mem_of_mem_valueParts hx))
    (fun y hy => hw.parts.each y (mem_of_mem_valueParts hy)) (map_name_valueParts (g := content.gene) hnames)
  rw [map_id_valueParts hv.shaped, map_id_valueParts hw.shaped] at hkeys
  rcases comparison_self fun _ => hkeys with h | ⟨b, h, hnone⟩
  · exact .inl (sameValueWithin_of_pairs hgene hgene' rfl h d)
  · exact .inr ⟨b, sameValueWithin_of_decided hgene hgene' rfl h d, hnone⟩

theorem exists_sameValueWithin (hv : t.Holds v) (hu : u.Holds v) (hd : v.height ≤ d) :
    ∃ b, t.sameValueWithin u d v.id v.id = .ok b := by
  induction v using GeneTerm.induct generalizing d with
  | node id content parts ih =>
    cases d with
    | zero => simp [height] at hd
    | succ d =>
      change ∃ b, t.sameValueWithin u (d + 1) id id = .ok b
      rcases sameValueWithin_self hv hu rfl d with h | ⟨b, h, -⟩
      · rw [h]
        refine exists_allPairs fun r hr => ?_
        obtain ⟨x, hx, rfl⟩ := exists_of_mem_zip_self hr
        rw [← map_id_valueParts hv.shaped] at hx
        obtain ⟨p, hp, rfl⟩ := List.mem_map.mp hx
        have hmem := mem_of_mem_valueParts hp
        have hlt := height_lt_of_part id content hmem
        exact ih p hmem (hv.parts.each p hmem) (hu.parts.each p hmem) (by omega)
      · exact ⟨b, h⟩

/-- One child that differs decides, if the comparison fails for none and the node hides none. -/
theorem sameValueWithin_of_differs {id : NodeId} {content : GeneNode} {parts others : List GeneTerm}
    (hv : t.Holds (.node id content parts)) (hw : u.Holds (.node id content others))
    (hnames : parts.map (·.content.name) = others.map (·.content.name))
    (hactive : ∀ inner, content.gene ≠ .optional inner false)
    (hpairs : ∀ x ∈ content.gene.children, ∃ b, t.sameValueWithin u d x x = .ok b)
    (hdiffers : ∃ x ∈ content.gene.children, t.sameValueWithin u d x x = .ok false) :
    t.sameValueWithin u (d + 1) id id = .ok false := by
  obtain ⟨x, hx, hfalse⟩ := hdiffers
  rcases sameValueWithin_self hv hw hnames d with h | ⟨b, -, hnone | ⟨inner, hinner⟩⟩
  · rw [h]
    apply allPairs_of_differs
    · intro r hr
      obtain ⟨y, hy, rfl⟩ := exists_of_mem_zip_self hr
      exact hpairs y hy
    · obtain ⟨i, hi⟩ := List.mem_iff_getElem?.mp hx
      exact ⟨(x, x), List.mem_iff_getElem?.mpr ⟨i, List.getElem?_zip_eq_some.mpr ⟨hi, hi⟩⟩, hfalse⟩
  · rw [hnone] at hx
    cases hx
  · exact absurd hinner (hactive inner)

theorem comparison_of_resized {id : NodeId} {content : GeneNode} {template : GeneTerm}
    {members new : List GeneTerm} (hc : content.gene.isCollection = true)
    (hshaped : (GeneTerm.node id content (template :: members)).Shaped) (hlen : members.length ≠ new.length) :
    comparison t u content.gene (content.gene.withMembers (new.map GeneTerm.id)) = .ok (.decided false) ∧
      content.gene.variant = (content.gene.withMembers (new.map GeneTerm.id)).variant := by
  have hvariant := Gene.variant_withMembers content.gene (new.map GeneTerm.id)
  have hsize : content.gene.children.length = members.length := by
    rw [← map_id_valueParts hshaped, valueParts, if_pos hc]
    simp
  refine ⟨comparison_of_length hc hvariant ?_, hvariant.symm⟩
  rw [hsize, Gene.children_withMembers hc, List.length_map]
  exact hlen

theorem comparison_of_alters (h : Alters Gene.Departs v w path) (hv : v.Shaped) :
    comparison t u v.content.gene w.content.gene = .ok (.decided false) ∧
      v.content.gene.variant = w.content.gene.variant := by
  cases h with
  | leaf h => exact ⟨comparison_of_departs h, h.1.symm⟩
  | @switch id inner content parts active h =>
    obtain ⟨name, gene, parent⟩ := content
    obtain rfl : gene = .optional inner active := h
    exact ⟨comparison_of_departs ⟨rfl, fun he => Bool.not_ne_self active he.symm⟩, rfl⟩
  | grow hc => exact comparison_of_resized hc hv (by simp)
  | shrink hc => exact comparison_of_resized hc hv (by simp)

/-- An altered term is found different, if the value of an altered leaf is. -/
theorem sameValueWithin_of_traces (h : Traces Gene.Departs v w path) (hv : t.Holds v) (hw : u.Holds w)
    (hd : v.height ≤ d) : t.sameValueWithin u d v.id w.id = .ok false := by
  induction h generalizing d with
  | @here v w path h =>
    cases d with
    | zero =>
      obtain ⟨id, content, parts⟩ := v
      simp [height] at hd
    | succ d =>
      obtain ⟨hdecided, hvariant⟩ : comparison t u v.content.gene w.content.gene = .ok (.decided false) ∧
        v.content.gene.variant = w.content.gene.variant := comparison_of_alters h hv.shaped
      exact sameValueWithin_of_decided (gene_of_get? hv.get?_id) (gene_of_get? hw.get?_id) hvariant hdecided d
  | @part id content before after p q path hmember hactive h ih =>
    cases d with
    | zero => simp [height] at hd
    | succ d =>
      have hp : p ∈ before ++ p :: after := by simp
      have hq : q ∈ before ++ q :: after := by simp
      have hlow : ∀ s ∈ before ++ p :: after, s.height ≤ d := by
        intro s hs
        have hlt := height_lt_of_part id content hs
        omega
      have hdiffers : t.sameValueWithin u d p.id p.id = .ok false := by
        have hpart := ih (hv.parts.each p hp) (hw.parts.each q hq) (hlow p hp)
        rwa [h.same_id] at hpart
      -- the parts beside the altered one are held by both trees
      have hsame : ∀ s ∈ before ++ p :: after, s ∈ before ++ q :: after →
          ∃ b, t.sameValueWithin u d s.id s.id = .ok b :=
        fun s hs hs' => exists_sameValueWithin (hv.parts.each s hs) (hw.parts.each s hs') (hlow s hs)
      have hpairs : ∀ x ∈ content.gene.children, ∃ b, t.sameValueWithin u d x x = .ok b := by
        intro x hx
        rw [← map_id_valueParts hv.shaped] at hx
        obtain ⟨s, hs, rfl⟩ := List.mem_map.mp hx
        have hmem := mem_of_mem_valueParts hs
        rcases List.mem_append.mp hmem with hs | hs
        · exact hsame s hmem (List.mem_append_left _ hs)
        · rcases List.mem_cons.mp hs with rfl | hs
          · exact ⟨false, hdiffers⟩
          · exact hsame s hmem (List.mem_append_right _ (List.mem_cons_of_mem _ hs))
      have hchild : p.id ∈ content.gene.children := by
        rw [← map_id_valueParts hv.shaped]
        exact List.mem_map_of_mem (mem_valueParts_of_before hmember)
      exact sameValueWithin_of_differs hv hw (by simp [h.name_eq]) hactive hpairs ⟨p.id, hchild, hdiffers⟩

end GeneTree
end CallEvolution
