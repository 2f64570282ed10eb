import CallEvolution.Gene.Equality
import CallEvolution.Proofs.NodeLaws
import CallEvolution.Proofs.OuterNodes
import CallEvolution.Proofs.Renaming

/-! The comparison of values, said of terms. Terms that carry the same values node by node are found equal,
whatever their ids and bounds are. -/

namespace CallEvolution

open GeneTerm

namespace Gene

/-- Does a gene carry the value that another one carries itself, apart from what lies below it? -/
def Carries : Gene → Gene → Prop
  | integer x _ _, integer y _ _ => x = y
  | long x _ _, long y _ _ => x = y
  | float x _ _, float y _ _ => x.same y = true
  | double x _ _, double y _ _ => x.same y = true
  | boolean x, boolean y => x = y
  | string x _ _, string y _ _ => x = y
  | immutableData x, immutableData y => x = y
  | choice xs x, choice ys y => xs[x]? = ys[y]?
  | date x, date y => x = y
  | time x, time y => x = y
  | moment x, moment y => x = y
  | foreignKey _ x _, foreignKey _ y _ => x = y
  | optional _ x, optional _ y => x = y
  | _, _ => True

/-- Does the value below a gene count? What an inactive optional hides does not. -/
def shows : Gene → Bool
  | optional _ active => active
  | _ => true

theorem carries_rename (f : NodeId → NodeId) (mine theirs : Gene) :
    (mine.rename f).Carries theirs ↔ mine.Carries theirs := by
  cases mine
  case optional => cases theirs <;> rfl
  all_goals rfl

/-- A collection has no value of its own. -/
theorem carries_of_collection {g : Gene} (hc : g.isCollection = true) (k : Gene) : g.Carries k := by
  cases g <;> trivial

end Gene

namespace GeneTerm

variable {v w s : GeneTerm} {id sid : NodeId} {content theirs : GeneNode} {parts others : List GeneTerm}

/-- The parts that belong to the value. Templates do not. -/
def valueParts (g : Gene) (parts : List GeneTerm) : List GeneTerm :=
  if g.isCollection then parts.drop 1 else parts

/-- Under what the parts of a value are compared: entries of maps under their names, others by their
positions only. -/
def labels (g : Gene) (parts : List GeneTerm) : List (Option String) :=
  (valueParts g parts).map fun p => if g.variant = .map then some p.content.name else none

theorem map_id_valueParts (h : (node id content parts).Shaped) :
    (valueParts content.gene parts).map GeneTerm.id = content.gene.children := by
  rw [Shaped] at h
  rw [valueParts, Gene.children_eq, ← h.1]
  split
  · exact List.map_drop
  · rfl

theorem mem_of_mem_valueParts {g : Gene} {p : GeneTerm} (h : p ∈ valueParts g parts) : p ∈ parts := by
  unfold valueParts at h
  split at h
  · exact List.mem_of_mem_drop h
  · exact h

theorem length_of_labels {g k : Gene} (h : labels g parts = labels k others) :
    (valueParts g parts).length = (valueParts k others).length := by
  simpa [labels] using congrArg List.length h

theorem names_of_labels {g k : Gene} (h : labels g parts = labels k others) (hg : g.variant = .map)
    (hk : k.variant = .map) :
    (valueParts g parts).map (·.content.name) = (valueParts k others).map (·.content.name) := by
  simpa [labels, hg, hk, Function.comp_def] using congrArg (List.map (·.getD "")) h

theorem labels_of_plain {g k : Gene} (hg : g.isCollection = false) (hk : k.isCollection = false)
    (hlen : parts.length = others.length) : labels g parts = labels k others := by
  have hne : ∀ {l : Gene}, l.isCollection = false → l.variant ≠ .map := by
    intro l hl
    cases l <;> simp [Gene.isCollection, Gene.variant] at hl ⊢
  simp [labels, valueParts, hg, hk, hne hg, hne hk, hlen]

/-- Do two terms carry the same value? -/
inductive Agrees : GeneTerm → GeneTerm → Prop where
  | node {id sid : NodeId} {content theirs : GeneNode} {parts others : List GeneTerm}
    (variant : content.variant = theirs.variant) (value : content.gene.Carries theirs.gene)
    (labels : labels content.gene parts = labels theirs.gene others)
    (below : ∀ r ∈ (valueParts content.gene parts).zip (valueParts theirs.gene others), Agrees r.1 r.2) :
    Agrees (node id content parts) (node sid theirs others)

theorem agrees_node : (node id content parts).Agrees (node sid theirs others) ↔
    content.variant = theirs.variant ∧ content.gene.Carries theirs.gene ∧
      labels content.gene parts = labels theirs.gene others ∧
        ∀ r ∈ (valueParts content.gene parts).zip (valueParts theirs.gene others), r.1.Agrees r.2 := by
  refine ⟨fun h => ?_, fun ⟨hvariant, hvalue, hlabels, hbelow⟩ => .node hvariant hvalue hlabels hbelow⟩
  cases h with
  | node hvariant hvalue hlabels hbelow => exact ⟨hvariant, hvalue, hlabels, hbelow⟩

theorem agrees_rename (f : NodeId → NodeId) : (v.rename f).Agrees s ↔ v.Agrees s := by
  induction v using induct generalizing s with
  | node id content parts ih =>
    obtain ⟨sid, theirs, others⟩ := s
    have hparts : valueParts (content.gene.rename f) (parts.map (rename f)) =
        (valueParts content.gene parts).map (rename f) := by
      rw [valueParts, valueParts, Gene.isCollection_rename]
      split
      · exact List.map_drop.symm
      · rfl
    have hlabels : labels (content.gene.rename f) (parts.map (rename f)) = labels content.gene parts := by
      simp only [labels, hparts, List.map_map, Function.comp_def, content_rename, Gene.variant_rename]
      rfl
    have hvariant : (content.rename f).variant = content.variant := Gene.variant_rename f content.gene
    rw [rename, agrees_node, agrees_node, hvariant]
    change _ ∧ (content.gene.rename f).Carries _ ∧ labels (content.gene.rename f) _ = _ ∧
      (∀ r ∈ (valueParts (content.gene.rename f) _).zip _, _) ↔ _
    rw [Gene.carries_rename, hlabels, hparts, List.zip_map_left, List.forall_mem_map]
    refine and_congr_right fun _ => and_congr_right fun _ => and_congr_right fun _ => ?_
    refine forall₂_congr fun r hr => ih r.1 ?_
    exact mem_of_mem_valueParts (List.of_mem_zip hr).1

/-- Do two terms hold the same value, whatever inactive optionals hide? -/
inductive Coincides : GeneTerm → GeneTerm → Prop where
  | node {id sid : NodeId} {content theirs : GeneNode} {parts others : List GeneTerm}
    (variant : content.variant = theirs.variant) (value : content.gene.Carries theirs.gene)
    (labels : labels content.gene parts = labels theirs.gene others)
    (below : content.gene.shows = true →
      ∀ r ∈ (valueParts content.gene parts).zip (valueParts theirs.gene others), Coincides r.1 r.2) :
    Coincides (node id content parts) (node sid theirs others)

theorem Agrees.coincides (h : v.Agrees s) : v.Coincides s := by
  induction h with
  | node hvariant hvalue hlabels _ ih => exact .node hvariant hvalue hlabels fun _ => ih

/-- Whether terms agree depends on their values only. -/
theorem Agrees.of_erase (h : v.Agrees s) (he : w.erase = v.erase) : w.Agrees s := by
  rwa [← agrees_rename fun _ => ⟨0⟩, ← erase, he, erase, agrees_rename]

end GeneTerm

namespace GeneTree

variable {t other : GeneTree} {v s : GeneTerm}

theorem sameKeys_of_names {xs ys : List GeneTerm} (hx : ∀ x ∈ xs, t.Holds x) (hy : ∀ y ∈ ys, other.Holds y)
    (h : xs.map (·.content.name) = ys.map (·.content.name)) :
    sameKeys t other ((xs.map GeneTerm.id).zip (ys.map GeneTerm.id)) = .ok true := by
  induction xs generalizing ys with
  | nil => rfl
  | cons x xs ih =>
    cases ys with
    | nil => rfl
    | cons y ys =>
      rw [List.map_cons, List.map_cons, List.cons.injEq] at h
      have hxname : t.name x.id = .ok x.content.name := by
        rw [name, node_of_get? (hx x (by simp)).get?_id]
        rfl
      have hyname : other.name y.id = .ok y.content.name := by
        rw [name, node_of_get? (hy y (by simp)).get?_id]
        rfl
      have hrest := ih (fun x hx' => hx x (List.mem_cons_of_mem _ hx'))
        (fun y hy' => hy y (List.mem_cons_of_mem _ hy')) h.2
      rw [List.map_cons, List.map_cons, List.zip_cons_cons, sameKeys, hxname, hyname, h.1]
      change (if y.content.name ≠ y.content.name then _ else _) = _
      rw [if_neg (by simp)]
      exact hrest

theorem allPairs_of_forall {compare : NodeId → NodeId → Except GeneError Bool}
    {pairs : List (NodeId × NodeId)} (h : ∀ r ∈ pairs, compare r.1 r.2 = .ok true) :
    allPairs compare pairs = .ok true := by
  induction pairs with
  | nil => rfl
  | cons r pairs ih =>
    rw [allPairs, h r (by simp)]
    exact ih fun x hx => h x (List.mem_cons_of_mem _ hx)

/-- What the comparison of genes with the same value goes on with. -/
theorem comparison_of_carries {mine theirs : Gene} (hv : mine.variant = theirs.variant)
    (h : mine.Carries theirs) (hlen : mine.children.length = theirs.children.length)
    (hkeys : mine.variant = .map → sameKeys t other (mine.children.zip theirs.children) = .ok true) :
    comparison t other mine theirs = .ok (.decided true) ∨ mine.shows = true ∧
      comparison t other mine theirs = .ok (.pairs (mine.children.zip theirs.children)) := by
  cases Gene.kindred_of_variant hv
  case map template xs maxSize template' ys maxSize' =>
    have hlen : xs.length = ys.length := hlen
    have hkeys : sameKeys t other (xs.zip ys) = .ok true := hkeys rfl
    refine .inr ⟨rfl, ?_⟩
    rw [comparison, if_neg (not_not.mpr hlen), hkeys]
    rfl
  case optional x active y active' =>
    obtain rfl : active = active' := h
    cases active with
    | true => exact .inr ⟨rfl, rfl⟩
    | false => exact .inl rfl
  case object | array | base64 | primaryKey | autoIncrement | cyclePlaceholder | limitPlaceholder =>
    refine .inr ⟨rfl, ?_⟩
    change Except.ok (memberPairs _ _) = _
    rw [memberPairs, if_pos hlen]
  -- leaves carry all that there is to compare
  case float | double => exact .inl (congrArg (Except.ok ∘ Comparison.decided) h)
  all_goals exact .inl (congrArg (Except.ok ∘ Comparison.decided) (beq_iff_eq.mpr h))

theorem sameValueWithin_of_decided {x y : NodeId} {g k : Gene} {equal : Bool} (hx : t.gene x = .ok g)
    (hy : other.gene y = .ok k) (hvariant : g.variant = k.variant)
    (h : comparison t other g k = .ok (.decided equal)) (d : Nat) :
    t.sameValueWithin other (d + 1) x y = .ok equal := by
  rw [sameValueWithin, hx, hy]
  change (if g.variant ≠ k.variant then _ else _) = _
  rw [if_neg (not_not.mpr hvariant), h]
  rfl

theorem sameValueWithin_of_pairs {x y : NodeId} {g k : Gene} {pairs : List (NodeId × NodeId)}
    (hx : t.gene x = .ok g) (hy : other.gene y = .ok k) (hvariant : g.variant = k.variant)
    (h : comparison t other g k = .ok (.pairs pairs)) (d : Nat) :
    t.sameValueWithin other (d + 1) x y = allPairs (t.sameValueWithin other d) pairs := by
  rw [sameValueWithin, hx, hy]
  change (if g.variant ≠ k.variant then _ else _) = _
  rw [if_neg (not_not.mpr hvariant), h]
  rfl

/-- Terms that hold the same value are found equal. -/
theorem sameValueWithin_of_coincides {d : Nat} (hv : t.Holds v) (hs : other.Holds s) (h : v.Coincides s)
    (hd : v.height ≤ d) : t.sameValueWithin other d v.id s.id = .ok true := by
  induction h generalizing d with
  | @node id sid content theirs parts others hvariant hvalue hlabels hbelow ih =>
    cases d with
    | zero => simp [height] at hd
    | succ d =>
      have hchildren := map_id_valueParts hv.shaped
      have hchildren' := map_id_valueParts hs.shaped
      have hlen : content.gene.children.length = theirs.gene.children.length := by
        rw [← hchildren, ← hchildren', List.length_map, List.length_map]
        exact length_of_labels hlabels
      have hkeys : content.gene.variant = .map →
          sameKeys t other (content.gene.children.zip theirs.gene.children) = .ok true := by
        intro hmap
        rw [← hchildren, ← hchildren']
        refine sameKeys_of_names (fun x hx => hv.parts.each x (mem_of_mem_valueParts hx))
          (fun y hy => hs.parts.each y (mem_of_mem_valueParts hy)) ?_
        exact names_of_labels hlabels hmap (hvariant.symm.trans hmap)
      have hpairs : content.gene.shows = true → allPairs (t.sameValueWithin other d)
          (content.gene.children.zip theirs.gene.children) = .ok true := by
        refine fun hshows => allPairs_of_forall fun r hr => ?_
        rw [← hchildren, ← hchildren', List.zip_map] at hr
        obtain ⟨c, hc, rfl⟩ := List.mem_map.mp hr
        have hp := mem_of_mem_valueParts (List.of_mem_zip hc).1
        have hq := mem_of_mem_valueParts (List.of_mem_zip hc).2
        have hlt := height_lt_of_part id content hp
        exact ih hshows c hc (hv.parts.each _ hp) (hs.parts.each _ hq) (Nat.le_of_lt_succ (hlt.trans_le hd))
      have hgene := gene_of_get? hv.get?_node
      have hgene' := gene_of_get? hs.get?_node
      rcases comparison_of_carries hvariant hvalue hlen hkeys with h | ⟨hshows, h⟩
      · exact sameValueWithin_of_decided hgene hgene' hvariant h d
      · exact (sameValueWithin_of_pairs hgene hgene' hvariant h d).trans (hpairs hshows)

theorem sameValue_of_coincides (hv : t.Holds v) (hs : other.Holds s) (h : v.Coincides s) :
    t.sameValue v.id other s.id = .ok true :=
  sameValueWithin_of_coincides hv hs h
    (hv.height_le_depthBound.trans (Nat.le_mul_of_pos_right _ (Nat.succ_pos _)))

theorem sameValue_of_agrees (hv : t.Holds v) (hs : other.Holds s) (h : v.Agrees s) :
    t.sameValue v.id other s.id = .ok true := sameValue_of_coincides hv hs h.coincides

end GeneTree
end CallEvolution
