import CallEvolution.Gene.Traversal
import CallEvolution.Proofs.Comparison
import CallEvolution.Proofs.Construction
import CallEvolution.Proofs.LeafFields

/-! Walks through gene trees. A walk keeps a stack of the nodes to come, and visits in the order of the
recursion: no node twice, none below an excluded one, and no template. -/

namespace CallEvolution

open GeneTerm

/-- The pattern of the members of a collection. -/
def Gene.template? : Gene → Option NodeId
  | .array template _ _ | .map template _ _ => some template
  | _ => none

theorem Gene.template?_mem {g : Gene} {z : NodeId} (hg : g.owned.Nodup) (hz : g.template? = some z) :
    z ∈ g.owned ∧ z ∉ g.children := by
  cases g <;> simp only [template?, Option.some.injEq, reduceCtorEq] at hz
  all_goals
    subst hz
    exact ⟨List.mem_cons_self, (List.nodup_cons.mp hg).1⟩

theorem Gene.children_subset_owned (g : Gene) : g.children ⊆ g.owned := by
  rw [children_eq]
  split
  · exact List.drop_subset _ _
  · exact List.Subset.refl _

namespace GeneTree

/-- Is a node one of those that make up the value of another one? -/
def HasChild (t : GeneTree) (x y : NodeId) : Prop := ∃ n, t.get? x = some n ∧ y ∈ n.gene.children

variable {t : GeneTree} {x y z : NodeId} {n : GeneNode} {v : GeneTerm} {vs : List GeneTerm}
  {exclude : GeneNode → Bool}

theorem HasChild.owns (h : t.HasChild x y) : t.Owns x y := by
  obtain ⟨n, hn, hy⟩ := h
  obtain ⟨i, hi⟩ := List.getElem?_of_mem (Gene.children_subset_owned _ hy)
  exact ⟨i, n, hn, hi⟩

/-- The parts that a walk enters from the head of a term. -/
def entered (exclude : GeneNode → Bool) (v : GeneTerm) : List GeneTerm :=
  if exclude v.content then [] else valueParts v.content.gene v.parts

theorem mem_of_mem_entered {p : GeneTerm} (h : p ∈ entered exclude v) : p ∈ v.parts := by
  unfold entered at h
  split at h
  · cases h
  · exact mem_of_mem_valueParts h

theorem Holds.map_id_entered (hv : t.Holds v) (exclude : GeneNode → Bool) :
    (entered exclude v).map GeneTerm.id = if exclude v.content then [] else v.content.gene.children := by
  obtain ⟨id, content, parts⟩ := v
  unfold entered
  split
  · rfl
  · exact map_id_valueParts hv.shaped

theorem height_lt_of_mem_parts {p : GeneTerm} (hp : p ∈ v.parts) : p.height < v.height := by
  obtain ⟨id, content, parts⟩ := v
  exact height_lt_of_part id content hp

section Recursion

theorem Holds.preorderWithin_succ (hv : t.Holds v) (exclude : GeneNode → Bool) (d : Nat) :
    t.preorderWithin exclude (d + 1) v.id =
      (v.id, v.content) :: (entered exclude v).flatMap fun p => t.preorderWithin exclude d p.id := by
  rw [preorderWithin, hv.get?_id, ← List.flatMap_map, hv.map_id_entered]
  dsimp only
  split <;> rfl

/-- Depth beyond the height of a term makes no difference. -/
theorem Holds.preorderWithin_eq {d : Nat} (hv : t.Holds v) (hd : v.height ≤ d) :
    t.preorderWithin exclude d v.id = t.preorder v.id exclude := by
  have hsame : ∀ {d k : Nat}, v.height ≤ d → v.height ≤ k →
      t.preorderWithin exclude d v.id = t.preorderWithin exclude k v.id := by
    clear hd
    induction v using induct with
    | node id content parts ih =>
      intro d k hd hk
      cases d with
      | zero => simp [height] at hd
      | succ d =>
        cases k with
        | zero => simp [height] at hk
        | succ k =>
          rw [hv.preorderWithin_succ, hv.preorderWithin_succ]
          refine congrArg _ (List.flatMap_congr fun p hp => ?_)
          have hp : p ∈ parts := mem_of_mem_entered hp
          have hlt := height_lt_of_part id content hp
          exact ih p hp (hv.parts.each p hp) (by omega) (by omega)
  exact hsame hd hv.height_le_depthBound

theorem Holds.preorder_eq (hv : t.Holds v) (exclude : GeneNode → Bool) :
    t.preorder v.id exclude =
      (v.id, v.content) :: (entered exclude v).flatMap fun p => t.preorder p.id exclude := by
  rw [preorder, depthBound, hv.preorderWithin_succ]
  refine congrArg _ (List.flatMap_congr fun p hp => ?_)
  have hp := mem_of_mem_entered hp
  refine (hv.of_part hp).preorderWithin_eq ?_
  have hlt := height_lt_of_mem_parts hp
  have hle := hv.height_le_depthBound
  rw [depthBound] at hle
  omega

/-- The visits below a node of a well-formed tree: the node, and those below its children in order unless
it is excluded. -/
theorem WellFormed.preorder_eq (ht : t.WellFormed) (hx : t.get? x = some n) (exclude : GeneNode → Bool) :
    t.preorder x exclude =
      (x, n) :: if exclude n then [] else n.gene.children.flatMap (t.preorder · exclude) := by
  obtain ⟨v, rfl, hv, -⟩ := ht.exists_term hx
  obtain rfl : n = v.content := Option.some.inj (hx.symm.trans hv.get?_id)
  have hbelow : ((entered exclude v).flatMap fun p => t.preorder p.id exclude) =
      ((entered exclude v).map GeneTerm.id).flatMap (t.preorder · exclude) := by
    rw [List.flatMap_map]
  rw [hv.preorder_eq, hbelow, hv.map_id_entered]
  split <;> rfl

end Recursion

section Visits

theorem Holds.mem_ids_of_preorder (hv : t.Holds v) {e : NodeId × GeneNode}
    (he : e ∈ t.preorder v.id exclude) : e.1 ∈ v.ids := by
  induction v using induct with
  | node id content parts ih =>
    rw [hv.preorder_eq, List.mem_cons, List.mem_flatMap] at he
    rw [ids_node, List.mem_cons, List.mem_flatMap]
    refine he.imp (congrArg Prod.fst) ?_
    rintro ⟨p, hp, he⟩
    have hp := mem_of_mem_entered hp
    exact ⟨p, hp, ih p hp (hv.parts.each p hp) he⟩

theorem entered_sublist (exclude : GeneNode → Bool) (v : GeneTerm) :
    (entered exclude v).Sublist v.parts := by
  unfold entered valueParts
  split
  · exact List.nil_sublist _
  · split
    · exact List.drop_sublist _ _
    · exact List.Sublist.refl _

/-- No node is visited twice. -/
theorem Holds.nodup_preorder (hv : t.Holds v) (exclude : GeneNode → Bool) :
    ((t.preorder v.id exclude).map Prod.fst).Nodup := by
  induction v using induct with
  | node id content parts ih =>
    have hsub := entered_sublist exclude (GeneTerm.node id content parts)
    have hvisits : ∀ p ∈ entered exclude (GeneTerm.node id content parts),
        ∀ x ∈ (t.preorder p.id exclude).map Prod.fst, x ∈ p.ids := by
      intro p hp x hx
      obtain ⟨e, he, rfl⟩ := List.mem_map.mp hx
      exact (hv.parts.each p (hsub.subset hp)).mem_ids_of_preorder he
    rw [hv.preorder_eq, List.map_cons, List.map_flatMap]
    refine List.nodup_cons.mpr ⟨fun hx => ?_, List.nodup_flatMap.mpr ⟨fun p hp => ?_, ?_⟩⟩
    · obtain ⟨p, hp, hx⟩ := List.mem_flatMap.mp hx
      exact id_notMem_allIds hv.distinct (mem_allIds.mpr ⟨p, hsub.subset hp, hvisits p hp _ hx⟩)
    · exact ih p (hsub.subset hp) (hv.parts.each p (hsub.subset hp))
    · -- parts share no node, so their visits do not either
      have hdisjoint := (List.nodup_flatMap.mp hv.parts.distinct).2.sublist hsub
      exact hdisjoint.imp_of_mem fun hp hq hpq x hx hx' => hpq (hvisits _ hp x hx) (hvisits _ hq x hx')

theorem Holds.mem_of_reaches_from (hv : t.Holds v) (hx : x ∈ v.ids)
    (h : Relation.ReflTransGen t.HasChild x y) : y ∈ v.ids := by
  induction h with
  | refl => exact hx
  | tail _ hchild ih => exact (hv.owned_mem ih hchild.owns).1

/-- What lies below the head of a term is the value of one of its parts. -/
theorem Holds.exists_valuePart {id : NodeId} {content : GeneNode} {parts : List GeneTerm}
    (hv : t.Holds (.node id content parts)) (h : Relation.TransGen t.HasChild id x) :
    ∃ p ∈ valueParts content.gene parts, Relation.ReflTransGen t.HasChild p.id x ∧ x ∈ p.ids := by
  obtain ⟨z, ⟨m, hm, hz⟩, hzx⟩ := Relation.TransGen.head'_iff.mp h
  obtain rfl : content = m := Option.some.inj (hv.get?_node.symm.trans hm)
  rw [← map_id_valueParts hv.shaped] at hz
  obtain ⟨p, hp, rfl⟩ := List.mem_map.mp hz
  have hpart := hv.parts.each p (mem_of_mem_valueParts hp)
  exact ⟨p, hp, hzx, hpart.mem_of_reaches_from p.id_mem_ids hzx⟩

/-- The nodes that are visited: all that the value consists of, save those below an excluded one. -/
theorem Holds.mem_preorder_iff (hv : t.Holds v) : (x, n) ∈ t.preorder v.id exclude ↔
    t.get? x = some n ∧ Relation.ReflTransGen t.HasChild v.id x ∧
      ∀ y m, Relation.ReflTransGen t.HasChild v.id y → Relation.TransGen t.HasChild y x →
        t.get? y = some m → exclude m = false := by
  induction v using induct with
  | node id content parts ih =>
    have hnot := id_notMem_allIds hv.distinct
    have hvalue : ∀ {p}, p ∈ valueParts content.gene parts → p ∈ parts := mem_of_mem_valueParts
    have hentered : entered exclude (.node id content parts) =
      if exclude content then [] else valueParts content.gene parts := rfl
    rw [hv.preorder_eq, List.mem_cons, List.mem_flatMap, Prod.mk.injEq, hentered]
    constructor
    · rintro (⟨rfl, rfl⟩ | ⟨p, hp, hx⟩)
      · refine ⟨hv.get?_node, .refl, fun y m hy hyx _ => ?_⟩
        -- nothing below the head comes back to it
        obtain ⟨p, hp, -, hxp⟩ := hv.exists_valuePart (.trans_right hy hyx)
        exact absurd (mem_allIds.mpr ⟨p, hvalue hp, hxp⟩) hnot
      · split at hp
        · cases hp
        · next hopen =>
          obtain ⟨hn, hpx, hclear⟩ := (ih p (hvalue hp) (hv.parts.each p (hvalue hp))).mp hx
          have hidp : t.HasChild id p.id :=
            ⟨content, hv.get?_node, map_id_valueParts hv.shaped ▸ List.mem_map_of_mem hp⟩
          refine ⟨hn, .head hidp hpx, fun y m hy hyx hm => ?_⟩
          rcases Relation.reflTransGen_iff_eq_or_transGen.mp hy with rfl | hy
          · obtain rfl : content = m := Option.some.inj (hv.get?_node.symm.trans hm)
            exact Bool.eq_false_iff.mpr hopen
          · obtain ⟨q, hq, hqy, -⟩ := hv.exists_valuePart hy
            -- two parts with a common node are one
            have hqx := (hv.parts.each q (hvalue hq)).mem_of_reaches_from q.id_mem_ids
              (hqy.trans hyx.to_reflTransGen)
            have hpx := (hv.parts.each p (hvalue hp)).mem_of_reaches_from p.id_mem_ids hpx
            obtain rfl := eq_of_mem_ids hv.parts.distinct (hvalue hp) (hvalue hq) hpx hqx
            exact hclear y m hqy hyx hm
    · rintro ⟨hn, hx, hclear⟩
      rcases Relation.reflTransGen_iff_eq_or_transGen.mp hx with rfl | hx
      · exact .inl ⟨rfl, Option.some.inj (hn.symm.trans hv.get?_node)⟩
      · obtain ⟨p, hp, hpx, -⟩ := hv.exists_valuePart hx
        have hopen := hclear id content .refl hx hv.get?_node
        have hidp : t.HasChild id p.id :=
          ⟨content, hv.get?_node, map_id_valueParts hv.shaped ▸ List.mem_map_of_mem hp⟩
        refine .inr ⟨p, by simpa [hopen] using hp, ?_⟩
        refine (ih p (hvalue hp) (hv.parts.each p (hvalue hp))).mpr ⟨hn, hpx, fun y m hy => ?_⟩
        exact hclear y m (.head hidp hy)

/-- No template below the start is visited, nor anything below one. -/
theorem WellFormed.not_reaches_template (ht : t.WellFormed) {id : NodeId} {m : GeneNode}
    (hy : t.get? y = some m) (hz : m.gene.template? = some z)
    (hout : ¬ Relation.ReflTransGen t.Owns z id) (hx : Relation.ReflTransGen t.HasChild id x) :
    ¬ Relation.ReflTransGen t.Owns z x := by
  induction hx with
  | refl => exact hout
  | @tail w x _ hwx ih =>
    intro hzx
    obtain ⟨howned, hnot⟩ := Gene.template?_mem (ht.nodup_owned hy) hz
    rcases Relation.ReflTransGen.cases_tail hzx with rfl | ⟨w', hzw', hw'x⟩
    · -- a template is no child of its only owner
      obtain ⟨i, hi⟩ := List.getElem?_of_mem howned
      obtain rfl := ht.owner_unique ⟨i, m, hy, hi⟩ hwx.owns
      obtain ⟨m', hm', hchild⟩ := hwx
      obtain rfl : m = m' := Option.some.inj (hy.symm.trans hm')
      exact hnot hchild
    · exact ih (ht.owner_unique hw'x hwx.owns ▸ hzw')

end Visits

section Lengths

theorem length_flatMap_add {α β : Type} (f : α → List β) (k : Nat) (l : List α) :
    (l.flatMap f).length + k = (l.map fun x => (f x).length).foldr (· + ·) k := by
  induction l with
  | nil => exact Nat.zero_add k
  | cons x l ih =>
    rw [List.flatMap_cons, List.length_append, List.map_cons, List.foldr_cons, ← ih, Nat.add_assoc]

theorem length_preorderWithin (t : GeneTree) (exclude : GeneNode → Bool) (d : Nat) (x : NodeId) :
    (t.preorderWithin exclude d x).length = t.visitsWithin exclude d x := by
  induction d generalizing x with
  | zero => rfl
  | succ d ih =>
    rw [preorderWithin, visitsWithin]
    split
    · rfl
    · split
      · rfl
      · rw [List.length_cons, length_flatMap_add, funext ih]

theorem length_preorder (t : GeneTree) (exclude : GeneNode → Bool) (x : NodeId) :
    (t.preorder x exclude).length = t.visits exclude x := t.length_preorderWithin exclude _ x

end Lengths

end GeneTree

namespace Walk

open GeneTree

variable {t : GeneTree} {x : NodeId} {n : GeneNode} {v : GeneTerm} {exclude : GeneNode → Bool}
  {stack : List NodeId} {w : Walk} {es : List (NodeId × GeneNode)}

/-- Does a walk end after these visits? -/
inductive Plays : Walk → List (NodeId × GeneNode) → Prop where
  | done {w : Walk} (h : w.next? = none) : Plays w []
  | visit {w rest : Walk} {e : NodeId × GeneNode} {es : List (NodeId × GeneNode)}
    (h : w.next? = some (e, rest)) (hrest : Plays rest es) : Plays w (e :: es)

theorem next?_cons (hx : t.get? x = some n) (stack : List NodeId) (exclude : GeneNode → Bool) :
    next? ⟨t, x :: stack, exclude⟩ =
      some ((x, n), ⟨t, (if exclude n then [] else n.gene.children) ++ stack, exclude⟩) := by
  rw [next?, pop?, hx]

/-- The nodes on the stack come one after the other, each with what lies below it. -/
theorem Plays.append {ps : List GeneTerm}
    (hps : ∀ p ∈ ps, ∀ {stack es}, Plays ⟨t, stack, exclude⟩ es →
      Plays ⟨t, p.id :: stack, exclude⟩ (t.preorder p.id exclude ++ es))
    (h : Plays ⟨t, stack, exclude⟩ es) :
    Plays ⟨t, ps.map GeneTerm.id ++ stack, exclude⟩
      ((ps.flatMap fun p => t.preorder p.id exclude) ++ es) := by
  induction ps with
  | nil => exact h
  | cons p ps ih =>
    rw [List.flatMap_cons, List.append_assoc]
    exact hps p List.mem_cons_self (ih fun q hq => hps q (List.mem_cons_of_mem _ hq))

/-- A node on top of the stack is walked through before the rest of the stack is looked at. -/
theorem plays_of_holds (hv : t.Holds v) (h : Plays ⟨t, stack, exclude⟩ es) :
    Plays ⟨t, v.id :: stack, exclude⟩ (t.preorder v.id exclude ++ es) := by
  induction v using induct generalizing stack es with
  | node id content parts ih =>
    rw [hv.preorder_eq, List.cons_append]
    refine .visit (next?_cons hv.get?_id stack exclude) ?_
    rw [← hv.map_id_entered]
    refine h.append fun p hp _ _ hrest => ?_
    have hp := mem_of_mem_entered hp
    exact ih p hp (hv.parts.each p hp) hrest

theorem plays_start (hv : t.Holds v) (exclude : GeneNode → Bool) :
    (start t v.id exclude).Plays (t.preorder v.id exclude) := by
  have hdone : Plays ⟨t, [], exclude⟩ [] := .done rfl
  have hplays := plays_of_holds hv hdone
  rwa [List.append_nil] at hplays

theorem Plays.unique {es' : List (NodeId × GeneNode)} (h : w.Plays es) (h' : w.Plays es') : es = es' := by
  induction h generalizing es' with
  | done hnext =>
    cases h' with
    | done _ => rfl
    | visit hnext' _ => cases hnext.symm.trans hnext'
  | visit hnext _ ih =>
    cases h' with
    | done hnext' => cases hnext'.symm.trans hnext
    | visit hnext' hrest =>
      cases hnext.symm.trans hnext'
      rw [ih hrest]

/-- A walk that is stopped has made the first visits, and the others are left. -/
theorem Plays.take (h : w.Plays es) (count : Nat) :
    (w.take count).1 = es.take count ∧ (w.take count).2.Plays (es.drop count) := by
  induction count generalizing w es with
  | zero => exact ⟨rfl, h⟩
  | succ count ih =>
    cases h with
    | done hnext =>
      rw [Walk.take, hnext]
      exact ⟨rfl, .done hnext⟩
    | visit hnext hrest =>
      obtain ⟨hvisits, hleft⟩ := ih hrest
      rw [Walk.take, hnext]
      exact ⟨congrArg _ hvisits, hleft⟩

theorem toList_start (h : (start t x exclude).Plays (t.preorder x exclude)) :
    (start t x exclude).toList = t.preorder x exclude := by
  have hcount : t.visits exclude x + 0 = (t.preorder x exclude).length := (t.length_preorder exclude x).symm
  refine ((h.take _).1).trans ?_
  change List.take (t.visits exclude x + 0) _ = _
  rw [hcount, List.take_length]

/-- A walk makes the visits of the recursion and ends. They are the nodes of the value, each once, save those
below an excluded one, and none that belongs to a template below the start. A walk that is stopped goes on
with the visits that are left, as often as it is taken up. -/
theorem start_plays_preorder (ht : t.WellFormed) (hx : t.get? x = some n) (exclude : GeneNode → Bool) :
    (∀ y m, t.get? y = some m → t.preorder y exclude =
      (y, m) :: if exclude m then [] else m.gene.children.flatMap (t.preorder · exclude)) ∧
    (start t x exclude).Plays (t.preorder x exclude) ∧
    (start t x exclude).toList = t.preorder x exclude ∧
    ((t.preorder x exclude).map Prod.fst).Nodup ∧
    (∀ y m, (y, m) ∈ t.preorder x exclude ↔
      t.get? y = some m ∧ Relation.ReflTransGen t.HasChild x y ∧
        ∀ z l, Relation.ReflTransGen t.HasChild x z → Relation.TransGen t.HasChild z y →
          t.get? z = some l → exclude l = false) ∧
    (∀ y m z, t.get? y = some m → m.gene.template? = some z → ¬ Relation.ReflTransGen t.Owns z x →
      ∀ e ∈ t.preorder x exclude, ¬ Relation.ReflTransGen t.Owns z e.1) ∧
    ∀ count, ((start t x exclude).take count).1 = (t.preorder x exclude).take count ∧
      ∀ rest, ((start t x exclude).take count).2.Plays rest ↔ rest = (t.preorder x exclude).drop count := by
  obtain ⟨v, rfl, hv, -⟩ := ht.exists_term hx
  have hplays := plays_start hv exclude
  refine ⟨fun y m hy => ht.preorder_eq hy exclude, hplays, toList_start hplays, hv.nodup_preorder exclude,
    fun y m => hv.mem_preorder_iff, ?_, fun count => ⟨(hplays.take count).1, fun rest => ⟨fun hrest => ?_, ?_⟩⟩⟩
  · rintro y m z hy hz hout ⟨w, l⟩ he
    exact ht.not_reaches_template hy hz hout (hv.mem_preorder_iff.mp he).2.1
  · exact hrest.unique (hplays.take count).2
  · rintro rfl
    exact (hplays.take count).2

/-- An object with an array, where the object inside it is not entered. -/
theorem start_plays_preorder_of_object : ∃ visits,
    (start (object "root" [integer "a", object "inner" [string "b", boolean "c"],
      array "list" (integer "item") 4]) ⟨0⟩ fun n => n.name = "inner").Plays visits ∧
    visits.map (·.2.name) = ["root", "a", "inner", "list"] := by
  have hinner : Built (object "inner" [string "b", boolean "c"]) := by
    refine .object "inner" ?_
    simp only [List.forall_mem_cons, List.not_mem_nil, false_implies, implies_true, and_true]
    exact ⟨.string "b", .boolean "c"⟩
  have hbuilt : Built (object "root" [integer "a", object "inner" [string "b", boolean "c"],
      array "list" (integer "item") 4]) := by
    refine .object "root" ?_
    simp only [List.forall_mem_cons, List.not_mem_nil, false_implies, implies_true, and_true]
    exact ⟨.integer "a", hinner, .array "list" 4 (.integer "item")⟩
  obtain ⟨n, hroot, -⟩ := hbuilt.wellFormed.root_live
  refine ⟨_, (start_plays_preorder hbuilt.wellFormed hroot _).2.1, ?_⟩
  decide +kernel

end Walk
end CallEvolution
