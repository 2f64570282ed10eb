import CallEvolution.Proofs.TotalReading
import CallEvolution.Proofs.Walks
import Mathlib.Data.List.Flatten

/-! The keys under which the values of a parameter are found. Every value outside of the collections has its
keys, no key stands for two values, and a key that several values ask for goes to the first one in pre-order. -/

namespace CallEvolution

open GeneTree GeneTerm

namespace GeneTree

/-- Is a node a value of its own that lies in no collection and in no encoded text? -/
structure IsNamed (t : GeneTree) (x : NodeId) : Prop where
  value : ∃ n, t.get? x = some n ∧
    n.variant ∉ [Variant.object, .optional, .primaryKey, .cyclePlaceholder, .limitPlaceholder]
  outside : ∀ y m, Relation.TransGen t.Owns y x → t.get? y = some m →
    m.variant ∉ [Variant.array, .map, .base64]

/-- Which keys does a node of this name ask for? A name that says nothing alone is qualified by the object
around the node and by each token. -/
inductive HasKeys (t : GeneTree) (tokens : List String) (x : NodeId) (name : String) : List String → Prop where
  | plain (h : Matching.isGeneral name = false) : HasKeys t tokens x name [name]
  | byObject {q : String} (h : Matching.isGeneral name = true) (hq : t.Qualifies x q) :
    HasKeys t tokens x name ((q ++ name) :: tokens.map (· ++ name))
  | byTokens (h : Matching.isGeneral name = true) (hnone : ∀ q, ¬ t.Qualifies x q) (htokens : tokens ≠ []) :
    HasKeys t tokens x name (tokens.map (· ++ name))
  | bare (h : Matching.isGeneral name = true) (hnone : ∀ q, ¬ t.Qualifies x q) (htokens : tokens = []) :
    HasKeys t tokens x name [name]

end GeneTree

namespace Matching

variable {t : GeneTree} {tokens : List String} {x y : NodeId} {n : GeneNode} {k : String}

theorem exists_nodeKeys (ht : t.WellFormed) (tokens : List String) (hx : t.get? x = some n) :
    ∃ keys, nodeKeys t tokens x n = .ok keys ∧ t.HasKeys tokens x n.name keys := by
  cases hgeneral : isGeneral n.name with
  | false =>
    refine ⟨[n.name], ?_, .plain hgeneral⟩
    rw [nodeKeys, hgeneral]
    rfl
  | true =>
    obtain ⟨parts, hparts, hqualifies⟩ := exists_objectQualifier ht hx
    have hkeys : nodeKeys t tokens x n = .ok (if (parts ++ tokens).isEmpty then [n.name]
        else (parts ++ tokens).map (· ++ n.name)) := by
      rw [nodeKeys, hgeneral, hparts]
      rfl
    refine ⟨_, hkeys, ?_⟩
    rcases hqualifies with ⟨rfl, hnone⟩ | ⟨q, rfl, hq⟩
    · cases tokens with
      | nil => exact .bare hgeneral hnone rfl
      | cons token tokens => exact .byTokens hgeneral hnone (List.cons_ne_nil _ _)
    · exact .byObject hgeneral hq

section Claims

/-- Adds claims in order; a key that is taken stays with its node. -/
def claimEach (claimed claims : List (String × NodeId)) : List (String × NodeId) :=
  claims.foldl (fun claimed e => if claimed.any (·.1 = e.1) then claimed else claimed ++ [e]) claimed

theorem claimKeys_eq (claimed : List (String × NodeId)) (keys : List String) :
    claimKeys x claimed keys = claimEach claimed (keys.map (·, x)) := by
  rw [claimEach, List.foldl_map]
  rfl

/-- What nodes claim, in their order, if each asks for some keys. -/
def claimList (keysOf : NodeId → List String) (order : List NodeId) : List (String × NodeId) :=
  order.flatMap fun x => (keysOf x).map (·, x)

/-- Nodes make their claims one after the other. -/
theorem claimAll_eq {keysOf : NodeId → List String} {nodes : List (NodeId × GeneNode)}
    (hkeys : ∀ e ∈ nodes, isValueGene e.2.variant = true → nodeKeys t tokens e.1 e.2 = .ok (keysOf e.1))
    (hnone : ∀ e ∈ nodes, isValueGene e.2.variant = false → keysOf e.1 = [])
    (claimed : List (String × NodeId)) :
    claimAll t tokens claimed nodes = .ok (claimEach claimed (claimList keysOf (nodes.map Prod.fst))) := by
  induction nodes generalizing claimed with
  | nil => rfl
  | cons e nodes ih =>
    obtain ⟨x, n⟩ := e
    obtain ⟨hkey, hkeys⟩ := List.forall_mem_cons.mp hkeys
    obtain ⟨hskip, hnone⟩ := List.forall_mem_cons.mp hnone
    have hsplit : claimEach claimed (claimList keysOf (x :: nodes.map Prod.fst)) =
        claimEach (claimKeys x claimed (keysOf x)) (claimList keysOf (nodes.map Prod.fst)) := by
      rw [claimKeys_eq, claimList, List.flatMap_cons, claimEach, claimEach, claimEach, List.foldl_append,
        claimList]
    rw [claimAll, List.map_cons, hsplit]
    split
    · next hvalue =>
      rw [hkey hvalue]
      exact ih hkeys hnone _
    · next hvalue =>
      rw [hskip (Bool.eq_false_iff.mpr hvalue)]
      exact ih hkeys hnone claimed

/-- Has a table one entry for every key that is claimed, with the first claim to it? -/
structure FirstCome (claims table : List (String × NodeId)) : Prop where
  nodup : (table.map Prod.fst).Nodup
  inOrder : table.Sublist claims
  mem_iff : ∀ k x, (k, x) ∈ table ↔ claims.find? (·.1 = k) = some (k, x)

theorem FirstCome.add {claims table : List (String × NodeId)} (h : FirstCome claims table)
    (e : String × NodeId) :
    FirstCome (claims ++ [e]) (if table.any (·.1 = e.1) then table else table ++ [e]) := by
  obtain ⟨key, id⟩ := e
  have hfound : ∀ k, (claims ++ [(key, id)]).find? (·.1 = k) =
      (claims.find? (·.1 = k)).or (if key = k then some (key, id) else none) := by
    intro k
    rw [List.find?_append, List.find?_singleton]
    simp
  by_cases htaken : table.any (·.1 = key) = true
  · -- an earlier claim to the key is found first, so the new one changes no answer
    rw [if_pos htaken]
    refine ⟨h.nodup, h.inOrder.trans (List.sublist_append_left _ _), fun k x => ?_⟩
    rw [h.mem_iff, hfound]
    by_cases hk : key = k
    · subst hk
      obtain ⟨⟨k, y⟩, hmem, hkey⟩ := List.any_eq_true.mp htaken
      obtain rfl : k = key := of_decide_eq_true hkey
      rw [(h.mem_iff k y).mp hmem, Option.some_or]
    · rw [if_neg hk, Option.or_none]
  · rw [if_neg htaken]
    have hfresh : claims.find? (·.1 = key) = none := by
      cases hfind : claims.find? (·.1 = key) with
      | none => rfl
      | some e =>
        obtain ⟨k, y⟩ := e
        have hkey := List.find?_some hfind
        obtain rfl : k = key := of_decide_eq_true hkey
        exact absurd (List.any_eq_true.mpr ⟨_, (h.mem_iff k y).mpr hfind, decide_eq_true rfl⟩) htaken
    refine ⟨?_, h.inOrder.append (List.Sublist.refl _), fun k x => ?_⟩
    · rw [List.map_append, List.map_singleton, ← List.concat_eq_append, List.nodup_concat]
      refine ⟨fun hmem => htaken ?_, h.nodup⟩
      obtain ⟨e, he, hkey⟩ := List.mem_map.mp hmem
      exact List.any_eq_true.mpr ⟨e, he, decide_eq_true hkey⟩
    · rw [List.mem_append, h.mem_iff, hfound, List.mem_singleton]
      by_cases hk : key = k
      · subst hk
        rw [hfresh, if_pos rfl, Option.none_or, Option.some.injEq, eq_comm (a := (key, x))]
        exact or_iff_right (Option.some_ne_none _).symm
      · rw [if_neg hk, Option.or_none]
        refine or_iff_left ?_
        rintro ⟨⟩
        exact hk rfl

theorem firstCome_claimEach (claims : List (String × NodeId)) : FirstCome claims (claimEach [] claims) := by
  induction claims using List.reverseRecOn with
  | nil => exact ⟨List.nodup_nil, List.Sublist.refl _, fun k x => by simp [claimEach]⟩
  | append_singleton claims e ih =>
    rw [claimEach, List.foldl_append]
    exact ih.add e

theorem find?_pairs (keys : List String) (k : String) (x : NodeId) :
    (keys.map (·, x)).find? (·.1 = k) = if k ∈ keys then some (k, x) else none := by
  induction keys with
  | nil => rfl
  | cons key keys ih =>
    rw [List.map_cons, List.find?_cons, ih]
    by_cases hk : key = k
    · subst hk
      rw [decide_eq_true rfl, if_pos List.mem_cons_self]
    · rw [decide_eq_false hk]
      simp [List.mem_cons, Ne.symm hk]

/-- The first claim to a key is made by the first node that asks for it. -/
theorem find?_claims (keysOf : NodeId → List String) (order : List NodeId) (k : String) :
    (claimList keysOf order).find? (·.1 = k) = (order.find? fun x => k ∈ keysOf x).map (k, ·) := by
  induction order with
  | nil => rfl
  | cons x order ih =>
    rw [claimList] at ih
    rw [claimList, List.flatMap_cons, List.find?_append, find?_pairs, ih, List.find?_cons]
    by_cases hk : k ∈ keysOf x
    · rw [if_pos hk, decide_eq_true hk]
      rfl
    · rw [if_neg hk, decide_eq_false hk]
      rfl

end Claims

section Visits

theorem isClosed_eq_false_iff {v : Variant} : isClosed v = false ↔ v ∉ [Variant.array, .map, .base64] := by
  cases v <;> decide

theorem isValueGene_iff {v : Variant} : isValueGene v = true ↔
    v ∉ [Variant.object, .optional, .primaryKey, .cyclePlaceholder, .limitPlaceholder] := by
  cases v <;> decide

theorem hasChild_of_owns (howns : t.Owns x y) (hx : t.get? x = some n) (hopen : isClosed n.variant = false) :
    t.HasChild x y := by
  obtain ⟨i, m, hm, hi⟩ := howns
  obtain rfl : n = m := Option.some.inj (hx.symm.trans hm)
  have hplain : n.gene.isCollection = false := by
    obtain ⟨name, g, parent⟩ := n
    cases g <;> first | rfl | cases hopen
  refine ⟨n, hx, ?_⟩
  rw [Gene.children_eq, hplain]
  exact List.mem_of_getElem? hi

/-- What is above a node that a walk comes to is on the way of the walk. -/
theorem hasChild_above (ht : t.WellFormed) (hx : Relation.ReflTransGen t.HasChild t.root x)
    (h : Relation.TransGen t.Owns y x) :
    Relation.ReflTransGen t.HasChild t.root y ∧ Relation.TransGen t.HasChild y x := by
  induction hx with
  | refl => exact absurd h ht.not_above_root
  | tail hw hwx ih =>
    rcases (ht.above_iff hwx.owns).mp h with rfl | hyw
    · exact ⟨hw, .single hwx⟩
    · exact ⟨(ih hyw).1, (ih hyw).2.tail hwx⟩

theorem reaches_of_open (ht : t.WellFormed) (hx : t.get? x = some n)
    (hopen : ∀ y m, Relation.TransGen t.Owns y x → t.get? y = some m → isClosed m.variant = false) :
    Relation.ReflTransGen t.HasChild t.root x := by
  -- along the owners from the root: each is open, so the walk goes on into what it owns
  have hreach := ht.reachable x (contains_of_get? hx)
  clear hx
  induction hreach with
  | refl => exact .refl
  | @tail y x hy howns ih =>
    obtain ⟨i, m, hm, hi⟩ := howns
    have howns : t.Owns y x := ⟨i, m, hm, hi⟩
    refine (ih fun z l hz => hopen z l (hz.tail howns)).tail ?_
    exact hasChild_of_owns howns hm (hopen y m (.single howns) hm)

/-- The walk that leaves collections closed comes to all named nodes. -/
theorem isNamed_iff (ht : t.WellFormed) : t.IsNamed x ↔
    ∃ n, (x, n) ∈ t.preorder t.root (fun n => isClosed n.variant) ∧ isValueGene n.variant = true := by
  obtain ⟨r, hr, -⟩ := ht.root_live
  obtain ⟨v, hroot, hv, -⟩ := ht.exists_term hr
  rw [← hroot]
  constructor
  · rintro ⟨⟨n, hn, hvalue⟩, houtside⟩
    have hopen : ∀ y m, Relation.TransGen t.Owns y x → t.get? y = some m → isClosed m.variant = false :=
      fun y m hy hm => isClosed_eq_false_iff.mpr (houtside y m hy hm)
    refine ⟨n, hv.mem_preorder_iff.mpr ⟨hn, ?_, fun y m _ hyx => ?_⟩, isValueGene_iff.mpr hvalue⟩
    · exact hroot ▸ reaches_of_open ht hn hopen
    · exact hopen y m (Relation.TransGen.mono (fun _ _ h => h.owns) _ _ hyx)
  · rintro ⟨n, hvisit, hvalue⟩
    obtain ⟨hn, hreach, hclear⟩ := hv.mem_preorder_iff.mp hvisit
    refine ⟨⟨n, hn, isValueGene_iff.mp hvalue⟩, fun y m hyx hm => ?_⟩
    rw [hroot] at hreach hclear
    obtain ⟨hy, hyx⟩ := hasChild_above ht hreach hyx
    exact isClosed_eq_false_iff.mp (hclear y m hy hyx hm)

/-- A walk that enters less makes fewer of the visits, in the same order. -/
theorem preorder_sublist {v : GeneTerm} (hv : t.Holds v) (exclude : GeneNode → Bool) :
    (t.preorder v.id exclude).Sublist (t.preorder v.id fun _ => false) := by
  induction v using induct with
  | node id content parts ih =>
    rw [hv.preorder_eq, hv.preorder_eq]
    refine List.Sublist.cons_cons _ ?_
    unfold entered
    split
    · exact List.nil_sublist _
    · refine List.Sublist.flatMap_right _ fun p hp => ?_
      have hp := mem_of_mem_valueParts hp
      exact ih p hp (hv.parts.each p hp)

theorem find?_of_sublist {α : Type} {p : α → Bool} {part all : List α} (h : part.Sublist all)
    (hall : all.Nodup) (hp : ∀ a ∈ all, p a = true → a ∈ part) : all.find? p = part.find? p := by
  induction h with
  | slnil => rfl
  | cons a h ih =>
    obtain ⟨hnot, hall⟩ := List.nodup_cons.mp hall
    obtain ⟨ha, hp⟩ := List.forall_mem_cons.mp hp
    have hfalse : p a = false := Bool.eq_false_iff.mpr fun hpa => hnot (h.subset (ha hpa))
    rw [List.find?_cons, hfalse]
    exact ih hall hp
  | cons_cons a h ih =>
    obtain ⟨hnot, hall⟩ := List.nodup_cons.mp hall
    rw [List.find?_cons, List.find?_cons]
    split
    · rfl
    · next hfalse =>
      refine ih hall fun b hb hpb => ?_
      refine List.mem_of_ne_of_mem ?_ (hp b (List.mem_cons_of_mem _ hb) hpb)
      rintro rfl
      rw [hpb] at hfalse
      cases hfalse

end Visits

/-- Does each named node ask for its keys, and no other node for any? -/
structure AsksFor (t : GeneTree) (tokens : List String) (keysOf : NodeId → List String) : Prop where
  named : ∀ x n, t.IsNamed x → t.get? x = some n →
    nodeKeys t tokens x n = .ok (keysOf x) ∧ t.HasKeys tokens x n.name (keysOf x)
  silent : ∀ x, ¬ t.IsNamed x → keysOf x = []

theorem exists_asksFor (ht : t.WellFormed) (tokens : List String) : ∃ keysOf, AsksFor t tokens keysOf := by
  have hkeys : ∀ x, ∃ keys, (∀ n, t.IsNamed x → t.get? x = some n →
      nodeKeys t tokens x n = .ok keys ∧ t.HasKeys tokens x n.name keys) ∧ (¬ t.IsNamed x → keys = []) := by
    intro x
    by_cases hnamed : t.IsNamed x
    · obtain ⟨n, hn, -⟩ := hnamed.value
      obtain ⟨keys, hkeys⟩ := exists_nodeKeys ht tokens hn
      refine ⟨keys, fun m _ hm => ?_, absurd hnamed⟩
      obtain rfl : n = m := Option.some.inj (hn.symm.trans hm)
      exact hkeys
    · exact ⟨[], fun _ h => absurd h hnamed, fun _ => rfl⟩
  choose keysOf hnamed hsilent using hkeys
  exact ⟨keysOf, hnamed, hsilent⟩

namespace AsksFor

variable {keysOf : NodeId → List String}

theorem isNamed (h : AsksFor t tokens keysOf) (hk : k ∈ keysOf x) : t.IsNamed x := by
  by_contra hnot
  rw [h.silent x hnot] at hk
  cases hk

theorem keyTable_eq (h : AsksFor t tokens keysOf) (ht : t.WellFormed) : keyTable t tokens =
    .ok (claimEach [] (claimList keysOf ((t.preorder t.root fun n => isClosed n.variant).map Prod.fst))) := by
  refine claimAll_eq (fun e he hvalue => ?_) (fun e he hvalue => h.silent e.1 fun hnamed => ?_) []
  · exact (h.named e.1 e.2 ((isNamed_iff ht).mpr ⟨e.2, he, hvalue⟩) (get?_of_mem_preorderWithin he)).1
  · obtain ⟨m, hm, hmvalue⟩ := (isNamed_iff ht).mp hnamed
    obtain rfl : e.2 = m := Option.some.inj
      ((get?_of_mem_preorderWithin he).symm.trans (get?_of_mem_preorderWithin hm))
    rw [hmvalue] at hvalue
    cases hvalue

end AsksFor

/-- The table of keys. Each value outside of the collections asks for its keys, and nothing else does; a key
that is asked for is in the table once, for the first node in pre-order that asks for it, and the entries stand
in the order of the nodes and of their keys. -/
theorem keyTable_names_values (ht : t.WellFormed) (tokens : List String) :
    let order := (t.preorder t.root fun _ => false).map Prod.fst
    ∃ (table : List (String × NodeId)) (keysOf : NodeId → List String), keyTable t tokens = .ok table ∧
      (∀ x, t.IsNamed x → x ∈ order ∧ ∃ name, t.name x = .ok name ∧ t.HasKeys tokens x name (keysOf x)) ∧
      (∀ x, ¬ t.IsNamed x → keysOf x = []) ∧
      (∀ e ∈ table, t.IsNamed e.2) ∧
      (table.map Prod.fst).Nodup ∧
      (∀ k x, (k, x) ∈ table ↔ order.find? (fun y => k ∈ keysOf y) = some x) ∧
      (∀ x, t.IsNamed x → ∀ k ∈ keysOf x, ∃ y, (k, y) ∈ table) ∧
      table.Sublist (claimList keysOf order) := by
  intro order
  obtain ⟨keysOf, hasks⟩ := exists_asksFor ht tokens
  obtain ⟨r, hr, -⟩ := ht.root_live
  obtain ⟨v, hroot, hv, -⟩ := ht.exists_term hr
  let visited := (t.preorder t.root fun n => isClosed n.variant).map Prod.fst
  have hreached : ∀ x, t.IsNamed x → x ∈ visited := by
    intro x h
    obtain ⟨n, hn, -⟩ := (isNamed_iff ht).mp h
    exact List.mem_map.mpr ⟨_, hn, rfl⟩
  have hsub : visited.Sublist order := by
    have h := (preorder_sublist hv fun n => isClosed n.variant).map Prod.fst
    rwa [hroot] at h
  have hnodup : order.Nodup := by
    have h := hv.nodup_preorder fun _ => false
    rwa [hroot] at h
  have hfirst := firstCome_claimEach (claimList keysOf visited)
  have hmem : ∀ k x, (k, x) ∈ claimEach [] (claimList keysOf visited) ↔
      order.find? (fun y => k ∈ keysOf y) = some x := by
    intro k x
    -- the nodes that only the full order has ask for nothing
    have hsame : order.find? (fun y => k ∈ keysOf y) = visited.find? fun y => k ∈ keysOf y :=
      find?_of_sublist hsub hnodup fun y _ hy => hreached y (hasks.isNamed (of_decide_eq_true hy))
    rw [hfirst.mem_iff, find?_claims, hsame, Option.map_eq_some_iff]
    constructor
    · rintro ⟨y, hy, he⟩
      cases he
      exact hy
    · exact fun h => ⟨x, h, rfl⟩
  refine ⟨_, keysOf, hasks.keyTable_eq ht, fun x h => ?_, hasks.silent, ?_, hfirst.nodup, hmem,
    fun x h k hk => ?_, hfirst.inOrder.trans (hsub.flatMap _)⟩
  · obtain ⟨n, hn, -⟩ := h.value
    exact ⟨hsub.subset (hreached x h), n.name, exists_name hn, (hasks.named x n h hn).2⟩
  · rintro ⟨k, x⟩ he
    have hk := List.find?_some ((hmem k x).mp he)
    exact hasks.isNamed (of_decide_eq_true hk)
  · have hsome : (order.find? fun y => k ∈ keysOf y).isSome = true :=
      List.find?_isSome.mpr ⟨x, hsub.subset (hreached x h), decide_eq_true hk⟩
    obtain ⟨y, hy⟩ := Option.isSome_iff_exists.mp hsome
    exact ⟨y, (hmem k y).mpr hy⟩

/-- A typed object with an untyped one and an array in it: the member of the array has no key. -/
theorem keyTable_names_values_of_user :
    let user := objectOf "body" "User" [long "id", object "address" [string "name"],
      array "roles" (string "role") 3]
    user.WellFormed ∧
      ∃ table, keyTable user ["users"] = .ok table ∧ (∀ e ∈ table, user.IsNamed e.2) ∧
        table = [("Userid", ⟨1⟩), ("usersid", ⟨1⟩), ("addressname", ⟨3⟩), ("usersname", ⟨3⟩),
          ("roles", ⟨4⟩)] := by
  intro user
  have hbuilt : Built user := by
    refine .objectOf "body" "User" ?_
    simp only [List.forall_mem_cons, List.not_mem_nil, false_implies, implies_true, and_true]
    refine ⟨.long "id", .object "address" ?_, .array "roles" 3 (.string "role")⟩
    rw [List.forall_mem_singleton]
    exact .string "name"
  have heval : keyTable user ["users"] = .ok [("Userid", ⟨1⟩), ("usersid", ⟨1⟩), ("addressname", ⟨3⟩),
      ("usersname", ⟨3⟩), ("roles", ⟨4⟩)] := by decide +kernel
  obtain ⟨table, keysOf, htable, -, -, hnamed, -⟩ := keyTable_names_values hbuilt.wellFormed ["users"]
  exact ⟨hbuilt.wellFormed, table, htable, hnamed, Except.ok.inj (htable.symm.trans heval)⟩

end Matching
end CallEvolution
