import CallEvolution.Proofs.Refill
import Mathlib.Logic.Relation

/-! Ownership as a relation between ids. A well-formed tree unfolds into one term: owners are unique, so
no node is met twice on the way down. -/

namespace CallEvolution

open GeneTerm

namespace GeneTree

/-- Is a node owned by another one, at a position of what that one owns? -/
def OwnsAt (t : GeneTree) (owner : NodeId) (i : Nat) (id : NodeId) : Prop :=
  ∃ n, t.get? owner = some n ∧ n.gene.owned[i]? = some id

def Owns (t : GeneTree) (owner id : NodeId) : Prop := ∃ i, t.OwnsAt owner i id

/-- Templates are owned like members. -/
structure WellFormed (t : GeneTree) : Prop where
  root_live : ∃ n, t.get? t.root = some n ∧ n.parent = none
  root_unowned : ∀ x, ¬ t.Owns x t.root
  owned_live : ∀ x y, t.Owns x y → t.contains y = true
  reachable : ∀ x, t.contains x = true → Relation.ReflTransGen t.Owns t.root x
  owned_once : ∀ x, t.contains x = true → x ≠ t.root →
    ∃! place : NodeId × Nat, t.OwnsAt place.1 place.2 x
  names_owner : ∀ x y n, t.Owns x y → t.get? y = some n → n.parent = some x
  free_distinct : t.free.Nodup
  free_empty : ∀ x, x ∈ t.free ↔ x.index < t.slots.size ∧ t.get? x = none

variable {t : GeneTree}

theorem exists_map_eq {α β : Type} {f : β → α} {P : β → Prop} {l : List α}
    (h : ∀ x ∈ l, ∃ y, f y = x ∧ P y) : ∃ ys : List β, ys.map f = l ∧ ∀ y ∈ ys, P y := by
  induction l with
  | nil => exact ⟨[], rfl, by simp⟩
  | cons x l ih =>
    obtain ⟨y, hy, hP⟩ := h x (by simp)
    obtain ⟨ys, hys, hall⟩ := ih fun z hz => h z (List.mem_cons_of_mem _ hz)
    exact ⟨y :: ys, by rw [List.map_cons, hy, hys], List.forall_mem_cons.mpr ⟨hP, hall⟩⟩

/-- Ownership in a number of steps. -/
inductive Descends (t : GeneTree) (x : NodeId) : Nat → NodeId → Prop where
  | here : Descends t x 0 x
  | step {k : Nat} {y z : NodeId} : Descends t x k y → t.Owns y z → Descends t x (k + 1) z

theorem contains_of_get? {x : NodeId} {n : GeneNode} (h : t.get? x = some n) : t.contains x = true := by
  rw [contains, h]
  rfl

namespace WellFormed

variable {x y z : NodeId} {j k : Nat}

theorem exact (h : t.WellFormed) : t.FreeExact := ⟨h.free_distinct, h.free_empty⟩

theorem owner_unique (h : t.WellFormed) (hx : t.Owns x z) (hy : t.Owns y z) : x = y := by
  obtain ⟨i, hi⟩ := hx
  obtain ⟨j, hj⟩ := hy
  have hz : z ≠ t.root := by
    rintro rfl
    exact h.root_unowned x ⟨i, hi⟩
  obtain ⟨place, -, hplace⟩ := h.owned_once z (h.owned_live x z ⟨i, hi⟩) hz
  have hxi := hplace (x, i) hi
  have hyj := hplace (y, j) hj
  exact congrArg Prod.fst (hxi.trans hyj.symm)

theorem owned_of_parent (h : t.WellFormed) {n m : GeneNode} (hx : t.get? x = some n)
    (hparent : n.parent = some y) (hy : t.get? y = some m) : x ∈ m.gene.owned := by
  have hne : x ≠ t.root := by
    rintro rfl
    obtain ⟨m, hm, horphan⟩ := h.root_live
    rw [hx, Option.some.injEq] at hm
    rw [← hm, hparent] at horphan
    cases horphan
  obtain ⟨⟨z, i⟩, hz, -⟩ := h.owned_once x (contains_of_get? hx) hne
  have howner := h.names_owner z x n ⟨i, hz⟩ hx
  rw [hparent, Option.some.injEq] at howner
  subst howner
  obtain ⟨k, hk, hi⟩ := hz
  rw [hy, Option.some.injEq] at hk
  exact hk ▸ List.mem_of_getElem? hi

theorem nodup_owned (h : t.WellFormed) {n : GeneNode} (hx : t.get? x = some n) :
    n.gene.owned.Nodup := by
  refine List.nodup_iff_injective_getElem.mpr fun i j he => ?_
  have hi : t.OwnsAt x i n.gene.owned[i] := ⟨n, hx, List.getElem?_eq_getElem i.isLt⟩
  have hj : t.OwnsAt x j n.gene.owned[i] := ⟨n, hx, (List.getElem?_eq_getElem j.isLt).trans (congrArg some he.symm)⟩
  have hne : n.gene.owned[i] ≠ t.root := by
    intro hroot
    rw [hroot] at hi
    exact h.root_unowned x ⟨i, hi⟩
  obtain ⟨place, -, hplace⟩ := h.owned_once _ (h.owned_live x _ ⟨i, hi⟩) hne
  have hij := (hplace (x, i) hi).trans (hplace (x, j) hj).symm
  exact Fin.ext (congrArg Prod.snd hij)

theorem start_unique (h : t.WellFormed) (hx : t.Descends x k z) (hy : t.Descends y k z) : x = y := by
  induction k generalizing z with
  | zero =>
    cases hx
    cases hy
    rfl
  | succ k ih =>
    cases hx with
    | step hx hxz =>
      cases hy with
      | step hy hyz =>
        rw [h.owner_unique hyz hxz] at hy
        exact ih hx hy

/-- Every node lies at one level below the root. -/
theorem level_unique (h : t.WellFormed) (hj : t.Descends t.root j x) (hk : t.Descends t.root k x) :
    j = k := by
  induction j generalizing k x with
  | zero =>
    cases hj
    cases hk with
    | here => rfl
    | step _ ho => exact absurd ho (h.root_unowned _)
  | succ j ih =>
    cases hj with
    | step hj hjx =>
      cases hk with
      | here => exact absurd hjx (h.root_unowned _)
      | step hk hkx =>
        rw [h.owner_unique hkx hjx] at hk
        rw [ih hj hk]

end WellFormed

theorem Descends.trans {x y z : NodeId} {j k : Nat} (hxy : t.Descends x j y)
    (hyz : t.Descends y k z) : t.Descends x (j + k) z := by
  induction hyz with
  | here => exact hxy
  | step _ ho ih => exact ih.step ho

theorem Descends.of_owns {x y : NodeId} (h : t.Owns x y) : t.Descends x 1 y := .step .here h

theorem WellFormed.exists_level (h : t.WellFormed) {x : NodeId} (hx : t.contains x = true) :
    ∃ k, t.Descends t.root k x := by
  induction h.reachable x hx with
  | refl => exact ⟨0, .here⟩
  | @tail y z hreach howns ih =>
    obtain ⟨i, n, hn, hi⟩ := howns
    obtain ⟨k, hk⟩ := ih (contains_of_get? hn)
    exact ⟨k + 1, hk.step ⟨i, n, hn, hi⟩⟩

theorem Descends.of_reaches {x y : NodeId} (h : Relation.ReflTransGen t.Owns x y) :
    ∃ k, t.Descends x k y := by
  induction h with
  | refl => exact ⟨0, .here⟩
  | tail _ ho ih =>
    obtain ⟨k, hk⟩ := ih
    exact ⟨k + 1, hk.step ho⟩

/-- What a node owns does not lie above it. -/
theorem WellFormed.not_reaches_owner (h : t.WellFormed) {x y : NodeId} (hxy : t.Owns x y) :
    ¬ Relation.ReflTransGen t.Owns y x := by
  intro hreach
  obtain ⟨i, n, hn, hi⟩ := hxy
  obtain ⟨k, hk⟩ := h.exists_level (contains_of_get? hn)
  obtain ⟨j, hj⟩ := Descends.of_reaches hreach
  have hlevel := h.level_unique hk ((hk.step ⟨i, n, hn, hi⟩).trans hj)
  omega

/-- The nodes above one of level `k` are `k` others, so there is no deeper level than there are slots. -/
theorem WellFormed.level_lt_size (h : t.WellFormed) {k : Nat} {x : NodeId}
    (hk : t.Descends t.root k x) : k < t.slots.size := by
  have hpath : ∃ path : List NodeId, path.length = k + 1 ∧ path.Nodup ∧
      ∀ y ∈ path, t.contains y = true ∧ ∃ j ≤ k, t.Descends t.root j y := by
    induction hk with
    | here =>
      obtain ⟨n, hn, -⟩ := h.root_live
      refine ⟨[t.root], rfl, List.nodup_singleton _, fun y hy => ?_⟩
      rw [List.mem_singleton.mp hy]
      exact ⟨contains_of_get? hn, 0, le_rfl, .here⟩
    | step hy ho ih =>
      rename_i k y z
      obtain ⟨path, hlen, hnd, hlow⟩ := ih
      have hnot : z ∉ path := by
        intro hz
        obtain ⟨-, j, hj, hzj⟩ := hlow z hz
        have he := h.level_unique hzj (hy.step ho)
        omega
      refine ⟨z :: path, by simp [hlen], List.nodup_cons.mpr ⟨hnot, hnd⟩, fun w hw => ?_⟩
      rcases List.mem_cons.mp hw with rfl | hw
      · exact ⟨h.owned_live y w ho, k + 1, le_rfl, hy.step ho⟩
      · obtain ⟨hlive, j, hj, hwj⟩ := hlow w hw
        exact ⟨hlive, j, by omega, hwj⟩
  obtain ⟨path, hlen, hnd, hlow⟩ := hpath
  have hle := length_le_size hnd fun y hy => Option.isSome_iff_exists.mp (hlow y hy).1
  omega

/-- A node of a level unfolds into a term. -/
theorem WellFormed.exists_holds (h : t.WellFormed) {k : Nat} {x : NodeId} {n : GeneNode}
    (hk : t.Descends t.root k x) (hx : t.get? x = some n) :
    ∃ v : GeneTerm, v.id = x ∧ t.Holds v ∧ ∀ y ∈ v.ids, ∃ j, t.Descends x j y := by
  -- by induction on the number of levels that are left below
  induction hm : t.slots.size - k generalizing k x n with
  | zero =>
    have hlt := h.level_lt_size hk
    omega
  | succ m ih =>
    have hparts : ∃ parts : List GeneTerm, parts.map GeneTerm.id = n.gene.owned ∧
        ∀ p ∈ parts, t.Holds p ∧ ∀ y ∈ p.ids, ∃ j, t.Descends p.id j y := by
      refine exists_map_eq fun y hy => ?_
      obtain ⟨i, hi⟩ := List.getElem?_of_mem hy
      have ho : t.Owns x y := ⟨i, n, hx, hi⟩
      obtain ⟨l, hl⟩ := Option.isSome_iff_exists.mp (h.owned_live x y ho)
      obtain ⟨p, rfl, hp⟩ := ih (hk.step ho) hl (by omega)
      exact ⟨p, rfl, hp⟩
    obtain ⟨parts, howned, hparts⟩ := hparts
    have howns : ∀ p ∈ parts, t.Owns x p.id := by
      intro p hp
      have hmem : p.id ∈ n.gene.owned := howned ▸ List.mem_map_of_mem hp
      obtain ⟨i, hi⟩ := List.getElem?_of_mem hmem
      exact ⟨i, n, hx, hi⟩
    have hlevel : ∀ p ∈ parts, ∀ y ∈ p.ids, ∃ j, t.Descends p.id j y ∧
        t.Descends t.root (k + 1 + j) y := by
      intro p hp y hy
      obtain ⟨j, hj⟩ := (hparts p hp).2 y hy
      exact ⟨j, hj, (hk.step (howns p hp)).trans hj⟩
    -- a node below two parts would lie as deep below each, so they would be one
    have hdisjoint : ∀ p ∈ parts, ∀ q ∈ parts, p.id ≠ q.id → ∀ y ∈ p.ids, y ∉ q.ids := by
      intro p hp q hq hne y hyp hyq
      obtain ⟨i, hi, hi'⟩ := hlevel p hp y hyp
      obtain ⟨j, hj, hj'⟩ := hlevel q hq y hyq
      have hij := h.level_unique hi' hj'
      obtain rfl : i = j := by omega
      exact hne (h.start_unique hi hj)
    have hall : t.HoldsAll parts := by
      refine ⟨fun p hp => (hparts p hp).1, List.nodup_flatMap.mpr ⟨fun p hp => (hparts p hp).1.distinct, ?_⟩⟩
      have hne : parts.Pairwise fun p q => p.id ≠ q.id :=
        List.pairwise_map.mp (howned ▸ h.nodup_owned hx)
      exact hne.imp_of_mem fun hp hq hpq y hyp hyq => hdisjoint _ hp _ hq hpq y hyp hyq
    have hnot : x ∉ allIds parts := by
      intro hmem
      obtain ⟨p, hp, hxp⟩ := mem_allIds.mp hmem
      obtain ⟨j, -, hj⟩ := hlevel p hp x hxp
      have hkj := h.level_unique hk hj
      omega
    refine ⟨.node x n parts, rfl, Holds.node hx hall howned (fun p hp => ?_) hnot, fun y hy => ?_⟩
    · exact h.names_owner x p.id _ (howns p hp) (hparts p hp).1.get?_id
    · rw [ids_node, List.mem_cons, List.mem_flatMap] at hy
      rcases hy with rfl | ⟨p, hp, hy⟩
      · exact ⟨0, .here⟩
      · obtain ⟨j, hj⟩ := (hparts p hp).2 y hy
        exact ⟨1 + j, (Descends.of_owns (howns p hp)).trans hj⟩

theorem Holds.owned_mem {v : GeneTerm} (hv : t.Holds v) {x y : NodeId} (hx : x ∈ v.ids)
    (ho : t.Owns x y) : y ∈ v.ids ∧ ∃ n, t.get? y = some n ∧ n.parent = some x := by
  induction v using induct with
  | node id content parts ih =>
    have hshaped := hv.shaped
    rw [Shaped] at hshaped
    rw [ids_node, List.mem_cons, List.mem_flatMap] at hx ⊢
    rcases hx with rfl | ⟨p, hp, hx⟩
    · obtain ⟨i, n, hn, hi⟩ := ho
      rw [hv.get?_node, Option.some.injEq] at hn
      subst hn
      have hmem := List.mem_of_getElem? hi
      rw [← hshaped.1] at hmem
      obtain ⟨p, hp, rfl⟩ := List.mem_map.mp hmem
      refine ⟨.inr ⟨p, hp, p.id_mem_ids⟩, p.content, ?_, (hshaped.2 p hp).1⟩
      exact (hv.parts.each p hp).get?_id
    · obtain ⟨hy, hn⟩ := ih p hp (hv.parts.each p hp) hx
      exact ⟨.inr ⟨p, hp, hy⟩, hn⟩

theorem Holds.reaches {v : GeneTerm} (hv : t.Holds v) {x : NodeId} (hx : x ∈ v.ids) :
    Relation.ReflTransGen t.Owns v.id x := by
  induction v using induct with
  | node id content parts ih =>
    have hshaped := hv.shaped
    rw [Shaped] at hshaped
    rw [ids_node, List.mem_cons, List.mem_flatMap] at hx
    rcases hx with rfl | ⟨p, hp, hx⟩
    · exact .refl
    · have hmem : p.id ∈ content.gene.owned := hshaped.1 ▸ List.mem_map_of_mem hp
      obtain ⟨i, hi⟩ := List.getElem?_of_mem hmem
      exact .head ⟨i, content, hv.get?_node, hi⟩ (ih p hp (hv.parts.each p hp) hx)

/-- A term consists of all nodes below its head. -/
theorem Holds.mem_of_reaches {v : GeneTerm} (hv : t.Holds v) {x : NodeId}
    (h : Relation.ReflTransGen t.Owns v.id x) : x ∈ v.ids := by
  induction h with
  | refl => exact v.id_mem_ids
  | tail _ ho ih => exact (hv.owned_mem ih ho).1

theorem Holds.nodup_owned {v : GeneTerm} (hv : t.Holds v) {x : NodeId} {n : GeneNode}
    (hx : x ∈ v.ids) (hn : t.get? x = some n) : n.gene.owned.Nodup := by
  obtain ⟨hs, ⟨y, content, parts⟩, rfl, rfl, -⟩ := exists_plug hx
  have hp := hv.of_plug
  have hshaped := hp.shaped
  rw [Shaped] at hshaped
  rw [hp.get?_id, Option.some.injEq] at hn
  rw [← hn]
  change content.gene.owned.Nodup
  rw [← hshaped.1]
  exact hp.parts.nodup_map_id

theorem Unfolds.wellFormed {v : GeneTerm} (hv : t.Unfolds v) : t.WellFormed := by
  have hlive : ∀ {x n}, t.get? x = some n → x ∈ v.ids := fun h => hv.full _ (contains_of_get? h)
  have howned : ∀ {x y}, t.Owns x y → y ∈ v.ids ∧ ∃ n, t.get? y = some n ∧ n.parent = some x := by
    rintro x y ⟨i, n, hn, hi⟩
    exact hv.holds.owned_mem (hlive hn) ⟨i, n, hn, hi⟩
  constructor
  · exact ⟨v.content, hv.root ▸ hv.holds.get?_id, hv.orphan⟩
  · intro x ho
    obtain ⟨-, n, hn, hparent⟩ := howned ho
    rw [← hv.root, hv.holds.get?_id, Option.some.injEq] at hn
    rw [← hn, hv.orphan] at hparent
    cases hparent
  · intro x y ho
    obtain ⟨-, n, hn, -⟩ := howned ho
    exact contains_of_get? hn
  · intro x hx
    rw [← hv.root]
    exact hv.holds.reaches (hv.full x hx)
  · intro x hx hne
    have hreach := hv.holds.reaches (hv.full x hx)
    rw [hv.root] at hreach
    obtain hroot | ⟨y, -, i, hi⟩ := Relation.ReflTransGen.cases_tail hreach
    · exact absurd hroot hne
    -- the owner is the parent of the node, and lists it once
    · refine ⟨(y, i), hi, ?_⟩
      rintro ⟨y', j⟩ hj
      obtain ⟨-, n, hn, hparent⟩ := howned ⟨i, hi⟩
      obtain ⟨-, n', hn', hparent'⟩ := howned ⟨j, hj⟩
      rw [hn, Option.some.injEq] at hn'
      rw [← hn', hparent, Option.some.injEq] at hparent'
      subst hparent'
      obtain ⟨l, hl, hi⟩ := hi
      obtain ⟨l', hl', hj⟩ := hj
      rw [hl, Option.some.injEq] at hl'
      rw [← hl'] at hj
      obtain ⟨hlt, -⟩ := List.getElem?_eq_some_iff.mp hi
      have hnd := hv.holds.nodup_owned (hlive hl) hl
      have hij := (List.getElem?_inj hlt hnd).mp (hi.trans hj.symm)
      rw [hij]
  · intro x y n ho hn
    obtain ⟨-, n', hn', hparent⟩ := howned ho
    rw [hn, Option.some.injEq] at hn'
    rw [hn', hparent]
  · exact hv.exact.distinct
  · exact hv.exact.empty

theorem WellFormed.unfolds (h : t.WellFormed) : ∃ v, t.Unfolds v := by
  obtain ⟨n, hn, horphan⟩ := h.root_live
  obtain ⟨v, hroot, hv, -⟩ := h.exists_holds .here hn
  refine ⟨v, hv, hroot, ?_, fun x hx => ?_, h.exact⟩
  · have hid := hv.get?_id
    rw [hroot, hn, Option.some.injEq] at hid
    rw [← hid, horphan]
  · induction h.reachable x hx with
    | refl => exact hroot ▸ v.id_mem_ids
    | tail _ ho ih =>
      obtain ⟨i, l, hl, hi⟩ := ho
      exact (hv.owned_mem (ih (contains_of_get? hl)) ⟨i, l, hl, hi⟩).1

/-- A tree is well-formed if and only if it consists of one term below its root. -/
theorem wellFormed_iff : t.WellFormed ↔ ∃ v, t.Unfolds v :=
  ⟨WellFormed.unfolds, fun ⟨_, hv⟩ => hv.wellFormed⟩

/-- A node of a well-formed tree heads a term, and a change of that term leaves a well-formed tree. -/
theorem WellFormed.exists_term (h : t.WellFormed) {x : NodeId} {n : GeneNode}
    (hx : t.get? x = some n) :
    ∃ p : GeneTerm, p.id = x ∧ t.Holds p ∧ ∀ u q, Becomes t p u q → u.WellFormed := by
  obtain ⟨v, hv⟩ := h.unfolds
  obtain ⟨hs, p, rfl, hpx, -⟩ := exists_plug (hv.full x (contains_of_get? hx))
  exact ⟨p, hpx, hv.holds.of_plug, fun u q hq => (hv.becomes (hq.plug hv.holds)).wellFormed⟩

end GeneTree
end CallEvolution
