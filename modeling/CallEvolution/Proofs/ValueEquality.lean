import CallEvolution.Proofs.Comparison
import CallEvolution.Proofs.TotalReading
import Mathlib.Data.List.Zip

/-! The equality of values is an equivalence. Its two sides can be exchanged, failures included, and what is
found equal holds the same value as a term, so one comparison carries over to the next. -/

namespace CallEvolution

open GeneTerm

theorem Binary.same_comm {F : Format} (x y : Binary F) : x.same y = y.same x := by
  cases x <;> cases y <;> simp only [same, eq_comm, Bool.beq_comm]

section Answers

variable {ε α β : Type} {r s : Except ε α}

theorem toOption_bind (r : Except ε α) (f : α → Except ε β) :
    (r >>= f).toOption = r.toOption.bind fun a => (f a).toOption := by
  cases r <;> rfl

theorem eq_ok_iff_of_toOption (h : r.toOption = s.toOption) (a : α) : r = .ok a ↔ s = .ok a := by
  cases r <;> cases s <;> simp_all [Except.toOption]

theorem exists_error_iff_of_toOption (h : r.toOption = s.toOption) :
    (∃ e, r = .error e) ↔ ∃ e, s = .error e := by
  cases r <;> cases s <;> simp_all [Except.toOption]

end Answers

namespace GeneTree

variable {t u : GeneTree} {g k : Gene} {compare compare' : NodeId → NodeId → Except GeneError Bool}
  {rs : List (NodeId × NodeId)}

namespace Comparison

/-- The comparison of the same nodes from the other side. -/
def swap : Comparison → Comparison
  | decided equal => decided equal
  | pairs nodes => pairs (nodes.map Prod.swap)

/-- The answer, once nodes can be compared. -/
def settle (compare : NodeId → NodeId → Except GeneError Bool) : Comparison → Except GeneError Bool
  | decided equal => .ok equal
  | pairs nodes => allPairs compare nodes

end Comparison

theorem sameValueWithin_succ (t u : GeneTree) (d : Nat) (a b : NodeId) :
    t.sameValueWithin u (d + 1) a b = t.gene a >>= fun g => u.gene b >>= fun k =>
      if g.variant ≠ k.variant then .error (.variantMismatch g.variant k.variant)
      else comparison t u g k >>= Comparison.settle (t.sameValueWithin u d) := by
  have hsettle : ∀ c : Comparison, c.settle (t.sameValueWithin u d) = (match c with
      | .decided equal => pure equal
      | .pairs nodes => allPairs (t.sameValueWithin u d) nodes) := by
    rintro (_ | _) <;> rfl
  rw [sameValueWithin]
  refine congrArg _ (funext fun g => congrArg _ (funext fun k => ?_))
  split
  · rfl
  · exact congrArg _ (funext fun c => (hsettle c).symm)

section Sides

theorem toOption_allPairs_swap
    (h : ∀ r ∈ rs, (compare r.1 r.2).toOption = (compare' r.2 r.1).toOption) :
    (allPairs compare rs).toOption = (allPairs compare' (rs.map Prod.swap)).toOption := by
  induction rs with
  | nil => rfl
  | cons r rs ih =>
    obtain ⟨hr, hrest⟩ := List.forall_mem_cons.mp h
    rw [List.map_cons, allPairs, allPairs, toOption_bind, toOption_bind, hr]
    refine congrArg _ (funext fun equal => ?_)
    cases equal with
    | true => exact ih hrest
    | false => rfl

theorem toOption_settle_swap (h : ∀ x y, (compare x y).toOption = (compare' y x).toOption) (c : Comparison) :
    (c.settle compare).toOption = (c.swap.settle compare').toOption := by
  cases c with
  | decided equal => rfl
  | pairs nodes => exact toOption_allPairs_swap fun r _ => h r.1 r.2

theorem toOption_sameKeys_swap (t u : GeneTree) (rs : List (NodeId × NodeId)) :
    (sameKeys t u rs).toOption = (sameKeys u t (rs.map Prod.swap)).toOption := by
  induction rs with
  | nil => rfl
  | cons r rs ih =>
    obtain ⟨x, y⟩ := r
    rw [List.map_cons, Prod.swap_prod_mk, sameKeys, sameKeys]
    simp only [toOption_bind]
    rw [Option.bind_comm]
    refine congrArg _ (funext fun name => congrArg _ (funext fun name' => ?_))
    by_cases he : name = name'
    · subst he
      simpa using ih
    · rw [if_pos (Ne.symm he), if_pos he]

theorem swap_memberPairs (xs ys : List NodeId) : (memberPairs xs ys).swap = memberPairs ys xs := by
  unfold memberPairs
  split
  · next h => rw [if_pos h.symm, Comparison.swap, List.zip_swap]
  · next h => rw [if_neg (Ne.symm h), Comparison.swap]

theorem toOption_comparison_swap (h : g.variant = k.variant) :
    (comparison u t k g).toOption = (comparison t u g k).toOption.map Comparison.swap := by
  cases Gene.kindred_of_variant h
  case map template xs maxSize template' ys maxSize' =>
    rw [comparison, comparison]
    by_cases hlen : xs.length = ys.length
    · rw [if_neg (not_not.mpr hlen), if_neg (not_not.mpr hlen.symm), toOption_bind, toOption_bind,
        toOption_sameKeys_swap t u, List.zip_swap, Option.map_bind]
      refine congrArg _ (funext fun keys => ?_)
      cases keys with
      | true => exact congrArg (fun nodes => some (Comparison.pairs nodes)) (List.zip_swap xs ys).symm
      | false => rfl
    · rw [if_pos hlen, if_pos (Ne.symm hlen)]
      rfl
  case optional x active y active' =>
    cases active <;> cases active' <;> simp [comparison] <;> rfl
  case object | array | base64 | primaryKey | autoIncrement | cyclePlaceholder | limitPlaceholder =>
    exact congrArg some (swap_memberPairs _ _).symm
  case float | double =>
    rw [comparison, comparison, Binary.same_comm]
    rfl
  all_goals
    rw [comparison, comparison, BEq.comm]
    rfl

/-- Which side is asked makes no difference, apart from what a failure tells. -/
theorem toOption_sameValueWithin_comm (t u : GeneTree) (d : Nat) (a b : NodeId) :
    (t.sameValueWithin u d a b).toOption = (u.sameValueWithin t d b a).toOption := by
  induction d generalizing a b with
  | zero => rfl
  | succ d ih =>
    simp only [sameValueWithin_succ, toOption_bind]
    rw [Option.bind_comm]
    refine congrArg _ (funext fun g => congrArg _ (funext fun k => ?_))
    by_cases hvariant : g.variant = k.variant
    · rw [if_neg (not_not.mpr hvariant), if_neg (not_not.mpr hvariant.symm), toOption_bind, toOption_bind,
        toOption_comparison_swap hvariant, Option.bind_map]
      exact congrArg _ (funext fun c => (toOption_settle_swap (fun x y => (ih y x).symm) c).symm)
    · rw [if_pos hvariant, if_pos (Ne.symm hvariant)]
      rfl

end Sides

section Terms

variable {v s : GeneTerm}

theorem ok_of_allPairs (h : allPairs compare rs = .ok true) : ∀ r ∈ rs, compare r.1 r.2 = .ok true := by
  induction rs with
  | nil => exact List.forall_mem_nil _
  | cons r rs ih =>
    obtain ⟨equal, hr, hrest⟩ := ok_of_bind h
    cases equal with
    | true => exact List.forall_mem_cons.mpr ⟨hr, ih hrest⟩
    | false => cases hrest

/-- What two genes of one variant have in common if they are found equal. -/
theorem carries_of_comparison {c : Comparison} (h : g.variant = k.variant)
    (hc : comparison t u g k = .ok c) (hsettle : c.settle compare = .ok true) :
    g.Carries k ∧ g.children.length = k.children.length ∧
      (g.variant = .map → sameKeys t u (g.children.zip k.children) = .ok true) ∧
      (g.shows = true → allPairs compare (g.children.zip k.children) = .ok true) := by
  cases Gene.kindred_of_variant h
  case map template xs maxSize template' ys maxSize' =>
    by_cases hlen : xs.length = ys.length
    · rw [comparison, if_neg (not_not.mpr hlen)] at hc
      obtain ⟨keys, hkeys, hc⟩ := ok_of_bind hc
      cases keys with
      | true =>
        cases hc
        exact ⟨trivial, hlen, fun _ => hkeys, fun _ => hsettle⟩
      | false =>
        cases hc
        cases hsettle
    · rw [comparison, if_pos hlen] at hc
      cases hc
      cases hsettle
  case optional x active y active' =>
    cases active <;> cases active' <;> cases hc
    · exact ⟨rfl, rfl, (by rintro ⟨⟩), (by rintro ⟨⟩)⟩
    · cases hsettle
    · cases hsettle
    · exact ⟨rfl, rfl, (by rintro ⟨⟩), fun _ => hsettle⟩
  case object | array | base64 | primaryKey | autoIncrement | cyclePlaceholder | limitPlaceholder =>
    obtain rfl : memberPairs _ _ = c := Except.ok.inj hc
    unfold memberPairs at hsettle
    split at hsettle
    · next hlen => exact ⟨trivial, hlen, (by rintro ⟨⟩), fun _ => hsettle⟩
    · cases hsettle
  case float | double =>
    cases hc
    exact ⟨Except.ok.inj hsettle, rfl, (by rintro ⟨⟩), fun _ => rfl⟩
  all_goals
    cases hc
    exact ⟨eq_of_beq (Except.ok.inj hsettle), rfl, (by rintro ⟨⟩), fun _ => rfl⟩

theorem names_of_sameKeys {xs ys : List GeneTerm} (hx : ∀ x ∈ xs, t.Holds x) (hy : ∀ y ∈ ys, u.Holds y)
    (hlen : xs.length = ys.length)
    (h : sameKeys t u ((xs.map GeneTerm.id).zip (ys.map GeneTerm.id)) = .ok true) :
    xs.map (·.content.name) = ys.map (·.content.name) := by
  induction xs generalizing ys with
  | nil => rw [List.length_eq_zero_iff.mp hlen.symm]
  | cons x xs ih =>
    cases ys with
    | nil => cases hlen
    | cons y ys =>
      obtain ⟨hx, hxs⟩ := List.forall_mem_cons.mp hx
      obtain ⟨hy, hys⟩ := List.forall_mem_cons.mp hy
      rw [List.map_cons, List.map_cons, List.zip_cons_cons, sameKeys, exists_name hx.get?_id,
        exists_name hy.get?_id] at h
      change (if x.content.name ≠ y.content.name then Except.ok false else sameKeys t u _) = .ok true at h
      split at h
      · cases h
      · next he =>
        rw [List.map_cons, List.map_cons, not_not.mp he, ih hxs hys (Nat.succ.inj hlen) h]

theorem labels_of_names {parts others : List GeneTerm} (h : g.variant = k.variant)
    (hlen : (valueParts g parts).length = (valueParts k others).length)
    (hnames : g.variant = .map →
      (valueParts g parts).map (·.content.name) = (valueParts k others).map (·.content.name)) :
    labels g parts = labels k others := by
  by_cases hmap : g.variant = .map
  · simpa [labels, hmap, ← h, Function.comp_def] using congrArg (List.map some) (hnames hmap)
  · simp [labels, hmap, ← h, hlen]

/-- Terms that are found equal hold the same value. -/
theorem Holds.coincides_of_sameValueWithin {d : Nat} (hv : t.Holds v) (hs : u.Holds s)
    (h : t.sameValueWithin u d v.id s.id = .ok true) : v.Coincides s := by
  induction v using induct generalizing s d with
  | node id content parts ih =>
    obtain ⟨sid, theirs, others⟩ := s
    cases d with
    | zero => cases h
    | succ d =>
      have hgene : t.gene id = .ok content.gene := gene_of_get? hv.get?_node
      have hgene' : u.gene sid = .ok theirs.gene := gene_of_get? hs.get?_node
      have hchildren := map_id_valueParts hv.shaped
      have hchildren' := map_id_valueParts hs.shaped
      change t.sameValueWithin u (d + 1) id sid = .ok true at h
      rw [sameValueWithin_succ, hgene, hgene'] at h
      change (if content.gene.variant ≠ theirs.gene.variant then _ else _) = _ at h
      split at h
      · cases h
      · next hvariant =>
        have hvariant := not_not.mp hvariant
        obtain ⟨c, hc, hsettle⟩ := ok_of_bind h
        obtain ⟨hvalue, hlen, hkeys, hbelow⟩ := carries_of_comparison hvariant hc hsettle
        rw [← hchildren, ← hchildren'] at hlen hkeys hbelow
        rw [List.length_map, List.length_map] at hlen
        refine .node hvariant hvalue (labels_of_names hvariant hlen fun hmap => ?_) fun hshows r hr => ?_
        · refine names_of_sameKeys (fun x hx => ?_) (fun y hy => ?_) hlen (hkeys hmap)
          · exact hv.parts.each x (mem_of_mem_valueParts hx)
          · exact hs.parts.each y (mem_of_mem_valueParts hy)
        · have hp := mem_of_mem_valueParts (List.of_mem_zip hr).1
          have hq := mem_of_mem_valueParts (List.of_mem_zip hr).2
          refine ih r.1 hp (hv.parts.each r.1 hp) (hs.parts.each r.2 hq) (d := d) ?_
          refine ok_of_allPairs (hbelow hshows) (r.1.id, r.2.id) ?_
          rw [List.zip_map]
          exact List.mem_map_of_mem hr

theorem Holds.sameValue_iff (hv : t.Holds v) (hs : u.Holds s) :
    t.sameValue v.id u s.id = .ok true ↔ v.Coincides s :=
  ⟨hv.coincides_of_sameValueWithin hs, sameValue_of_coincides hv hs⟩

end Terms

end GeneTree

namespace Gene

variable {g k l : Gene}

/-- Is a gene no float? -/
def IsExact (g : Gene) : Prop := g.variant ≠ .float ∧ g.variant ≠ .double

instance (g : Gene) : Decidable g.IsExact := inferInstanceAs (Decidable (_ ∧ _))

theorem carries_refl (h : g.IsExact) : g.Carries g := by
  cases g <;> first | trivial | rfl | exact absurd rfl h.1 | exact absurd rfl h.2

theorem Carries.trans (hg : g.IsExact) (hgk : g.variant = k.variant) (hkl : k.variant = l.variant)
    (h : g.Carries k) (h' : k.Carries l) : g.Carries l := by
  cases kindred_of_variant hgk
  all_goals cases kindred_of_variant hkl
  case float.float => exact absurd rfl hg.1
  case double.double => exact absurd rfl hg.2
  all_goals first | trivial | exact Eq.trans h h'

theorem shows_eq_of_carries (hgk : g.variant = k.variant) (h : g.Carries k) : g.shows = k.shows := by
  cases kindred_of_variant hgk
  case optional => exact h
  all_goals rfl

end Gene

namespace GeneTerm

variable {v s r : GeneTerm}

theorem Coincides.head (h : v.Coincides s) : v.content.gene.variant = s.content.gene.variant ∧
    v.content.gene.Carries s.content.gene := by
  cases h with
  | node hvariant hvalue => exact ⟨hvariant, hvalue⟩

theorem exists_mem_zip_between {α β γ : Type} {xs : List α} {ys : List β} {zs : List γ} {e : α × γ}
    (hlen : xs.length = ys.length) (he : e ∈ xs.zip zs) :
    ∃ y, (e.1, y) ∈ xs.zip ys ∧ (y, e.2) ∈ ys.zip zs := by
  induction xs generalizing ys zs with
  | nil => cases he
  | cons x xs ih =>
    cases ys with
    | nil => cases hlen
    | cons y ys =>
      cases zs with
      | nil => cases he
      | cons z zs =>
        rw [List.zip_cons_cons, List.mem_cons] at he
        rcases he with rfl | he
        · exact ⟨y, List.mem_cons_self, List.mem_cons_self⟩
        · obtain ⟨y', hxy, hyz⟩ := ih (Nat.succ.inj hlen) he
          exact ⟨y', List.mem_cons_of_mem _ hxy, List.mem_cons_of_mem _ hyz⟩

theorem coincides_refl (hv : v.Every fun g _ => g.IsExact) : v.Coincides v := by
  induction v using induct with
  | node id content parts ih =>
    rw [Every] at hv
    refine .node rfl (Gene.carries_refl hv.1) rfl fun _ r hr => ?_
    rw [← List.map_id (valueParts content.gene parts), List.zip_map'] at hr
    obtain ⟨p, hp, rfl⟩ := List.mem_map.mp hr
    have hp := mem_of_mem_valueParts hp
    exact ih p hp (hv.2 p hp)

theorem Coincides.trans (hv : v.Every fun g _ => g.IsExact) (h : v.Coincides s) (h' : s.Coincides r) :
    v.Coincides r := by
  induction h generalizing r with
  | node hvariant hvalue hlabels hbelow ih =>
    rw [Every] at hv
    cases h' with
    | node hvariant' hvalue' hlabels' hbelow' =>
      refine .node (hvariant.trans hvariant') (hvalue.trans hv.1 hvariant hvariant' hvalue')
        (hlabels.trans hlabels') fun hshows e he => ?_
      obtain ⟨y, hy, hy'⟩ := exists_mem_zip_between (length_of_labels hlabels) he
      have hpart := mem_of_mem_valueParts (List.of_mem_zip hy).1
      refine ih hshows _ hy (hv.2 _ hpart) (hbelow' ?_ _ hy')
      rw [← Gene.shows_eq_of_carries hvariant hvalue, hshows]

end GeneTerm
end CallEvolution
