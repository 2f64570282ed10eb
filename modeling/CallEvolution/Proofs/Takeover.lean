import CallEvolution.Proofs.ExactCopies
import CallEvolution.Proofs.Refusals

/-! What a gene that is offered a value leaves of its tree. An offer that is not accepted leaves all of it;
one that is accepted leaves everything but values below the gene. -/

namespace CallEvolution

open GeneTerm GeneTree

/-- A node that may hold another value, or other members, and is the same node in all else. -/
structure GeneNode.Resembles (k n : GeneNode) : Prop where
  name : k.name = n.name
  parent : k.parent = n.parent
  variant : k.variant = n.variant
  bounds : k.gene.blank = n.gene.blank
  owned : n.gene.isCollection = false → k.gene.owned = n.gene.owned
  template : n.gene.isCollection = true → k.gene.owned.head? = n.gene.owned.head?

theorem Gene.head?_owned_of_blank {g k : Gene} (h : g.blank = k.blank) (hk : k.isCollection = true) :
    g.owned.head? = k.owned.head? := by
  have hg : g.isCollection = true := by rw [← isCollection_blank, h, isCollection_blank, hk]
  have htake : g.owned.take 1 = k.owned.take 1 := by
    rw [← owned_blank_collection hg, h, owned_blank_collection hk]
  simpa [List.head?_take] using congrArg List.head? htake

theorem GeneNode.resembles_of_blank {k n : GeneNode} (h : k.blank = n.blank) : k.Resembles n := by
  have hgene : k.gene.blank = n.gene.blank := congrArg GeneNode.gene h
  exact ⟨congrArg (·.name) h, congrArg (·.parent) h,
    by rw [GeneNode.variant, GeneNode.variant, ← Gene.variant_blank, hgene, Gene.variant_blank], hgene,
    Gene.owned_eq_of_blank_eq hgene, Gene.head?_owned_of_blank hgene⟩

namespace GeneTree

variable {t u : GeneTree} {v w : GeneTerm} {id x : NodeId}

/-- A tree `t` has become `u` by values that were written at a node or below it. -/
structure RewrittenAt (t : GeneTree) (id : NodeId) (u : GeneTree) : Prop where
  wellFormed : u.WellFormed
  root : u.root = t.root
  outside : ∀ x n, t.get? x = some n → ¬ Relation.ReflTransGen t.Owns id x → u.get? x = some n
  /-- Nodes come below the gene only. -/
  added : ∀ x, u.contains x = true → t.contains x = false → Relation.ReflTransGen u.Owns id x
  inside : ∀ x n, t.get? x = some n → Relation.ReflTransGen t.Owns id x → ¬ t.InMember id x →
    ∃ k, u.get? x = some k ∧ k.Resembles n

/-- A node that comes with a term that is refilled stands in what the term has become. -/
theorem Refills.reaches_added (h : Refills t v u w) (hv : t.Holds v) (hx : u.contains x = true)
    (hnew : t.contains x = false) : Relation.ReflTransGen u.Owns v.id x := by
  have hout : x ∉ v.footprint := by
    intro hmem
    obtain ⟨n, -, hn⟩ := hv.get?_of_mem hmem
    simp [contains, hn] at hnew
  have hin : x ∈ w.footprint := by
    refine by_contra fun hnot => ?_
    rw [contains, h.frame.same x hout hnot] at hx
    exact absurd hx (by simpa [contains] using hnew)
  exact h.same_id ▸ h.holds.reaches hin

theorem Refills.rewrittenAt (h : Refills t v u w) (hv : t.Holds v) (hu : u.WellFormed) :
    t.RewrittenAt v.id u where
  wellFormed := hu
  root := h.frame.root
  outside _ _ hx hout := h.get?_outside hv hx hout
  added _ hx hnew := h.reaches_added hv hx hnew
  inside _ _ hx hin hmember :=
    let ⟨k, hk, hblank⟩ := h.exists_inside hv hx hin hmember
    ⟨k, hk, GeneNode.resembles_of_blank hblank⟩

end GeneTree

namespace Edit

variable {t src : GeneTree} {id srcId : NodeId}

/-- A gene that is offered a value answers. Unless the answer is that it has taken the value over, the tree
is what it was; if it is, values have changed at the gene and below it, and in members of its collections
anything may have, but no other node has changed, and none has changed in anything else. -/
theorem adopt_rewrites_or_leaves (ht : t.WellFormed) (hsrc : src.WellFormed) (hid : t.contains id = true)
    (hsrcId : src.contains srcId = true) :
    ∃ r u, (adopt id src srcId).run.run t = .ok (r, u) ∧ (r ≠ .ok true → u = t) ∧
      (r = .ok true → t.RewrittenAt id u) := by
  obtain ⟨n, hn⟩ := Option.isSome_iff_exists.mp hid
  obtain ⟨m, hm⟩ := Option.isSome_iff_exists.mp hsrcId
  obtain ⟨v, rfl, hv, hkeep⟩ := ht.exists_term hn
  obtain ⟨s, rfl, hs, -⟩ := hsrc.exists_term hm
  obtain ⟨⟨⟨r, u⟩, hrun⟩, hall⟩ := (answers_adopt ht.exact hv hs).and (keeps_adopt ht.exact hv hs)
  obtain ⟨⟨-, hleft⟩, w, hw⟩ := hall r u hrun
  exact ⟨r, u, hrun, hleft, fun _ => hw.rewrittenAt hv (hkeep u w hw.becomes)⟩

/-- An age that is not set takes over one that is written, and is set then. The name beside it stays. -/
theorem adopt_rewrites_or_leaves_of_age :
    ∃ u, (adopt ⟨1⟩ (stringWith "age" "42") ⟨0⟩).run.run
        (object "user" [optional "age" (integerIn "age" 0 99) false, string "name"]) = .ok (.ok true, u) ∧
      u.printable u.root = .ok "\x7b\"age\":42,\"name\":\"\"\x7d" ∧
      (object "user" [optional "age" (integerIn "age" 0 99) false, string "name"]).RewrittenAt ⟨1⟩ u := by
  have hadopt : ((adopt ⟨1⟩ (stringWith "age" "42") ⟨0⟩).run.run
      (object "user" [optional "age" (integerIn "age" 0 99) false, string "name"])).map
        (fun r => (r.1, r.2.printable r.2.root)) =
      .ok (.ok true, .ok "\x7b\"age\":42,\"name\":\"\"\x7d") := by decide +kernel
  have hlive : (object "user" [optional "age" (integerIn "age" 0 99) false, string "name"]).contains ⟨1⟩ =
      true := by decide +kernel
  have hroot : (stringWith "age" "42").contains ⟨0⟩ = true := rfl
  have huser : Built (object "user" [optional "age" (integerIn "age" 0 99) false, string "name"]) := by
    refine .object "user" ?_
    simp only [List.forall_mem_cons, List.not_mem_nil, false_imp_iff, implies_true, and_true]
    exact ⟨.optional "age" false (.integerIn "age" 0 99), .string "name"⟩
  obtain ⟨r, u, hrun, -, hrewritten⟩ := adopt_rewrites_or_leaves huser.wellFormed
    (Built.stringWith "age" "42").wellFormed hlive hroot
  rw [hrun] at hadopt
  obtain ⟨rfl, hprinted⟩ := Prod.mk.inj (Except.ok.inj hadopt)
  exact ⟨u, hrun, hprinted, hrewritten rfl⟩

end Edit
end CallEvolution
