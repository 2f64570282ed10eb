import CallEvolution.Proofs.Conditions
import CallEvolution.Proofs.LastingRuns

/-! Values stay in their domains. The arena is looked at node by node, and agrees with the condition on
terms that lasts. -/

namespace CallEvolution

open GeneTerm GeneTree

namespace GeneTree

/-- Do all values lie in their domains, and are the keys of every map distinct? Templates and the parts of
inactive optionals are nodes like any other. -/
structure InDomain (t : GeneTree) : Prop where
  genes : ∀ id g, t.gene id = .ok g → g.InDomain
  keys : ∀ id template entries maxSize, t.gene id = .ok (.map template entries maxSize) →
    (entries.map t.name).Nodup

variable {t : GeneTree} {v : GeneTerm} {vs parts : List GeneTerm} {id : NodeId} {content : GeneNode}

theorem HoldsAll.map_name (h : t.HoldsAll vs) :
    (vs.map GeneTerm.id).map t.name = vs.map fun v => .ok v.content.name := by
  rw [List.map_map]
  refine List.map_congr_left fun v hv => ?_
  rw [Function.comp_apply, name, node_of_get? (h.each v hv).get?_id]
  rfl

/-- The keys of a map are the names of the parts behind the template. -/
theorem Holds.nodup_keys_iff (h : t.Holds (.node id content parts)) {template : NodeId}
    {entries : List NodeId} {maxSize : Nat} (hg : content.gene = .map template entries maxSize) :
    (entries.map t.name).Nodup ↔ ((parts.drop 1).map (·.content.name)).Nodup := by
  have hshaped := h.shaped
  rw [Shaped] at hshaped
  have hentries : entries = (parts.drop 1).map GeneTerm.id := by
    rw [List.map_drop, hshaped.1, hg]
    rfl
  have hinj : Function.Injective (Except.ok : String → Except GeneError String) := fun _ _ => Except.ok.inj
  have hnames := h.parts.map_name
  rw [List.map_map] at hnames
  rw [hentries, List.map_map, List.map_drop, hnames, ← List.map_drop, ← List.nodup_map_iff hinj,
    List.map_map]
  rfl

theorem InDomain.every (ht : t.InDomain) (hv : t.Holds v) : v.Every DomainAt := by
  induction v using GeneTerm.induct with
  | node id content parts ih =>
    rw [Every]
    have hgene := gene_of_get? hv.get?_node
    refine ⟨⟨ht.genes id _ hgene, fun hmap => ?_⟩, fun p hp => ih p hp (hv.parts.each p hp)⟩
    cases hg : content.gene
    case map template entries maxSize =>
      rw [← hv.nodup_keys_iff hg]
      exact ht.keys id _ _ _ (hg ▸ hgene)
    all_goals
      rw [hg] at hmap
      cases hmap

/-- A condition on the term of a tree holds at every node of the tree. -/
theorem Unfolds.every_at {P : Gene → List GeneTerm → Prop} (hv : t.Unfolds v) (h : v.Every P) {g : Gene}
    (hg : t.gene id = .ok g) :
    ∃ content parts, t.Holds (.node id content parts) ∧ content.gene = g ∧
      (GeneTerm.node id content parts).Every P := by
  obtain ⟨n, hn, rfl⟩ := live_of_gene hg
  obtain ⟨hs, ⟨pid, content, parts⟩, rfl, rfl, -⟩ := exists_plug (hv.full id (contains_of_get? hn))
  have hp := hv.holds.of_plug
  have heq := (gene_of_get? hp.get?_node).symm.trans hg
  exact ⟨content, parts, hp, Except.ok.inj heq, h.of_plug⟩

/-- All values of a tree lie in their domains if and only if those of its term do. -/
theorem Unfolds.inDomain_iff (hv : t.Unfolds v) : t.InDomain ↔ v.Every DomainAt := by
  refine ⟨fun ht => ht.every hv.holds, fun h => ⟨fun id g hg => ?_, fun id template entries maxSize hg => ?_⟩⟩
  · obtain ⟨content, parts, -, rfl, hnode⟩ := hv.every_at h hg
    rw [Every] at hnode
    exact hnode.1.1
  · obtain ⟨content, parts, hp, hgene, hnode⟩ := hv.every_at h hg
    rw [Every] at hnode
    refine (hp.nodup_keys_iff hgene).mpr (hnode.1.2 ?_)
    rw [hgene]
    rfl

theorem begins_domainAt : Begins DomainAt where
  leaf hdomain _ := ⟨hdomain, fun _ => List.nodup_nil⟩
  inner hdomain _ hc := ⟨hdomain, fun hmap => absurd hmap (Gene.variant_ne_map hc)⟩
  collection hdomain _ := ⟨hdomain, fun _ => List.nodup_nil⟩

theorem Built.inDomain (h : Built t) : t.InDomain := by
  obtain ⟨v, hv, hdomain⟩ := h.isMade lasts_domainAt begins_domainAt
  exact hv.inDomain_iff.mpr hdomain

end GeneTree

namespace TreeCall

/-- Does a call put no leaf in place by hand, and take values over from well-formed trees only that have
theirs in the domains? -/
def DrawsInDomain : TreeCall → Prop
  | copyFrom _ src _ | adopt _ src _ => src.WellFormed ∧ src.InDomain
  | setLeaf .. => False
  | _ => True

theorem DrawsInDomain.upholds {call : TreeCall} (h : call.DrawsInDomain) (t : GeneTree) :
    call.Upholds DomainAt t := by
  cases call with
  | copyFrom id src srcId | adopt id src srcId =>
    refine ⟨h.1, fun v s _ _ hv hs => ?_⟩
    have hdomain := h.2.every hs
    exact ⟨accepts_domainAt hv.shaped hs.shaped hdomain,
      accepts_domainAt hv.core.shaped hs.shaped hdomain⟩
  | setLeaf id g => exact h
  | randomize id forceNew | mutate c steering id | setActive id on => trivial

variable {γ : Type} [RandomSource γ]

/-- No run of calls that draw values, change or take them over leaves a domain, whatever is drawn and
whichever of the calls fail. -/
theorem values_stay_in_domain {calls : List TreeCall} {t u : GeneTree} {s s' : γ} (ht : t.WellFormed)
    (hdomain : t.InDomain) (hcalls : ∀ call ∈ calls, call.DrawsInDomain)
    (h : leaveAll calls t s = .ok (u, s')) : u.InDomain := by
  obtain ⟨v, hv⟩ := ht.unfolds
  have hsustains : t.Sustains DomainAt v := ⟨v, hv, rfl, rfl, hv.inDomain_iff.mp hdomain⟩
  obtain ⟨w, hw, -, -, hevery⟩ := sustains_of_leaveAll lasts_domainAt hsustains
    (fun call hcall t _ => (hcalls call hcall).upholds t) ⟨s, s', h⟩
  exact hw.inDomain_iff.mpr hevery

/-- A map gets two entries and then a third one, and a text takes over a number. -/
theorem values_stay_in_domain_of_object :
    ∃ (u : GeneTree) (s : WordSource), leaveAll
      [.randomize ⟨0⟩ true, .mutate {} .uniform ⟨1⟩, .adopt ⟨3⟩ (integerIn "n" 123 200) ⟨0⟩]
      (object "o" [map "m" (integerIn "v" 0 9) 3, stringIn "s" 1 4]) ⟨[], 8⟩ = .ok (u, s) ∧
      u.size = 7 ∧ u.gene ⟨3⟩ = .ok (.string "123" 1 4) ∧ u.InDomain := by
  have hrun : (leaveAll
      [.randomize ⟨0⟩ true, .mutate {} .uniform ⟨1⟩, .adopt ⟨3⟩ (integerIn "n" 123 200) ⟨0⟩]
      (object "o" [map "m" (integerIn "v" 0 9) 3, stringIn "s" 1 4]) (⟨[], 8⟩ : WordSource)).map
      (fun r => (r.1.size, r.1.gene ⟨3⟩)) = .ok (7, .ok (.string "123" 1 4)) := by decide +kernel
  obtain ⟨⟨u, s⟩, hleave, hu⟩ := ok_of_map hrun
  obtain ⟨hsize, htext⟩ := Prod.mk.inj hu
  have hbuilt : Built (object "o" [map "m" (integerIn "v" 0 9) 3, stringIn "s" 1 4]) := by
    refine .object "o" ?_
    simp only [List.forall_mem_cons, List.not_mem_nil, false_implies, implies_true, and_true]
    exact ⟨.map "m" 3 (.integerIn "v" 0 9), .stringIn "s" 1 4⟩
  have hsource : Built (integerIn "n" 123 200) := .integerIn "n" 123 200
  refine ⟨u, s, hleave, hsize, htext, values_stay_in_domain hbuilt.wellFormed hbuilt.inDomain ?_ hleave⟩
  simp only [List.forall_mem_cons, List.not_mem_nil, false_implies, implies_true, and_true]
  exact ⟨trivial, trivial, hsource.wellFormed, hsource.inDomain⟩

end TreeCall
end CallEvolution
