import CallEvolution.Proofs.Mould
import CallEvolution.Proofs.Overlay

/-! The core of a term, which holds its value: what is left below optionals and primary keys. It depends
on the mould only, and terms of one value have cores of one value. -/

namespace CallEvolution

open GeneTerm

namespace Gene

/-- Does the gene stand for the one below it? -/
def isWrapper : Gene → Bool
  | optional .. | primaryKey .. => true
  | _ => false

theorem isWrapper_eq_false_iff {g : Gene} :
    g.isWrapper = false ↔ g.variant ≠ .optional ∧ g.variant ≠ .primaryKey := by
  cases g <;> simp [isWrapper, variant]

theorem isWrapper_blank (g : Gene) : g.blank.isWrapper = g.isWrapper := by
  cases g <;> rfl

theorem isWrapper_rename (f : NodeId → NodeId) (g : Gene) : (g.rename f).isWrapper = g.isWrapper := by
  cases g <;> rfl

theorem not_isCollection_of_isWrapper {g : Gene} (h : g.isWrapper = true) :
    g.isCollection = false := by
  cases g <;> first | rfl | cases h

theorem eq_object_of_variant {g : Gene} (h : g.variant = .object) : ∃ fields type, g = .object fields type := by
  cases g
  case object fields type => exact ⟨fields, type, rfl⟩
  all_goals cases h

theorem exists_owned_of_isWrapper {g : Gene} (h : g.isWrapper = true) : ∃ x, g.owned = [x] := by
  cases g <;> first | exact ⟨_, rfl⟩ | cases h

end Gene

namespace GeneTerm

def core : GeneTerm → GeneTerm
  | node id content parts =>
    if content.gene.isWrapper then (parts.map core).headD (node id content parts)
    else node id content parts

variable {v w : GeneTerm} {id id' : NodeId} {content content' : GeneNode}
  {parts parts' : List GeneTerm}

theorem core_wrapper (h : content.gene.isWrapper = true) (p : GeneTerm) :
    (node id content [p]).core = p.core := by
  simp [core, h]

theorem core_self (h : content.gene.isWrapper = false) :
    (node id content parts).core = node id content parts := by
  simp [core, h]

theorem Shaped.exists_part (h : (node id content parts).Shaped)
    (hw : content.gene.isWrapper = true) : ∃ p, parts = [p] := by
  obtain ⟨x, hx⟩ := Gene.exists_owned_of_isWrapper hw
  have hlen := h.length_parts
  rw [hx] at hlen
  exact List.length_eq_one_iff.mp hlen

/-- The core is a part outside of all collections. -/
theorem exists_plug_core (h : v.Shaped) :
    ∃ hs, v = GeneTree.plug hs v.core ∧ ∀ h ∈ hs, h.content.gene.isCollection = false := by
  induction v using induct with
  | node id content parts ih =>
    by_cases hw : content.gene.isWrapper = true
    · obtain ⟨p, rfl⟩ := h.exists_part hw
      obtain ⟨hs, hp, hplain⟩ := ih p (by simp) (h.part (by simp))
      refine ⟨⟨id, content, [], []⟩ :: hs, ?_, ?_⟩
      · rw [core_wrapper hw, GeneTree.plug, ← hp]
        rfl
      · exact List.forall_mem_cons.mpr ⟨Gene.not_isCollection_of_isWrapper hw, hplain⟩
    · rw [Bool.not_eq_true] at hw
      exact ⟨[], by rw [core_self hw, GeneTree.plug], List.forall_mem_nil _⟩

theorem core_mem_fixed (h : v.Shaped) : v.core.id ∈ v.fixed := by
  induction v using induct with
  | node id content parts ih =>
    by_cases hw : content.gene.isWrapper = true
    · obtain ⟨p, rfl⟩ := h.exists_part hw
      have hp := ih p (by simp) (h.part (by simp))
      rw [core_wrapper hw, fixed, if_neg (by simp [Gene.not_isCollection_of_isWrapper hw])]
      simp [hp]
    · rw [Bool.not_eq_true] at hw
      rw [core_self hw, fixed]
      exact List.mem_cons_self

theorem core_mould (hv : v.Shaped) (hw : w.Shaped) (h : v.mould = w.mould) :
    v.core.mould = w.core.mould := by
  induction v using induct generalizing w with
  | node id content parts ih =>
    obtain ⟨id', content', parts'⟩ := w
    obtain ⟨rfl, hblank, -, hparts⟩ := alikeNodes hv hw h
    have hgene : content.gene.blank = content'.gene.blank := congrArg GeneNode.gene hblank
    have hsame : content'.gene.isWrapper = content.gene.isWrapper := by
      rw [← Gene.isWrapper_blank, ← hgene, Gene.isWrapper_blank]
    by_cases hwrap : content.gene.isWrapper = true
    · obtain ⟨p, rfl⟩ := hv.exists_part hwrap
      obtain ⟨q, rfl⟩ := hw.exists_part (hsame.trans hwrap)
      have hpq := hparts (Gene.not_isCollection_of_isWrapper hwrap)
      rw [core_wrapper hwrap, core_wrapper (hsame.trans hwrap)]
      exact ih p (by simp) (hv.part (by simp)) (hw.part (by simp)) (List.forall₂_cons.mp hpq).1
    · rw [Bool.not_eq_true] at hwrap
      rw [core_self hwrap, core_self (hsame.trans hwrap), h]

theorem core_erase (hv : v.Shaped) (hw : w.Shaped) (h : v.erase = w.erase) :
    v.core.erase = w.core.erase := by
  induction v using induct generalizing w with
  | node id content parts ih =>
    obtain ⟨id', content', parts'⟩ := w
    have hnode := h
    rw [erase_node, erase_node, node.injEq] at hnode
    obtain ⟨-, hcontent, hparts⟩ := hnode
    have hgene := congrArg GeneNode.gene hcontent
    have hsame : content'.gene.isWrapper = content.gene.isWrapper := by
      have hrename := congrArg Gene.isWrapper hgene
      change (content.gene.rename _).isWrapper = (content'.gene.rename _).isWrapper at hrename
      rw [Gene.isWrapper_rename, Gene.isWrapper_rename] at hrename
      exact hrename.symm
    by_cases hwrap : content.gene.isWrapper = true
    · obtain ⟨p, rfl⟩ := hv.exists_part hwrap
      obtain ⟨q, rfl⟩ := hw.exists_part (hsame.trans hwrap)
      rw [core_wrapper hwrap, core_wrapper (hsame.trans hwrap)]
      rw [List.map_singleton, List.map_singleton, List.singleton_inj] at hparts
      exact ih p (by simp) (hv.part (by simp)) (hw.part (by simp)) hparts
    · rw [Bool.not_eq_true] at hwrap
      rw [core_self hwrap, core_self (hsame.trans hwrap), h]

end GeneTerm

namespace GeneTree

variable {t : GeneTree} {v : GeneTerm}

theorem Holds.coreNodeWithin (hv : t.Holds v) {d : Nat} (hd : v.height ≤ d) :
    t.coreNodeWithin d v.id = .ok v.core.id := by
  induction v using induct generalizing d with
  | node id content parts ih =>
    cases d with
    | zero => simp [height] at hd
    | succ d =>
      obtain ⟨name, gene, parent⟩ := content
      have hgene : t.gene id = .ok gene := gene_of_get? hv.get?_node
      have hshaped := hv.shaped
      change t.coreNodeWithin (d + 1) id = _
      rw [GeneTree.coreNodeWithin, hgene]
      by_cases hw : gene.isWrapper = true
      · obtain ⟨p, rfl⟩ := hshaped.exists_part hw
        rw [Shaped] at hshaped
        have hp := ih p (by simp) (hv.parts.each p (by simp)) (d := d) (by
          simp only [height, List.map_cons, List.foldr_cons] at hd
          omega)
        rw [core_wrapper hw, ← hp]
        cases gene
        case optional | primaryKey =>
          obtain ⟨rfl, -⟩ := List.cons.inj hshaped.1
          rfl
        all_goals cases hw
      · rw [Bool.not_eq_true] at hw
        rw [core_self hw]
        cases gene
        case optional | primaryKey => cases hw
        all_goals rfl

/-- The node that holds the value is found. -/
theorem Holds.core (hv : t.Holds v) : t.Holds v.core := by
  obtain ⟨hs, he, -⟩ := exists_plug_core hv.shaped
  rw [he] at hv
  exact hv.of_plug

theorem Holds.coreNode (hv : t.Holds v) : t.coreNode v.id = .ok v.core.id :=
  hv.coreNodeWithin hv.height_le_depthBound

theorem coreNode_of_gene {x : NodeId} {g : Gene} (hg : t.gene x = .ok g) (hw : g.isWrapper = false) :
    t.coreNode x = .ok x := by
  rw [GeneTree.coreNode, depthBound, GeneTree.coreNodeWithin, hg]
  cases g
  case optional | primaryKey => cases hw
  all_goals rfl

end GeneTree
end CallEvolution
