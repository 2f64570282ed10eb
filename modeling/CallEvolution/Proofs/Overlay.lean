import CallEvolution.Gene.Copy
import CallEvolution.Proofs.Members

/-! Values of terms. Terms that differ by their ids only have the same value, and a value can be laid over a
term of the same kind. -/

namespace CallEvolution

open GeneTerm

namespace GeneTerm

/-- The value of a term: what is left of it without its ids. -/
def erase (v : GeneTerm) : GeneTerm := v.rename fun _ => ⟨0⟩

theorem erase_node (id : NodeId) (content : GeneNode) (parts : List GeneTerm) :
    (node id content parts).erase = node ⟨0⟩ (content.rename fun _ => ⟨0⟩) (parts.map erase) := by
  rw [erase, rename]
  rfl

theorem erase_rename (f : NodeId → NodeId) (v : GeneTerm) : (v.rename f).erase = v.erase :=
  rename_rename f _ v

/-- Whom a term belongs to is no part of its value. -/
theorem erase_withParent {v : GeneTerm} {p q : NodeId} (h : v.content.parent = some p) :
    (v.withParent (some q)).erase = v.erase := by
  obtain ⟨id, ⟨name, gene, parent⟩, parts⟩ := v
  cases h
  rw [withParent, erase_node, erase_node]
  rfl

mutual

/-- A term with the value of another one. Collections take over the members. -/
def overlay : GeneTerm → GeneTerm → GeneTerm
  | node id content parts, node _ source others =>
    if content.gene.isCollection then
      node id { content with gene := content.gene.withMembers ((others.drop 1).map GeneTerm.id) }
        (parts.take 1 ++ others.drop 1)
    else
      node id { content with gene := GeneTree.takeValue content.gene source.gene }
        (overlayAll parts others)

def overlayAll : List GeneTerm → List GeneTerm → List GeneTerm
  | v :: vs, w :: ws => overlay v w :: overlayAll vs ws
  | vs, _ => vs

end

end GeneTerm

theorem Gene.rename_withMembers {xs ys : List NodeId} (h : xs.length = ys.length) (g : Gene) :
    (g.withMembers xs).rename (fun _ => ⟨0⟩) = (g.withMembers ys).rename fun _ => ⟨0⟩ := by
  cases g <;> simp [Gene.withMembers, Gene.rename, h]

theorem GeneTree.blank_takeValue (mine theirs : Gene) :
    (takeValue mine theirs).blank = mine.blank := by
  unfold takeValue
  split
  case h_8 =>
    split
    · rfl
    · rfl
  all_goals rfl

theorem GeneTree.takeValue_collection {mine : Gene} (hc : mine.isCollection = true) (theirs : Gene) :
    takeValue mine theirs = mine := by
  cases mine
  case array | map => rfl
  all_goals cases hc

end CallEvolution
