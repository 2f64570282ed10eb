import CallEvolution.Proofs.Copying
import CallEvolution.Proofs.Readings

/-! Copies to terms of one mould from terms of one value agree: both are refused, or both leave the same
value. -/

namespace CallEvolution

open GeneTerm

namespace Gene

theorem variant_blank (g : Gene) : g.blank.variant = g.variant := by
  cases g <;> rfl

theorem withMembers_blank {g : Gene} (h : g.isCollection = true) (xs : List NodeId) :
    g.blank.withMembers xs = g.withMembers xs := by
  cases g <;> first | rfl | cases h

end Gene

theorem GeneNode.variant_of_blank_eq {n m : GeneNode} (h : n.blank = m.blank) : n.variant = m.variant := by
  have hgene : n.gene.blank = m.gene.blank := congrArg GeneNode.gene h
  rw [variant, variant, ← Gene.variant_blank, hgene, Gene.variant_blank]

namespace GeneTree

variable {t u src other : GeneTree} {v w s r : GeneTerm}

theorem checkPairs_map (check : NodeId → NodeId → Except GeneError Unit) (f : NodeId → NodeId)
    (pairs : List (NodeId × NodeId)) :
    checkPairs check (pairs.map fun r => (r.1, f r.2)) = checkPairs (fun x y => check x (f y)) pairs := by
  induction pairs with
  | nil => rfl
  | cons r pairs ih => rw [List.map_cons, checkPairs, checkPairs, ih]

/-- The value that a gene has does not matter when it is to take over another one. -/
theorem assessGenes_blank (check : NodeId → NodeId → Except GeneError Unit) (name : String)
    (mine theirs : Gene) :
    assessGenes check name mine.blank theirs = assessGenes check name mine theirs := by
  cases mine
  case object | array | map | choice | optional | integer | long | float | double | string =>
    cases theirs <;> rfl
  all_goals rfl

theorem assessGenes_rename (check : NodeId → NodeId → Except GeneError Unit) (name : String)
    (f : NodeId → NodeId) (mine theirs : Gene) :
    assessGenes check name mine (theirs.rename f) =
      assessGenes (fun x y => check x (f y)) name mine theirs := by
  have hmembers : ∀ template maxSize members,
      checkMembers check name template maxSize (members.map f) =
        checkMembers (fun x y => check x (f y)) name template maxSize members := by
    intro template maxSize members
    have hmap := checkPairs_map check f (members.map (template, ·))
    rw [List.map_map] at hmap
    rw [checkMembers, checkMembers, List.length_map, List.map_map, ← hmap]
    rfl
  cases mine
  case object fields refType =>
    cases theirs
    case object others refType' =>
      have hmap := checkPairs_map check f (fields.zip others)
      simp only [assessGenes, Gene.rename, List.length_map, List.zip_map_right]
      rw [← hmap]
      rfl
    all_goals rfl
  case array | map =>
    cases theirs
    case array | map => first | exact hmembers _ _ _ | rfl
    all_goals rfl
  case optional | primaryKey | base64 | choice | integer | long | float | double | string =>
    cases theirs <;> rfl
  all_goals rfl

/-- Terms of one mould can take over terms of one value alike. -/
theorem assessCopyWithin_eq {d e : Nat} (hv : t.Holds v) (hw : u.Holds w) (hs : src.Holds s)
    (hr : other.Holds r) (hmould : v.mould = w.mould) (herase : s.erase = r.erase)
    (hd : v.height ≤ d) (he : w.height ≤ e) :
    t.assessCopyWithin src d v.id s.id = u.assessCopyWithin other e w.id r.id := by
  induction v using induct generalizing w s r d e with
  | node id content parts ih =>
    obtain ⟨id', content', parts'⟩ := w
    obtain ⟨sid, theirs, others⟩ := s
    obtain ⟨rid, theirs', others'⟩ := r
    cases d with
    | zero => simp [height] at hd
    | succ d =>
      cases e with
      | zero => simp [height] at he
      | succ e =>
        have hshaped := hv.shaped
        have hshaped' := hw.shaped
        have halike := alikeNodes hshaped hshaped' hmould
        obtain ⟨f, -, hgene, hbelow⟩ := hs.exists_renaming hr herase
        have hmine : content.gene.blank = content'.gene.blank := congrArg GeneNode.gene halike.blank
        have hname : content.blank.name = content'.blank.name := congrArg GeneNode.name halike.blank
        change content.name = content'.name at hname
        have hvariant : content.variant = content'.variant := by
          rw [GeneNode.variant, GeneNode.variant, ← Gene.variant_blank, hmine, Gene.variant_blank]
        have hvariant' : theirs'.variant = theirs.variant := by
          rw [GeneNode.variant, hgene, Gene.variant_rename, GeneNode.variant]
        -- what is left to compare are the checks of the parts, which the induction is about
        have hcheck : ∀ x ∈ content.gene.blank.owned, ∀ y ∈ theirs.gene.owned,
            t.assessCopyWithin src d x y = u.assessCopyWithin other e x (f y) := by
          intro x hx y hy
          obtain ⟨p, hp, q, hq, rfl, hqp, hpq⟩ := halike.exists_parts hshaped hx
          obtain ⟨s, hs', r, hr', rfl, hid, hsr⟩ := hbelow y hy
          have hlt := height_lt_of_part id content hp
          have hlt' := height_lt_of_part id' content' hq
          have hnext := ih p hp (hv.parts.each p hp) (hw.parts.each q hq) (hs.parts.each s hs')
            (hr.parts.each r hr') hpq hsr (Nat.le_of_lt_succ (hlt.trans_le hd))
            (Nat.le_of_lt_succ (hlt'.trans_le he))
          rwa [hqp, hid] at hnext
        have hnode : t.node id = .ok content := node_of_get? hv.get?_node
        have hnode' : u.node id' = .ok content' := node_of_get? hw.get?_node
        have hsnode : src.node sid = .ok theirs := node_of_get? hs.get?_node
        have hrnode : other.node rid = .ok theirs' := node_of_get? hr.get?_node
        change t.assessCopyWithin src (d + 1) id sid = u.assessCopyWithin other (e + 1) id' rid
        rw [assessCopyWithin, assessCopyWithin, hnode, hnode', hsnode, hrnode]
        change (if _ then _ else assessGenes _ _ _ _) = if _ then _ else assessGenes _ _ _ _
        rw [hvariant, hvariant', hname, hgene, assessGenes_rename,
          ← assessGenes_blank _ _ content.gene, ← assessGenes_blank _ _ content'.gene, ← hmine,
          assessGenes_congr hcheck]

theorem takeValue_rename (f : NodeId → NodeId) (mine theirs : Gene) :
    takeValue mine (theirs.rename f) = takeValue mine theirs := by
  cases mine
  case object | array | map | base64 | primaryKey | autoIncrement | cyclePlaceholder
    | limitPlaceholder => rfl
  all_goals cases theirs <;> rfl

/-- A choice finds a value that it has. -/
theorem exists_position {values : List String} {value : String} (h : values.contains value = true) :
    ∃ position, values.findIdx? (· = value) = some position ∧ values[position]? = some value := by
  have hfind : (values.findIdx? (· = value)).isSome = true := by
    rw [List.findIdx?_isSome, List.any_eq_true]
    exact ⟨value, List.contains_iff_mem.mp h, by simp⟩
  obtain ⟨position, hposition⟩ := Option.isSome_iff_exists.mp hfind
  obtain ⟨hlt, hvalue, -⟩ := List.findIdx?_eq_some_iff_getElem.mp hposition
  exact ⟨position, hposition, by rw [List.getElem?_eq_getElem hlt, of_decide_eq_true hvalue]⟩

/-- Of a value that it can take over, a gene keeps nothing of its own. -/
theorem takeValue_blank {check : NodeId → NodeId → Except GeneError Unit} {name : String}
    {mine theirs : Gene} (hv : mine.variant = theirs.variant) (hc : mine.isCollection = false)
    (h : assessGenes check name mine theirs = .ok ()) :
    takeValue mine.blank theirs = takeValue mine theirs := by
  cases Gene.kindred_of_variant hv
  case array | map => cases hc
  case choice values _ theirValues index =>
    -- the position is looked up anew, which only succeeds for a value that both have
    rw [assessGenes] at h
    cases hvalue : theirValues[index]? with
    | none =>
      rw [hvalue] at h
      cases h
    | some value =>
      rw [hvalue] at h
      by_cases hmem : values.contains value = true
      · obtain ⟨position, hposition, -⟩ := exists_position hmem
        simp only [takeValue, Gene.blank, hvalue, Option.bind_some, hposition]
      · simp only [hmem] at h
        cases h
  all_goals rfl

theorem takeValue_eq {check : NodeId → NodeId → Except GeneError Unit} {name : String}
    {mine mine' theirs : Gene} (hblank : mine.blank = mine'.blank) (hv : mine.variant = theirs.variant)
    (hc : mine.isCollection = false) (h : assessGenes check name mine theirs = .ok ()) :
    takeValue mine theirs = takeValue mine' theirs := by
  have hv' : mine'.variant = theirs.variant := by
    rw [← Gene.variant_blank, ← hblank, Gene.variant_blank, hv]
  have hc' : mine'.isCollection = false := by
    rw [← Gene.isCollection_blank, ← hblank, Gene.isCollection_blank, hc]
  have h' : assessGenes check name mine' theirs = .ok () := by
    rw [← assessGenes_blank, ← hblank, assessGenes_blank, h]
  rw [← takeValue_blank hv hc h, hblank, takeValue_blank hv' hc' h']

theorem map_erase_overlayAll {parts parts' others others' : List GeneTerm}
    (hparts : List.Forall₂ (fun p q => p.mould = q.mould) parts parts')
    (hothers : List.Forall₂ (fun s r => s.erase = r.erase) others others')
    (hlen : parts.length = others.length)
    (h : ∀ c ∈ parts.zip others, ∀ q ∈ parts', ∀ r ∈ others', c.1.mould = q.mould →
      c.2.erase = r.erase → (overlay c.1 c.2).erase = (overlay q r).erase) :
    (overlayAll parts others).map erase = (overlayAll parts' others').map erase := by
  induction hparts generalizing others others' with
  | nil =>
    rw [List.length_nil, eq_comm, List.length_eq_zero_iff] at hlen
    subst hlen
    cases hothers
    rfl
  | @cons p q ps qs hpq _ ih =>
    cases hothers with
    | nil => cases hlen
    | @cons s r ss rs hsr hrest =>
      have hhead := h (p, s) (by simp) q (by simp) r (by simp) hpq hsr
      have htail := ih hrest (Nat.succ.inj hlen) fun c hc q hq r hr =>
        h c (List.mem_cons_of_mem _ hc) q (List.mem_cons_of_mem _ hq) r (List.mem_cons_of_mem _ hr)
      rw [overlayAll, overlayAll, List.map_cons, List.map_cons, htail, hhead]

/-- What terms of one mould take over from terms of one value is the same. -/
theorem erase_overlay_eq {d : Nat} (hv : t.Holds v) (hw : u.Holds w) (hs : src.Holds s)
    (hr : other.Holds r) (hmould : v.mould = w.mould) (herase : s.erase = r.erase)
    (h : t.assessCopyWithin src d v.id s.id = .ok ()) : (overlay v s).erase = (overlay w r).erase := by
  induction v using induct generalizing w s r d with
  | node id content parts ih =>
    obtain ⟨id', content', parts'⟩ := w
    obtain ⟨sid, theirs, others⟩ := s
    obtain ⟨rid, theirs', others'⟩ := r
    cases d with
    | zero => cases h
    | succ d =>
      obtain ⟨hvariant, hassess⟩ := assessed_node hv hs h
      have hfits := fits_of_assessGenes hvariant hassess
      have halike := alikeNodes hv.shaped hw.shaped hmould
      obtain ⟨f, -, hgene, -⟩ := hs.exists_renaming hr herase
      have hcoll := isCollection_of_blank halike.blank
      have hmine : content.gene.blank = content'.gene.blank := congrArg GeneNode.gene halike.blank
      have hname : content.blank.name = content'.blank.name := congrArg GeneNode.name halike.blank
      have hparent : content.blank.parent = content'.blank.parent :=
        congrArg GeneNode.parent halike.blank
      change content.name = content'.name at hname
      change content.parent = content'.parent at hparent
      rw [erase_node, erase_node, node.injEq] at herase
      have hothers := herase.2.2
      -- members are taken as they are, parts of other genes are laid over one by one
      by_cases hc : content.gene.isCollection = true
      · have hdrop : (others.drop 1).map erase = (others'.drop 1).map erase := by
          rw [List.map_drop, List.map_drop, hothers]
        have hlen : ((others.drop 1).map GeneTerm.id).length =
            ((others'.drop 1).map GeneTerm.id).length := by
          simpa using congrArg List.length hdrop
        have hmembers : (content.gene.withMembers ((others.drop 1).map GeneTerm.id)).rename (fun _ => ⟨0⟩) =
            (content'.gene.withMembers ((others'.drop 1).map GeneTerm.id)).rename fun _ => ⟨0⟩ := by
          rw [← Gene.withMembers_blank hc, hmine, Gene.withMembers_blank (hcoll.symm.trans hc),
            Gene.rename_withMembers hlen]
        rw [overlay, overlay, if_pos hc, if_pos (hcoll.symm.trans hc), erase_node, erase_node,
          List.map_append, List.map_append, hdrop, halike.template hc]
        simp only [GeneNode.rename, hname, hparent, hmembers]
      · rw [Bool.not_eq_true] at hc
        have hc' := hcoll.symm.trans hc
        have htake : takeValue content.gene theirs.gene = takeValue content'.gene theirs'.gene := by
          rw [hgene, takeValue_rename]
          exact takeValue_eq hmine hvariant hc hassess
        have hshaped := hv.shaped
        have hshaped' := hs.shaped
        rw [Shaped] at hshaped hshaped'
        have hlen := hfits.length hc
        rw [← hshaped.1, ← hshaped'.1, List.length_map, List.length_map] at hlen
        rw [← List.forall₂_eq_eq_eq, List.forall₂_map_left_iff, List.forall₂_map_right_iff] at hothers
        have hall : (overlayAll parts others).map erase = (overlayAll parts' others').map erase := by
          refine map_erase_overlayAll (halike.parts hc) hothers hlen fun c hcz q hq r' hr' hm he => ?_
          have hmem := List.of_mem_zip hcz
          refine ih c.1 hmem.1 (hv.parts.each _ hmem.1) (hw.parts.each q hq) (hs.parts.each _ hmem.2)
            (hr.parts.each r' hr') hm he (hfits.below (c.1.id, c.2.id) ?_)
          rw [hfits.pairs hc, ← hshaped.1, ← hshaped'.1, List.zip_map]
          exact List.mem_map_of_mem hcz
        rw [overlay, overlay, if_neg (by simp [hc]), if_neg (by simp [hc']), erase_node, erase_node, hall]
        simp only [GeneNode.rename, hname, hparent, htake]

end GeneTree
end CallEvolution
