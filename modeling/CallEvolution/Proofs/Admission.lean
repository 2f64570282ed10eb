import CallEvolution.Proofs.Mould
import CallEvolution.Proofs.Copying
import CallEvolution.Proofs.NodeLaws

/-! Which values a term admits, said of the terms themselves. An assessment succeeds if and only if it is
one of them, and a copy has the bounds that its target had. -/

namespace CallEvolution

open GeneTerm

/-- The pairs through which the assessment of a copy goes on. The template of a collection is paired with
every member of the other one. -/
def pairings {α : Type} (collection : Bool) (xs ys : List α) : List (α × α) :=
  if collection then (xs.take 1).flatMap fun x => (ys.drop 1).map (x, ·) else xs.zip ys

theorem pairings_map {α β : Type} (f g : α → β) (collection : Bool) (xs ys : List α) :
    pairings collection (xs.map f) (ys.map g) = (pairings collection xs ys).map (Prod.map f g) := by
  cases collection with
  | false => exact List.zip_map
  | true =>
    cases xs with
    | nil => rfl
    | cons x xs => simp [pairings, Function.comp_def]

theorem mem_of_mem_pairings {α : Type} {collection : Bool} {xs ys : List α} {r : α × α}
    (h : r ∈ pairings collection xs ys) : r.1 ∈ xs ∧ r.2 ∈ ys := by
  cases collection with
  | false => exact List.of_mem_zip h
  | true =>
    obtain ⟨x, hx, h⟩ := List.mem_flatMap.mp h
    obtain ⟨y, hy, rfl⟩ := List.mem_map.mp h
    exact ⟨List.mem_of_mem_take hx, List.mem_of_mem_drop hy⟩

theorem Gene.isCollection_of_variant {g k : Gene} (h : g.variant = k.variant) :
    g.isCollection = k.isCollection := by
  cases Gene.kindred_of_variant h <;> rfl

/-- Can a term take over the value of another one? -/
inductive GeneTerm.Admits : GeneTerm → GeneTerm → Prop where
  | node {id sid : NodeId} {content theirs : GeneNode} {parts others : List GeneTerm}
    (variant : content.variant = theirs.variant)
    (value : GeneTree.assessGenes (fun _ _ => .ok ()) content.name content.gene theirs.gene = .ok ())
    (below : ∀ r ∈ pairings content.gene.isCollection parts others, Admits r.1 r.2) :
    Admits (node id content parts) (node sid theirs others)

namespace GeneTree

variable {t src : GeneTree} {v s : GeneTerm}

theorem checkPairs_iff {f : NodeId → NodeId → Except GeneError Unit} {pairs : List (NodeId × NodeId)} :
    checkPairs f pairs = .ok () ↔ ∀ r ∈ pairs, f r.1 r.2 = .ok () := by
  refine ⟨ok_of_checkPairs, fun h => ?_⟩
  induction pairs with
  | nil => rfl
  | cons r pairs ih =>
    rw [checkPairs, h r (by simp)]
    exact ih fun x hx => h x (List.mem_cons_of_mem _ hx)

theorem checkMembers_iff {check : NodeId → NodeId → Except GeneError Unit} {name : String}
    {template : NodeId} {maxSize : Nat} {members : List NodeId} :
    checkMembers check name template maxSize members = .ok () ↔
      members.length ≤ maxSize ∧ ∀ x ∈ members, check template x = .ok () := by
  unfold checkMembers
  split
  · next hsize =>
    refine ⟨(fun h => by cases h), fun h => ?_⟩
    omega
  · next hsize =>
    rw [checkPairs_iff, List.forall_mem_map]
    exact (and_iff_right (by omega)).symm

theorem assessGenes_iff {check : NodeId → NodeId → Except GeneError Unit} {name : String}
    {mine theirs : Gene} (hv : mine.variant = theirs.variant) :
    assessGenes check name mine theirs = .ok () ↔
      assessGenes (fun _ _ => .ok ()) name mine theirs = .ok () ∧
        ∀ r ∈ pairings mine.isCollection mine.owned theirs.owned, check r.1 r.2 = .ok () := by
  cases Gene.kindred_of_variant hv
  case object xs refType ys refType' =>
    simp only [assessGenes]
    split
    · exact ⟨(fun h => by cases h), fun h => by cases h.1⟩
    · simp only [checkPairs_iff, implies_true, true_and]
      rfl
  case array | map =>
    simp [assessGenes, checkMembers_iff, pairings, Gene.isCollection, Gene.owned]
  case optional | primaryKey | base64 =>
    simp [assessGenes, pairings, Gene.isCollection, Gene.owned, Gene.children]
  all_goals simp [assessGenes, pairings, Gene.isCollection, Gene.owned, Gene.children]

/-- A copy is allowed if and only if the one term admits the value of the other. -/
theorem assessCopyWithin_iff {d : Nat} (hv : t.Holds v) (hs : src.Holds s) (hd : v.height ≤ d) :
    t.assessCopyWithin src d v.id s.id = .ok () ↔ v.Admits s := by
  induction d generalizing v s with
  | zero =>
    obtain ⟨id, content, parts⟩ := v
    simp [height] at hd
  | succ d ih =>
    obtain ⟨id, content, parts⟩ := v
    obtain ⟨sid, theirs, others⟩ := s
    have hshaped := hv.shaped
    have hshaped' := hs.shaped
    rw [Shaped] at hshaped hshaped'
    have hbelow : (∀ r ∈ pairings content.gene.isCollection content.gene.owned theirs.gene.owned,
        t.assessCopyWithin src d r.1 r.2 = .ok ()) ↔
          ∀ r ∈ pairings content.gene.isCollection parts others, r.1.Admits r.2 := by
      rw [← hshaped.1, ← hshaped'.1, pairings_map, List.forall_mem_map]
      refine forall₂_congr fun r hr => ?_
      obtain ⟨hp, hq⟩ := mem_of_mem_pairings hr
      have hlt := height_lt_of_part id content hp
      exact ih (hv.parts.each _ hp) (hs.parts.each _ hq) (by omega)
    have hnode : t.node id = .ok content := node_of_get? hv.get?_node
    have hnode' : src.node sid = .ok theirs := node_of_get? hs.get?_node
    change t.assessCopyWithin src (d + 1) id sid = .ok () ↔ _
    rw [assessCopyWithin, hnode, hnode']
    change (if _ then _ else assessGenes _ _ _ _) = _ ↔ _
    split
    · next hvariant =>
      refine ⟨(fun h => by cases h), fun h => ?_⟩
      cases h with
      | node h => exact absurd h hvariant
    · next hvariant =>
      rw [not_not] at hvariant
      rw [assessGenes_iff hvariant, hbelow]
      refine ⟨fun h => .node hvariant h.1 h.2, fun h => ?_⟩
      cases h with
      | node _ hvalue hbelow => exact ⟨hvalue, hbelow⟩

theorem assessCopy_iff (hv : t.Holds v) (hs : src.Holds s) :
    t.assessCopy v.id src s.id = .ok () ↔ v.Admits s :=
  assessCopyWithin_iff hv hs
    (hv.height_le_depthBound.trans (Nat.le_mul_of_pos_right _ (Nat.succ_pos _)))

theorem of_requireBounds {name : String} {ok : Bool} (h : requireBounds name ok = .ok ()) : ok = true := by
  unfold requireBounds at h
  split at h
  · assumption
  · cases h

/-- A value that a leaf can take over lies within its bounds. -/
theorem varies_takeValue {check : NodeId → NodeId → Except GeneError Unit} {name : String}
    {mine theirs : Gene} (hv : mine.variant = theirs.variant) (hc : mine.isCollection = false)
    (h : assessGenes check name mine theirs = .ok ()) : mine.Varies (takeValue mine theirs) := by
  have hblank := blank_takeValue mine theirs
  cases Gene.kindred_of_variant hv
  case integer | long | string =>
    have hwithin := of_requireBounds h
    simp only [within, Bool.and_eq_true, decide_eq_true_eq] at hwithin
    exact ⟨hblank, fun _ => hwithin, fun _ => trivial⟩
  case float | double =>
    have hwithin := of_requireBounds h
    simp only [within, Bool.and_eq_true, decide_eq_true_eq] at hwithin
    exact ⟨hblank, fun _ => trivial, fun _ => hwithin⟩
  case choice values _ theirValues index =>
    refine ⟨hblank, ?_, ?_⟩
    · intro hold
      simp only [takeValue]
      split
      · next position hposition =>
        obtain ⟨value, -, hvalue⟩ := Option.bind_eq_some_iff.mp hposition
        exact fun _ => (List.findIdx?_eq_some_iff_getElem.mp hvalue).1
      · exact hold
    · simp only [takeValue]
      split
      · exact fun _ => trivial
      · exact fun _ => trivial
  case array | map => cases hc
  all_goals exact ⟨hblank, fun _ => trivial, fun _ => trivial⟩

end GeneTree

open GeneTree

namespace GeneTerm

variable {v w s x : GeneTerm} {vs ws : List GeneTerm} {P : Gene → List GeneTerm → Prop}

theorem mem_overlayAll (h : x ∈ overlayAll vs ws) : x ∈ vs ∨ ∃ r ∈ vs.zip ws, x = overlay r.1 r.2 := by
  induction vs generalizing ws with
  | nil =>
    rw [overlayAll] at h
    · exact .inl h
    · simp
  | cons v vs ih =>
    cases ws with
    | nil =>
      rw [overlayAll] at h
      · exact .inl h
      · simp
    | cons w ws =>
      rw [overlayAll] at h
      rcases List.mem_cons.mp h with rfl | h
      · exact .inr ⟨(v, w), by simp, rfl⟩
      · rcases ih h with h | ⟨r, hr, rfl⟩
        · exact .inl (List.mem_cons_of_mem _ h)
        · exact .inr ⟨r, List.mem_cons_of_mem _ hr, rfl⟩

theorem map_face_overlayAll (h : ∀ v ∈ vs, ∀ w, (overlay v w).face = v.face) :
    (overlayAll vs ws).map face = vs.map face := by
  induction vs generalizing ws with
  | nil =>
    rw [overlayAll]
    simp
  | cons v vs ih =>
    cases ws with
    | nil =>
      rw [overlayAll]
      simp
    | cons w ws =>
      rw [overlayAll, List.map_cons, List.map_cons, h v (by simp),
        ih fun v hv => h v (List.mem_cons_of_mem _ hv)]

theorem map_stencil_of_face (h : vs.map face = ws.map face) : vs.map stencil = ws.map stencil := by
  have hsnd := congrArg (List.map Prod.snd) h
  rwa [List.map_map, List.map_map] at hsnd

/-- A term keeps its name and its bounds when a value is laid over it. -/
theorem face_overlay (hv : v.Shaped) (w : GeneTerm) : (overlay v w).face = v.face := by
  induction v using induct generalizing w with
  | node id content parts ih =>
    obtain ⟨wid, source, others⟩ := w
    by_cases hc : content.gene.isCollection = true
    · obtain ⟨p, ps, rfl⟩ := hv.exists_template hc
      rw [overlay, if_pos hc, face, face]
      exact congrArg (Prod.mk content.name) (stencil_members hc _ _ _)
    · have hparts : (overlayAll parts others).map face = parts.map face :=
        map_face_overlayAll fun p hp w => ih p hp (hv.part hp) w
      have hset : (node id { content with gene := takeValue content.gene source.gene }
          (overlayAll parts others)).stencil = (node id content (overlayAll parts others)).stencil :=
        stencil_setGene (blank_takeValue content.gene source.gene)
      rw [overlay, if_neg hc, face, face, hset]
      refine congrArg (Prod.mk content.name) ?_
      rw [stencil, stencil, map_stencil_of_face hparts]

theorem face_erase (v : GeneTerm) : v.erase.face = v.face := face_rename _ v

end GeneTerm

/-- What two terms have to fulfil so that a condition lasts when the one takes over the value of the
other: it goes on from their parts, and suffices for members that are taken over. -/
structure Imports (P : Gene → List GeneTerm → Prop) (R : GeneTerm → GeneTerm → Prop) : Prop where
  parts : ∀ {id sid : NodeId} {content theirs : GeneNode} {parts others : List GeneTerm},
    content.gene.isCollection = false → content.variant = theirs.variant →
      R (.node id content parts) (.node sid theirs others) → ∀ r ∈ parts.zip others, R r.1 r.2
  members : ∀ {id sid : NodeId} {content theirs : GeneNode} {template q : GeneTerm}
    {old new : List GeneTerm}, content.gene.isCollection = true → content.variant = theirs.variant →
      (template :: old).map GeneTerm.id = content.gene.owned → new.length ≤ content.gene.capacity →
        R (.node id content (template :: old)) (.node sid theirs (q :: new)) →
          P content.gene (template :: old) →
            P (content.gene.withMembers (new.map GeneTerm.id)) (template :: new) ∧ ∀ m ∈ new, m.Every P

theorem Imports.every_overlay {P : Gene → List GeneTerm → Prop} {R : GeneTerm → GeneTerm → Prop}
    {v s : GeneTerm} (hR : Imports P R) (hP : Lasts P) (hv : v.Shaped) (hs : s.Shaped) (hvs : R v s)
    (hold : v.Every P) (h : v.Admits s) : (overlay v s).Every P := by
  induction h with
  | @node id sid content theirs parts others hvariant hvalue hbelow ih =>
    rw [Every] at hold
    by_cases hc : content.gene.isCollection = true
    · have hc' : theirs.gene.isCollection = true := by
        rw [← Gene.isCollection_of_variant hvariant]
        exact hc
      obtain ⟨p, ps, rfl⟩ := hv.exists_template hc
      obtain ⟨q, qs, rfl⟩ := hs.exists_template hc'
      have hsize : qs.length ≤ content.gene.capacity := by
        have hsize := (fits_of_assessGenes hvariant hvalue).collection hc
        have hshaped' := hs
        rw [Shaped] at hshaped'
        rwa [← hshaped'.1, List.map_cons, List.drop_one, List.tail_cons, List.length_map] at hsize
      rw [Shaped] at hv
      have hmembers := hR.members hc hvariant hv.1 hsize hvs hold.1
      rw [overlay, if_pos hc, Every]
      refine ⟨hmembers.1, List.forall_mem_cons.mpr ⟨hold.2 p (by simp), hmembers.2⟩⟩
    · rw [Bool.not_eq_true] at hc
      have hfaces : (overlayAll parts others).map face = parts.map face :=
        map_face_overlayAll fun p hp w => face_overlay (hv.part hp) w
      rw [overlay, if_neg (by simp [hc]), Every]
      refine ⟨hP.varies hc (varies_takeValue hvariant hc hvalue) (hP.faces hfaces hold.1), fun x hx => ?_⟩
      rcases mem_overlayAll hx with hx | ⟨r, hr, rfl⟩
      · exact hold.2 x hx
      · have hmem := List.of_mem_zip hr
        refine ih r (by rwa [hc]) (hv.part hmem.1) (hs.part hmem.2) ?_ (hold.2 _ hmem.1)
        exact hR.parts hc hvariant hvs r hr

/-- Does a condition last when the one term takes over the value of the other? -/
def GeneTerm.Accepts (P : Gene → List GeneTerm → Prop) (v s : GeneTerm) : Prop :=
  v.Every P → v.Admits s → (overlay v s).Every P

theorem GeneTerm.accepts_true (v s : GeneTerm) : Accepts (fun _ _ => True) v s :=
  fun _ _ => every_true _

namespace Edit

variable {t src : GeneTree} {v s : GeneTerm} {P : Gene → List GeneTerm → Prop}

theorem renews_copyFrom (hP : Lasts P) (ht : t.FreeExact) (hv : t.Holds v) (hs : src.Holds s)
    (haccepts : v.Accepts P s) (h : t.assessCopy v.id src s.id = .ok ()) :
    Ensures (copyFrom v.id src s.id) t fun r u => r = .ok () ∧ ∃ w, Renews P t v u w := by
  refine (ensures_copyFrom ht hv hs h).mono ?_
  rintro r u ⟨rfl, w, herase, hw⟩
  have hface : w.face = (overlay v s).face := by rw [← face_erase w, herase, face_erase]
  rw [face_overlay hv.shaped] at hface
  refine ⟨rfl, w, hw, congrArg Prod.snd hface, fun hold => ?_⟩
  rw [← hP.every_rename fun _ => ⟨0⟩]
  change w.erase.Every P
  rw [herase, erase, hP.every_rename]
  exact haccepts hold ((assessCopy_iff hv hs).mp h)

end Edit
end CallEvolution
