import CallEvolution.Proofs.Lockstep
import CallEvolution.Proofs.TotalReading

/-! What can be wrong with a value that is taken over. A copy is refused for what does not fit, a text
for what has none, and a gene that refuses a value is left as it was. -/

namespace CallEvolution

open GeneTerm

/-- Is a computation right, or wrong in some way only? -/
def FailsWith {ε α : Type} (P : ε → Prop) (x : Except ε α) : Prop := ∀ e, x = .error e → P e

namespace FailsWith

variable {ε α β : Type} {P : ε → Prop}

theorem ok (a : α) : FailsWith P (.ok a : Except ε α) := fun _ h => by cases h

theorem error {e : ε} (h : P e) : FailsWith P (.error e : Except ε α) := fun _ he => by
  cases he
  exact h

theorem bind {x : Except ε α} {f : α → Except ε β} (h : FailsWith P x)
    (hf : ∀ a, x = .ok a → FailsWith P (f a)) : FailsWith P (x >>= f) := by
  cases x with
  | error e => exact error (h e rfl)
  | ok a => exact hf a rfl

theorem of_ok {x : Except ε α} {a : α} (h : x = .ok a) : FailsWith P x := h ▸ ok a

theorem mapM {f : α → Except ε β} {l : List α} (h : ∀ a ∈ l, FailsWith P (f a)) :
    FailsWith P (l.mapM f) := by
  induction l with
  | nil => exact ok []
  | cons a l ih =>
    obtain ⟨ha, hl⟩ := List.forall_mem_cons.mp h
    rw [List.mapM_cons]
    exact ha.bind fun _ _ => (ih hl).bind fun _ _ => ok _

end FailsWith

namespace GeneError

/-- Does an error say that a gene does not fit another one? -/
def IsMisfit : GeneError → Prop
  | variantMismatch .. | shapeMismatch _ | outOfBounds _ | tooManyMembers .. => True
  | _ => False

/-- Does an error say that a part has another variant, or that a value has no text? -/
def IsRefusal : GeneError → Prop
  | variantMismatch .. | notPrintable _ => True
  | _ => False

end GeneError

open GeneError

namespace GeneTree

variable {t src : GeneTree} {v s : GeneTerm}

theorem failsWith_checkPairs {check : NodeId → NodeId → Except GeneError Unit}
    {pairs : List (NodeId × NodeId)} (h : ∀ r ∈ pairs, FailsWith IsMisfit (check r.1 r.2)) :
    FailsWith IsMisfit (checkPairs check pairs) := by
  induction pairs with
  | nil => exact .ok ()
  | cons r pairs ih =>
    obtain ⟨hr, hpairs⟩ := List.forall_mem_cons.mp h
    exact hr.bind fun _ _ => ih hpairs

theorem failsWith_assessGenes {check : NodeId → NodeId → Except GeneError Unit} {name : String}
    {mine theirs : Gene}
    (h : ∀ x ∈ mine.owned, ∀ y ∈ theirs.owned, FailsWith IsMisfit (check x y)) :
    FailsWith IsMisfit (assessGenes check name mine theirs) := by
  have hmembers : ∀ template maxSize members, template ∈ mine.owned → members ⊆ theirs.owned →
      FailsWith IsMisfit (checkMembers check name template maxSize members) := by
    intro template maxSize members htemplate hmembers
    unfold checkMembers
    split
    · exact .error trivial
    · refine failsWith_checkPairs fun r hr => ?_
      obtain ⟨y, hy, rfl⟩ := List.mem_map.mp hr
      exact h template htemplate y (hmembers hy)
  have hbounds : ∀ b, FailsWith IsMisfit (requireBounds name b) := by
    intro b
    cases b
    · exact .error trivial
    · exact .ok ()
  unfold assessGenes
  split
  · split
    · exact .error trivial
    · exact failsWith_checkPairs fun r hr =>
        h r.1 (List.of_mem_zip hr).1 r.2 (List.of_mem_zip hr).2
  · exact hmembers _ _ _ (by simp [Gene.owned]) (by simp [Gene.owned])
  · exact hmembers _ _ _ (by simp [Gene.owned]) (by simp [Gene.owned])
  · split
    · split
      · exact .ok ()
      · exact .error trivial
    · exact .error trivial
  · exact hbounds _
  · exact hbounds _
  · exact hbounds _
  · exact hbounds _
  · exact hbounds _
  · exact h _ (by simp [Gene.owned, Gene.children]) _ (by simp [Gene.owned, Gene.children])
  · exact h _ (by simp [Gene.owned, Gene.children]) _ (by simp [Gene.owned, Gene.children])
  · exact h _ (by simp [Gene.owned, Gene.children]) _ (by simp [Gene.owned, Gene.children])
  · exact .ok ()

/-- A copy between terms is refused for what does not fit. -/
theorem failsWith_assessCopyWithin {d : Nat} (hv : t.Holds v) (hs : src.Holds s) (hd : v.height ≤ d) :
    FailsWith IsMisfit (t.assessCopyWithin src d v.id s.id) := by
  induction v using induct generalizing s d with
  | node id content parts ih =>
    obtain ⟨sid, theirs, others⟩ := s
    cases d with
    | zero => simp [height] at hd
    | succ d =>
      have hnode : t.node id = .ok content := node_of_get? hv.get?_node
      have hnode' : src.node sid = .ok theirs := node_of_get? hs.get?_node
      have hshaped := hv.shaped
      have hshaped' := hs.shaped
      rw [Shaped] at hshaped hshaped'
      change FailsWith _ (t.assessCopyWithin src (d + 1) id sid)
      rw [assessCopyWithin, hnode, hnode']
      change FailsWith _ (if _ then _ else assessGenes _ _ _ _)
      split
      · exact .error trivial
      -- the genes name their own parts only
      · refine failsWith_assessGenes fun x hx y hy => ?_
        rw [← hshaped.1] at hx
        rw [← hshaped'.1] at hy
        obtain ⟨p, hp, rfl⟩ := List.mem_map.mp hx
        obtain ⟨q, hq, rfl⟩ := List.mem_map.mp hy
        have hlt := height_lt_of_part id content hp
        exact ih p hp (hv.parts.each p hp) (hs.parts.each q hq) (by omega)

theorem failsWith_assessCopy (hv : t.Holds v) (hs : src.Holds s) :
    FailsWith IsMisfit (t.assessCopy v.id src s.id) :=
  failsWith_assessCopyWithin hv hs
    (hv.height_le_depthBound.trans (Nat.le_mul_of_pos_right _ (Nat.succ_pos _)))

/-- What is wrong with a term that cannot be written as JSON is that a part of it has no text. -/
theorem failsWith_toJsonWithin {d : Nat} (hv : t.Holds v) (hd : v.height ≤ d) :
    FailsWith IsRefusal (t.toJsonWithin d v.id) := by
  induction v using induct generalizing d with
  | node id content parts ih =>
    cases d with
    | zero => simp [height] at hd
    | succ d =>
      have hshaped := hv.shaped
      rw [Shaped] at hshaped
      have hpart : ∀ x ∈ content.gene.owned, ∃ p ∈ parts, p.id = x := fun x hx => by
        rw [← hshaped.1] at hx
        simpa using hx
      have hjson : ∀ x ∈ content.gene.owned, FailsWith IsRefusal (t.toJsonWithin d x) := by
        intro x hx
        obtain ⟨p, hp, rfl⟩ := hpart x hx
        have hlt := height_lt_of_part id content hp
        exact ih p hp (hv.parts.each p hp) (by omega)
      have hfield : ∀ x ∈ content.gene.owned, FailsWith IsRefusal (t.name x) := by
        intro x hx
        obtain ⟨p, hp, rfl⟩ := hpart x hx
        exact .of_ok (exists_name (hv.parts.each p hp).get?_id)
      have hleftOut : ∀ x ∈ content.gene.owned, FailsWith IsRefusal (t.isLeftOut x) := by
        intro x hx
        obtain ⟨p, hp, rfl⟩ := hpart x hx
        have hq := hv.parts.each p hp
        have hcore : FailsWith IsRefusal (do return (← t.variant (← t.coreNode p.id)).isPlaceholder) := by
          rw [hq.coreNode]
          exact (FailsWith.of_ok (exists_variant hq.core.get?_id)).bind fun _ _ => .ok _
        refine (FailsWith.of_ok (gene_of_get? hq.get?_id)).bind fun g _ => ?_
        split
        · exact .ok true
        · exact hcore
      have hnode : t.node id = .ok content := node_of_get? hv.get?_node
      change FailsWith _ (t.toJsonWithin (d + 1) id)
      obtain ⟨name, gene, parent⟩ := content
      cases gene
      case object fields refType =>
        rw [toJsonWithin_object hnode]
        refine (FailsWith.mapM fun x hx => ?_).bind fun _ _ => .ok _
        refine (hleftOut x hx).bind fun b _ => ?_
        cases b
        · exact (hfield x hx).bind fun _ _ => (hjson x hx).bind fun _ _ => .ok _
        · exact .ok none
      case array template elements maxSize =>
        rw [toJsonWithin_array hnode]
        exact (FailsWith.mapM fun x hx => hjson x (List.mem_cons_of_mem _ hx)).bind fun _ _ => .ok _
      case map template entries maxSize =>
        rw [toJsonWithin_map hnode]
        refine (FailsWith.mapM fun x hx => ?_).bind fun _ _ => .ok _
        exact (hfield x (List.mem_cons_of_mem _ hx)).bind fun _ _ =>
          (hjson x (List.mem_cons_of_mem _ hx)).bind fun _ _ => .ok _
      case base64 data =>
        have hdata := hjson data (List.mem_singleton_self data)
        obtain ⟨p, hp, rfl⟩ := hpart data (List.mem_singleton_self data)
        rw [toJsonWithin_base64 hnode]
        refine (FailsWith.of_ok (gene_of_get? (hv.parts.each p hp).get?_id)).bind fun g _ => ?_
        split
        · exact .ok _
        · exact hdata.bind fun _ _ => .ok _
      case primaryKey table inner uniqueId =>
        rw [toJsonWithin_primaryKey hnode]
        exact hjson inner (List.mem_singleton_self inner)
      case optional inner active =>
        rw [toJsonWithin_optional hnode]
        cases active
        · exact .ok _
        · exact hjson inner (List.mem_singleton_self inner)
      case choice values index =>
        rw [toJsonWithin_choice hnode]
        cases values[index]? with
        | some value => exact .ok _
        | none => exact .error trivial
      case cyclePlaceholder | limitPlaceholder =>
        rw [toJsonWithin_placeholder rfl hnode]
        exact .error trivial
      all_goals exact .of_ok (toJsonWithin_leaf rfl hnode)

theorem failsWith_rawText (hv : t.Holds v) : FailsWith IsRefusal (t.rawText v.id) := by
  have hjson : FailsWith IsRefusal (t.toJson v.id) := failsWith_toJsonWithin hv hv.height_le_depthBound
  have hprint : FailsWith IsRefusal (t.printable v.id) := by
    rw [printable]
    cases h : t.toJson v.id with
    | error e => exact .error (hjson e h)
    | ok j => exact .ok _
  refine (FailsWith.of_ok (gene_of_get? hv.get?_id)).bind fun g _ => ?_
  split
  · exact .ok _
  · exact hprint

theorem failsWith_scalar (hv : t.Holds v) : FailsWith IsRefusal (t.scalar v.id) := by
  have htext : FailsWith IsRefusal (do return some (Scalar.text (← t.rawText v.core.id))) :=
    (failsWith_rawText hv.core).bind fun _ _ => .ok _
  rw [scalar, hv.coreNode]
  refine (FailsWith.of_ok (gene_of_get? hv.core.get?_id)).bind fun g _ => ?_
  cases g
  case integer | long | float | double | boolean | foreignKey | date | time | moment
    | cyclePlaceholder | limitPlaceholder | autoIncrement => exact .ok _
  all_goals exact htext

end GeneTree

namespace Edit

open GeneTree

variable {t src : GeneTree} {v s : GeneTerm} {α : Type}

/-- Does a step say whether it has changed the tree, or refuse to do so? -/
def Answers (x : Edit Bool) (t : GeneTree) : Prop :=
  Ensures x t fun r u => FailsWith IsRefusal r ∧ (r ≠ .ok true → u = t)

theorem answers_false : Answers (pure false) t := Ensures.pure ⟨.ok _, fun _ => rfl⟩

theorem answers_update (f : GeneTree → GeneTree) : Answers (do update f; return true) t :=
  Ensures.bind_ok (P := fun _ u => u = f t) (ensures_update ⟨(), rfl, rfl⟩) fun _ _ _ =>
    Ensures.pure ⟨.ok _, fun h => absurd rfl h⟩

theorem Answers.after_query {q : GeneTree → Except GeneError α} {f : α → Edit Bool}
    (hq : FailsWith IsRefusal (q t)) (hf : ∀ a, q t = .ok a → Answers (f a) t) :
    Answers (query q >>= f) t := by
  refine Ensures.bind (P := fun r u => r = q t ∧ u = t) (ensures_query ⟨rfl, rfl⟩) ?_ ?_
  · rintro a u ⟨ha, rfl⟩
    exact hf a ha.symm
  · rintro e u ⟨he, rfl⟩
    exact ⟨.error (hq e he.symm), fun _ => rfl⟩

theorem answers_copyIfFits (ht : t.FreeExact) (hv : t.Holds v) (hs : src.Holds s) :
    Answers (copyIfFits v.id src s.id) t := by
  have hcopy : Ensures (copyFrom v.id src s.id) t fun r u =>
      FailsWith IsMisfit r ∧ ∀ e, r = .error e → u = t := by
    cases h : t.assessCopy v.id src s.id with
    | error e =>
      refine (ensures_copyFrom_error h).mono ?_
      rintro r u ⟨rfl, rfl⟩
      exact ⟨.error (failsWith_assessCopy hv hs e h), fun _ _ => rfl⟩
    | ok =>
      refine (ensures_copyFrom ht hv hs h).mono ?_
      rintro r u ⟨rfl, -⟩
      exact ⟨.ok _, fun _ he => by cases he⟩
  have hdone : Ensures (do copyFrom v.id src s.id; return true : Edit Bool) t fun r u =>
      FailsWith IsMisfit r ∧ (r ≠ .ok true → u = t) := by
    refine Ensures.bind hcopy (fun _ _ _ => Ensures.pure ⟨.ok _, fun h => absurd rfl h⟩) ?_
    rintro e u ⟨he, hu⟩
    exact ⟨.error (he e rfl), fun _ => hu e rfl⟩
  refine Ensures.tryCatch hdone ?_ ?_
  · rintro a u ⟨-, hu⟩
    exact ⟨.ok _, hu⟩
  · rintro e u ⟨he, hu⟩
    have hsame := hu (by rintro ⟨⟩)
    have hmisfit := he e rfl
    split
    · exact Ensures.pure ⟨.ok _, fun _ => hsame⟩
    · exact Ensures.pure ⟨.ok _, fun _ => hsame⟩
    · exact Ensures.pure ⟨.ok _, fun _ => hsame⟩
    · refine Ensures.throw ⟨.error ?_, fun _ => hsame⟩
      cases e <;> simp_all [IsMisfit, IsRefusal]

theorem answers_assignDecoded (hv : t.Holds v) (value : Scalar) :
    Answers (assignDecoded v.id value) t := by
  refine Answers.after_query (.of_ok (gene_of_get? hv.get?_id)) fun g _ => ?_
  split
  · split
    · exact answers_update _
    · exact answers_false
  · exact answers_false

theorem answers_assignFrom (hv : t.Holds v) (hs : src.Holds s) :
    Answers (assignFrom v.id src s.id) t := by
  refine Answers.after_query (failsWith_scalar hs) fun value _ => ?_
  cases value with
  | none => exact answers_false
  | some value =>
    obtain ⟨id, content, parts⟩ := v
    have hgene : t.gene id = .ok content.gene := gene_of_get? hv.get?_node
    refine Answers.after_query (.of_ok hgene) fun g hg => ?_
    obtain rfl : content.gene = g := Except.ok.inj (hgene.symm.trans hg)
    split
    · next data hdata =>
      have hshaped := hv.shaped
      rw [Shaped, hdata] at hshaped
      obtain ⟨p, rfl, rfl⟩ := List.map_eq_singleton_iff.mp hshaped.1
      exact answers_assignDecoded (hv.parts.each p (List.mem_singleton_self p)) value
    · split
      · exact answers_update _
      · exact answers_false

theorem answers_adoptInner (ht : t.FreeExact) (hv : t.Holds v) (hs : src.Holds s) :
    Answers (adoptInner v.id src s.id) t := by
  refine Answers.after_query (.of_ok (exists_variant hv.get?_id)) fun target _ => ?_
  refine Answers.after_query (.of_ok (exists_variant hs.get?_id)) fun source _ => ?_
  split
  · exact answers_copyIfFits ht hv hs
  · split
    · exact answers_false
    · exact answers_assignFrom hv hs

/-- An optional is one still when its term has been refilled. -/
theorem exists_optional {u : GeneTree} {w : GeneTerm} (hv : t.Holds v)
    (hvariant : t.variant v.id = .ok .optional) (hw : Refills t v u w) :
    ∃ inner active, w.content.gene = .optional inner active := by
  obtain ⟨id, ⟨name, gene, parent⟩, parts⟩ := v
  obtain ⟨id', ⟨name', gene', parent'⟩, parts'⟩ := w
  rw [exists_variant hv.get?_id, Except.ok.injEq] at hvariant
  have hblank := blank_eq_of_mould hv hw.holds hw.mould.symm
  cases gene <;> cases hvariant
  obtain ⟨active, hgene⟩ := Gene.optional_of_blank hblank.symm
  exact ⟨_, active, hgene⟩

/-- A gene takes a value over or is left as it was. -/
theorem answers_adopt (ht : t.FreeExact) (hv : t.Holds v) (hs : src.Holds s) :
    Answers (adopt v.id src s.id) t := by
  have hcore := answers_adoptInner ht hv.core hs
  refine Answers.after_query (.of_ok (exists_variant hv.get?_id)) fun target htarget => ?_
  refine Answers.after_query (.of_ok (exists_variant hs.get?_id)) fun source _ => ?_
  split
  · exact answers_copyIfFits ht hv hs
  · split
    · refine Answers.after_query (.of_ok hv.coreNode) fun inner hinner => ?_
      rw [hv.coreNode, Except.ok.injEq] at hinner
      subst hinner
      have hboth := (keeps_adoptInner_core lasts_true ht hv hs (accepts_true _ s)).and hcore
      refine Ensures.bind hboth ?_ ?_
      · rintro adopted u ⟨⟨w, hw⟩, -, hu⟩
        cases adopted with
        | false => exact Ensures.pure ⟨.ok _, fun _ => hu (by simp)⟩
        | true =>
          obtain ⟨inner, active, hgene⟩ := exists_optional hv htarget hw.toRefills
          have hid : u.get? v.id = some w.content := hw.same_id ▸ hw.holds.get?_id
          refine Ensures.bind_ok (P := fun _ _ => True) ?_ fun _ _ _ =>
            Ensures.pure ⟨.ok _, fun h => absurd rfl h⟩
          exact ensures_setActive hid hgene ⟨(), rfl, trivial⟩
      · rintro e u ⟨-, he, hu⟩
        exact ⟨.error (he e rfl), fun _ => hu (by simp)⟩
    · refine Answers.after_query (.of_ok hv.coreNode) fun inner hinner => ?_
      rw [hv.coreNode, Except.ok.injEq] at hinner
      exact hinner ▸ hcore
    · exact answers_adoptInner ht hv hs

end Edit
end CallEvolution
