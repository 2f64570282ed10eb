import CallEvolution.Proofs.ExactCopies
import CallEvolution.Proofs.ImmutableData

/-! Immutable data over runs of calls. It is never converted, drawn or mutated; a copy between two pieces of
immutable data is the one step that gives it another value, and that is the value of the source. -/

namespace CallEvolution

open GeneTerm GeneTree

/-- Does a tree hold a value as immutable data? -/
def GeneTree.HasData (t : GeneTree) (value : String) : Prop :=
  ∃ x n, t.get? x = some n ∧ n.gene = .immutableData value

theorem Gene.data_of_carries {g k : Gene} {value : String} (hv : g.variant = k.variant)
    (h : g.Carries k) (hg : g = .immutableData value) : k = .immutableData value := by
  subst hg
  cases k <;> simp only [variant, reduceCtorEq] at hv
  case immutableData value' => rw [show value = value' from h]

namespace GeneTerm

variable {S S' : String → Prop} {v w s : GeneTerm} {vs ws : List GeneTerm}

theorem exists_mem_zip_left (hlen : vs.length = ws.length) {v : GeneTerm} (hv : v ∈ vs) :
    ∃ r ∈ vs.zip ws, r.1 = v := by
  rw [← List.map_fst_zip hlen.le] at hv
  exact List.mem_map.mp hv

/-- A term that carries the value of another one after a refill has got its immutable data from there. -/
theorem Matches.of_agrees {src : GeneTree} (hv : v.Shaped) (hw : w.Shaped) (hs : src.Holds s)
    (hmould : v.mould = w.mould) (h : w.Agrees s) : v.Matches (GeneNode.Retains src.HasData) w := by
  induction h generalizing v with
  | @node id sid content theirs parts others hvariant hvalue hlabels hbelow ih =>
    obtain ⟨id', mine, old⟩ := v
    by_cases hc : mine.gene.isCollection = true
    · exact .of_mould_collection GeneNode.Retains.refl hv hw hc
        (fun _ => .of_blank (not_data_of_collection hc)) hmould
    rw [Bool.not_eq_true] at hc
    obtain ⟨rfl, hblank, -, hparts⟩ := alikeNodes hv hw hmould
    have hc' : content.gene.isCollection = false := isCollection_of_blank hblank ▸ hc
    have hc'' : theirs.gene.isCollection = false := Gene.isCollection_of_variant hvariant ▸ hc'
    have hlen := length_of_labels hlabels
    simp only [valueParts, hc', hc'', Bool.false_eq_true, if_false] at hlen ih
    refine .plain hc hc' ⟨hblank.symm, fun value hdata => .inr ⟨sid, theirs, hs.get?_node, ?_⟩⟩ ?_
    · exact Gene.data_of_carries hvariant hvalue hdata
    · refine forall₂_of_mem (hparts hc) fun p hp q hq hpq => ?_
      obtain ⟨r, hr, rfl⟩ := exists_mem_zip_left hlen hq
      exact ih r hr (hv.part hp) (hw.part hq) (hs.parts.each _ (List.of_mem_zip hr).2) hpq

/-- What a part keeps, the whole keeps. -/
theorem Matches.plug {Q : GeneNode → GeneNode → Prop} (hQ : ∀ n, Q n n) {hs : List Hole}
    (h : v.Matches Q w) : (plug hs v).Matches Q (plug hs w) := by
  induction hs with
  | nil => exact h
  | cons hole hs ih => exact ih.part hQ

end GeneTerm

namespace Protects

variable {m : Type → Type} [Monad m] [Outcomes m] {α : Type} {S S' : String → Prop} {t : GeneTree}
  {v : GeneTerm} {x : ExceptT GeneError (StateT GeneTree m) α}

theorem mono (hS : ∀ value, S value → S' value) (h : Protects S x t v) : Protects S' x t v := by
  refine Ensures.mono h ?_
  rintro r u ⟨w, hw⟩
  exact ⟨w, hw.toRefills, hw.outer.mono fun _ _ _ => GeneNode.Retains.mono hS⟩

theorem plug {hs : List Hole} (h : Protects S x t v) (hv : t.Holds (plug hs v))
    (hplain : ∀ h ∈ hs, h.content.gene.isCollection = false) : Protects S x t (GeneTree.plug hs v) := by
  induction hs with
  | nil => exact h
  | cons hole hs ih =>
    obtain ⟨hc, hplain⟩ := List.forall_mem_cons.mp hplain
    have hmem : GeneTree.plug hs v ∈ hole.before ++ GeneTree.plug hs v :: hole.after := by simp
    exact (ih (hv.parts.each _ hmem) hplain).of_part hv hmem hc

end Protects

namespace Edit

variable {S : String → Prop} {t src : GeneTree} {v s : GeneTerm}

theorem protects_copyFrom (ht : t.FreeExact) (hv : t.Holds v) (hs : src.Holds s) :
    Protects src.HasData (copyFrom v.id src s.id) t v := by
  cases h : t.assessCopy v.id src s.id with
  | error e =>
    refine (ensures_copyFrom_error h).mono ?_
    rintro r u ⟨-, rfl⟩
    exact ⟨v, .refl ht hv⟩
  | ok =>
    refine (ensures_copyFrom_agrees ht hv hs h).mono ?_
    rintro r u ⟨-, w, hagrees, hw⟩
    exact ⟨w, hw, .of_agrees hv.shaped hw.holds.shaped hs hw.mould.symm hagrees⟩

theorem protects_copyIfFits (ht : t.FreeExact) (hv : t.Holds v) (hs : src.Holds s) :
    Protects src.HasData (copyIfFits v.id src s.id) t v := by
  have hdone : Protects src.HasData (do copyFrom v.id src s.id; return true : Edit Bool) t v :=
    (protects_copyFrom ht hv hs).bind fun _ u w hw => .pure hw.frame.exact hw.holds _
  refine Ensures.tryCatch hdone (fun a u hu => hu) fun e u hu => ?_
  split
  · exact Ensures.pure hu
  · exact Ensures.pure hu
  · exact Ensures.pure hu
  · exact Ensures.throw hu

theorem protects_assignDecoded (ht : t.FreeExact) (hv : t.Holds v) (value : Scalar) :
    Protects S (assignDecoded v.id value) t v := by
  obtain ⟨id, ⟨name, gene, parent⟩, parts⟩ := v
  refine Protects.after_gene ht hv views_query ?_
  cases gene
  case string old min max =>
    have hset : ∀ text, Protects S (update (·.setGene id (.string text min max))) t (.node id _ parts) :=
      fun text => .of_setGene (ensures_update rfl) ht hv rfl rfl fun h => by cases h
    change Protects S (if _ then _ else _) t _
    split
    · exact (hset _).bind fun _ u w hw => .pure hw.frame.exact hw.holds _
    · exact .pure ht hv _
  all_goals exact .pure ht hv _

theorem not_data_of_assign? {n : GeneNode} {fresh : Gene} {value : Scalar}
    (h : n.gene.assign? value = some fresh) : n.variant ≠ .immutableData := by
  intro hdata
  obtain ⟨name, gene, parent⟩ := n
  cases gene <;> simp only [GeneNode.variant, Gene.variant, reduceCtorEq] at hdata
  cases h

theorem protects_assignFrom (ht : t.FreeExact) (hv : t.Holds v) (srcId : NodeId) :
    Protects S (assignFrom v.id src srcId) t v := by
  refine Protects.after_view ht hv views_query fun value _ => ?_
  cases value with
  | none => exact .pure ht hv _
  | some value =>
    obtain ⟨id, content, parts⟩ := v
    have hgene : t.gene id = .ok content.gene := gene_of_get? hv.get?_node
    refine Protects.after_view ht hv views_query fun g hg => ?_
    obtain rfl : content.gene = g := Except.ok.inj (hgene.symm.trans hg)
    split
    · next data hdata =>
      have hshaped := hv.shaped
      rw [Shaped, hdata] at hshaped
      obtain ⟨p, rfl, rfl⟩ := List.map_eq_singleton_iff.mp hshaped.1
      have hc : content.gene.isCollection = false := hdata ▸ rfl
      exact (protects_assignDecoded ht (hv.parts.each p (by simp)) value).of_part hv (by simp) hc
    · split
      · next fresh hfresh =>
        obtain ⟨hvaries, hc⟩ := Gene.varies_of_assign? hfresh
        have hset : Protects S (update (·.setGene id fresh)) t (.node id content parts) :=
          .of_setGene (ensures_update rfl) ht hv hvaries.blank hc (not_data_of_assign? hfresh)
        exact hset.bind fun _ u w hw => .pure hw.frame.exact hw.holds _
      · exact .pure ht hv _

theorem protects_adoptInner (ht : t.FreeExact) (hv : t.Holds v) (hs : src.Holds s) :
    Protects src.HasData (adoptInner v.id src s.id) t v := by
  refine Protects.after_view ht hv views_query fun target _ => ?_
  refine Protects.after_view ht hv views_query fun source _ => ?_
  split
  · exact protects_copyIfFits ht hv hs
  · split
    · exact .pure ht hv _
    · exact protects_assignFrom ht hv _

theorem protects_setActive (ht : t.FreeExact) (hv : t.Holds v) (on : Bool) :
    Protects S (setActive v.id on) t v := by
  obtain ⟨id, ⟨name, gene, parent⟩, parts⟩ := v
  refine ensures_query_bind (node_of_get? hv.get?_id) ?_
  cases gene
  case optional inner active =>
    exact Protects.of_setGene (ensures_update rfl) ht hv rfl rfl fun h => by cases h
  all_goals exact Protects.throw ht hv _

/-- What a gene takes over may be immutable data of the source, and is put in the place of immutable data
only. -/
theorem protects_adopt (ht : t.FreeExact) (hv : t.Holds v) (hs : src.Holds s) :
    Protects src.HasData (adopt v.id src s.id) t v := by
  have hinto : ∀ inner, t.coreNode v.id = .ok inner →
      Protects src.HasData (adoptInner inner src s.id) t v := by
    intro inner hinner
    rw [hv.coreNode, Except.ok.injEq] at hinner
    subst hinner
    obtain ⟨hs', hplug, hplain⟩ := exists_plug_core hv.shaped
    have hlow : t.Holds (GeneTree.plug hs' v.core) := hplug ▸ hv
    have hcore := (protects_adoptInner ht hv.core hs).plug hlow hplain
    rwa [← hplug] at hcore
  refine Protects.after_view ht hv views_query fun target _ => ?_
  refine Protects.after_view ht hv views_query fun source _ => ?_
  split
  · exact protects_copyIfFits ht hv hs
  · split
    · refine Protects.after_view ht hv views_query fun inner hinner => ?_
      refine (hinto inner hinner).bind fun adopted u w hw => ?_
      have hset := protects_setActive (S := src.HasData) hw.frame.exact hw.holds true
      rw [hw.same_id] at hset
      cases adopted with
      | true => exact hset.bind fun _ u w hw => .pure hw.frame.exact hw.holds _
      | false => exact .pure hw.frame.exact hw.holds _
    · exact Protects.after_view ht hv views_query hinto
    · exact protects_adoptInner ht hv hs

variable {x y : NodeId} {n m : GeneNode} {value : String}

theorem ensures_copyFrom_data {value' : String} (hx : t.get? x = some n) (hn : n.gene = .immutableData value)
    (hy : src.get? y = some m) (hm : m.gene = .immutableData value') :
    Ensures (copyFrom x src y) t fun r u => r = .ok () ∧ u = t.setGene x (.immutableData value') := by
  obtain ⟨d, hd⟩ : ∃ d, t.pairBound src = d + 1 :=
    Nat.exists_eq_succ_of_ne_zero (Nat.mul_ne_zero (Nat.succ_ne_zero _) (Nat.succ_ne_zero _))
  have hassess : t.assessCopy x src y = .ok () := by
    rw [assessCopy, hd, assessCopyWithin, node_of_get? hx, node_of_get? hy]
    change (if n.gene.variant ≠ m.gene.variant then _ else _) = _
    rw [hn, hm]
    rfl
  refine ensures_query_bind hassess (Ensures.get_bind ?_)
  rw [hd]
  refine ensures_query_bind ((gene_of_get? hy).trans (congrArg _ hm)) ?_
  refine ensures_query_bind ((gene_of_get? hx).trans (congrArg _ hn)) ?_
  refine Ensures.bind_ok (P := fun _ u => u = t.setGene x (.immutableData value'))
    (ensures_update ⟨(), rfl, rfl⟩) ?_
  rintro - u rfl
  exact Ensures.pure ⟨rfl, rfl⟩

/-- Immutable data takes over other immutable data, and nothing else. -/
theorem run_adopt_data (hx : t.get? x = some n) (hn : n.gene = .immutableData value)
    (hy : src.get? y = some m) :
    (adopt x src y).run.run t = .ok (if m.variant = .immutableData then (.ok true, t.setGene x m.gene)
      else (.ok false, t)) := by
  have htarget : t.variant x = .ok .immutableData := by
    rw [GeneTree.variant, node_of_get? hx]
    exact congrArg (fun g : Gene => Except.ok g.variant) hn
  have hsource : src.variant y = .ok m.variant := by
    rw [GeneTree.variant, node_of_get? hy]
    rfl
  suffices h : Ensures (adopt x src y) t fun r u =>
      (r, u) = if m.variant = .immutableData then (.ok true, t.setGene x m.gene) else (.ok false, t) by
    obtain ⟨⟨⟨r, u⟩, hrun⟩, hall⟩ := h
    rw [← hall r u hrun, hrun]
  refine ensures_query_bind htarget (ensures_query_bind hsource ?_)
  by_cases hdata : m.variant = .immutableData
  · obtain ⟨value', hm⟩ : ∃ value', m.gene = .immutableData value' := by
      cases hgene : m.gene <;> simp only [GeneNode.variant, hgene, Gene.variant, reduceCtorEq] at hdata
      exact ⟨_, rfl⟩
    have hcopy : adoptsByCopy .immutableData m.variant = true := by rw [hdata]; rfl
    rw [if_pos hdata, if_pos hcopy, hm]
    refine Ensures.tryCatch (P := fun r u => r = .ok true ∧ u = t.setGene x (.immutableData value')) ?_ ?_ ?_
    · refine Ensures.bind_ok (P := fun _ u => u = t.setGene x (.immutableData value'))
        ((ensures_copyFrom_data hx hn hy hm).mono ?_) ?_
      · rintro r u ⟨rfl, rfl⟩
        exact ⟨(), rfl, rfl⟩
      · rintro - u rfl
        exact Ensures.pure ⟨rfl, rfl⟩
    · rintro r u ⟨hr, rfl⟩
      rw [hr]
    · rintro e u ⟨he, -⟩
      cases he
  · have hcopy : ¬ adoptsByCopy .immutableData m.variant = true := by
      simp [adoptsByCopy, Ne.symm hdata]
    rw [if_neg hdata, if_neg hcopy]
    refine ensures_query_bind htarget (ensures_query_bind hsource ?_)
    rw [if_neg hcopy]
    exact Ensures.pure rfl

end Edit

/-- Does a tree consist of a term that has kept what there is of `v` outside of members, immutable data apart
that has got one of `S`? -/
def GeneTree.RetainsData (S : String → Prop) (v : GeneTerm) (t : GeneTree) : Prop :=
  ∃ w, t.Unfolds w ∧ v.Matches (GeneNode.Retains S) w

namespace TreeCall

variable {γ : Type} {S : String → Prop} {t u : GeneTree} {v : GeneTerm} {id : NodeId}

/-- What a call has to fulfil so that immutable data gets no values but those of `S`: it sets no leaf by
hand, and it takes values from trees with such data only. -/
def Spares (S : String → Prop) : TreeCall → Prop
  | copyFrom _ src _ | adopt _ src _ => src.WellFormed ∧ ∀ value, src.HasData value → S value
  | setLeaf .. => False
  | _ => True

theorem ensures_retainsData {α : Type} {x : RandomEdit γ α} (ht : t.RetainsData S v)
    (hdead : t.get? id = none → Ensures x t fun _ u => u = t)
    (hlive : ∀ p, p.id = id → t.Holds p → Protects S x t p) :
    Ensures x t fun _ u => u.RetainsData S v := by
  cases hid : t.get? id with
  | none =>
    refine (hdead hid).mono ?_
    rintro r u rfl
    exact ht
  | some n =>
    obtain ⟨x, hx, hmatch⟩ := ht
    obtain ⟨hs, p, rfl, hpid, -⟩ := exists_plug (hx.full id (contains_of_get? hid))
    refine Ensures.mono (hlive p hpid hx.holds.of_plug) ?_
    rintro r u ⟨w, hw⟩
    exact ⟨plug hs w, hx.becomes (hw.becomes.plug hx.holds),
      hmatch.trans (fun _ _ _ => GeneNode.Retains.trans) (hw.outer.plug GeneNode.Retains.refl)⟩

/-- The like for a step that reads a second tree. -/
theorem ensures_retainsData_from {α : Type} {x : Edit α} {src : GeneTree} {srcId : NodeId}
    (ht : t.RetainsData S v) (hsrc : src.WellFormed) (hS : ∀ value, src.HasData value → S value)
    (hdead : t.get? id = none ∨ src.get? srcId = none → Ensures x t fun _ u => u = t)
    (hlive : ∀ p s, p.id = id → s.id = srcId → t.Holds p → src.Holds s → Protects src.HasData x t p) :
    Ensures (RandomEdit.lift x : RandomEdit γ α) t fun _ u => u.RetainsData S v := by
  cases hsid : src.get? srcId with
  | none =>
    refine (RandomEdit.ensures_lift (hdead (.inr hsid))).mono ?_
    rintro r u rfl
    exact ht
  | some n =>
    obtain ⟨s, hsx, hs, -⟩ := hsrc.exists_term hsid
    refine ensures_retainsData ht (fun h => RandomEdit.ensures_lift (hdead (.inl h))) fun p hpid hp => ?_
    exact RandomEdit.ensures_lift ((hlive p s hpid hsx hp hs).mono hS)

variable [RandomSource γ]

theorem ensures_perform_retainsData (call : TreeCall) (ht : t.RetainsData S v) (hcall : call.Spares S) :
    Ensures (call.perform : RandomEdit γ Unit) t fun _ u => u.RetainsData S v := by
  have hfree : t.FreeExact := by
    obtain ⟨w, hw, -⟩ := ht
    exact hw.exact
  cases call with
  | randomize id forceNew =>
    refine ensures_retainsData ht (fun h => randomize_dead h forceNew) ?_
    rintro p rfl hp
    exact RandomEdit.protects_randomize hfree hp forceNew
  | mutate c steering id =>
    refine Ensures.map (ensures_retainsData ht (fun h => mutate_dead h c steering) ?_)
    rintro p rfl hp
    exact RandomEdit.protects_mutate hfree hp c steering
  | copyFrom id src srcId =>
    refine ensures_retainsData_from ht hcall.1 hcall.2 copyFrom_dead ?_
    rintro p s rfl rfl hp hs
    exact Edit.protects_copyFrom hfree hp hs
  | adopt id src srcId =>
    refine Ensures.map (ensures_retainsData_from ht hcall.1 hcall.2 adopt_dead ?_)
    rintro p s rfl rfl hp hs
    exact Edit.protects_adopt hfree hp hs
  | setLeaf id g => exact hcall.elim
  | setActive id on =>
    refine ensures_retainsData ht (fun h => RandomEdit.ensures_lift (setActive_dead h on)) ?_
    rintro p rfl hp
    exact RandomEdit.ensures_lift (Edit.protects_setActive hfree hp on)

theorem retainsData_of_leaveAll {calls : List TreeCall} (ht : t.RetainsData S v)
    (hcalls : ∀ call ∈ calls, call.Spares S) (h : Gives (leaveAll calls t : Draw γ GeneTree) u) :
    u.RetainsData S v :=
  preserved_by_leaveAll ht
    (fun call hcall _ ht => ensures_perform_retainsData call ht (hcalls call hcall)) h

/-- Immutable data outside of members stays where it is over every run of calls that sets no leaf by hand. Its
value stays, too, unless it takes over one that a source of the run holds as immutable data, and a value of any
other kind is refused. -/
theorem immutable_data_after_calls {calls : List TreeCall} {s s' : γ} {x : NodeId} {n : GeneNode}
    {value : String} (ht : t.WellFormed) (hsrc : ∀ call ∈ calls, ∀ src ∈ call.source?, src.WellFormed)
    (hcalls : ∀ call ∈ calls, ∀ id g, call ≠ .setLeaf id g) (h : leaveAll calls t s = .ok (u, s'))
    (hx : t.get? x = some n) (hn : n.gene = .immutableData value) (hmember : ¬ t.InMember t.root x) :
    ∃ value', u.get? x = some { n with gene := .immutableData value' } ∧
      (value' = value ∨ ∃ call ∈ calls, ∃ src ∈ call.source?, src.HasData value') ∧
      ∀ src y m, src.get? y = some m → (Edit.adopt x src y).run.run u =
        .ok (if m.variant = .immutableData then (.ok true, u.setGene x m.gene) else (.ok false, u)) := by
  obtain ⟨v, hv⟩ := ht.unfolds
  have hspares : ∀ call ∈ calls,
      call.Spares fun value => ∃ call ∈ calls, ∃ src ∈ call.source?, src.HasData value := by
    intro call hcall
    cases call with
    | randomize | mutate | setActive => trivial
    | copyFrom id src srcId | adopt id src srcId =>
      exact ⟨hsrc _ hcall src rfl, fun value hdata => ⟨_, hcall, src, rfl, hdata⟩⟩
    | setLeaf id g => exact hcalls _ hcall id g rfl
  obtain ⟨w, hw, hmatch⟩ :=
    retainsData_of_leaveAll ⟨v, hv, .refl GeneNode.Retains.refl v⟩ hspares ⟨s, s', h⟩
  rw [← hv.root] at hmember
  obtain ⟨k, hk⟩ := hv.holds.exists_outer (hv.full x (contains_of_get? hx)) hmember
  have hkept := hv.holds.kept (mem_nodes_of_mem_outer hk)
  rw [hx, Option.some.injEq] at hkept
  subst hkept
  obtain ⟨k, hk, hretains⟩ := hmatch.exists_of_mem hk
  obtain ⟨value', rfl, hvalue⟩ := hretains.exists_value hn
  have hux := hw.holds.kept (mem_nodes_of_mem_outer hk)
  exact ⟨value', hux, hvalue, fun src y m hy => Edit.run_adopt_data hux rfl hy⟩

theorem not_inMember_of_plain {top x : NodeId}
    (h : t.slots.all (·.all fun n => !n.gene.isCollection) = true) : ¬ t.InMember top x := by
  rintro ⟨owner, n, member, -, hn, hc, -⟩
  rw [get?, Option.join_eq_some_iff] at hn
  have hall := Array.all_eq_true_iff_forall_mem.mp h _ (Array.mem_of_getElem? hn)
  simp [hc] at hall

/-- A row whose key exists already is drawn anew and mutated, and refuses a text for the key. -/
theorem immutable_data_after_calls_of_row :
    ∃ (u : GeneTree) (s : WordSource), leaveAll [.randomize ⟨0⟩ true, .mutate {} .uniform ⟨0⟩]
        (object "row" [immutable "id" "7", integer "n"]) ⟨[], 8⟩ = .ok (u, s) ∧
      u.get? ⟨1⟩ = some ⟨"id", .immutableData "7", some ⟨0⟩⟩ ∧
      (Edit.adopt ⟨1⟩ (string "text") ⟨0⟩).run.run u = .ok (.ok false, u) := by
  have hbuilt : Built (object "row" [immutable "id" "7", integer "n"]) :=
    .object "row" (List.forall_mem_cons.mpr ⟨.immutable "id" "7", List.forall_mem_singleton.mpr (.integer "n")⟩)
  have hends : (leaveAll [.randomize ⟨0⟩ true, .mutate {} .uniform ⟨0⟩]
      (object "row" [immutable "id" "7", integer "n"]) (⟨[], 8⟩ : WordSource)).map (fun _ => ()) = .ok () := by
    decide +kernel
  cases hleave : leaveAll [.randomize ⟨0⟩ true, .mutate {} .uniform ⟨0⟩]
      (object "row" [immutable "id" "7", integer "n"]) (⟨[], 8⟩ : WordSource) with
  | error e =>
    rw [hleave] at hends
    cases hends
  | ok r =>
    obtain ⟨u, s⟩ := r
    have hid : (object "row" [immutable "id" "7", integer "n"]).get? ⟨1⟩ =
        some ⟨"id", .immutableData "7", some ⟨0⟩⟩ := by decide +kernel
    obtain ⟨value, hvalue, hsource, hadopt⟩ := immutable_data_after_calls hbuilt.wellFormed
      (by simp [source?]) (by simp) hleave hid rfl (not_inMember_of_plain (by decide +kernel))
    obtain rfl : value = "7" := hsource.resolve_right (by simp [source?])
    exact ⟨u, s, rfl, hvalue, hadopt (string "text") ⟨0⟩ _ rfl⟩

/-- Immutable data does take over other immutable data. -/
theorem adopt_alters_data :
    (immutable "n" "7").WellFormed ∧ (immutable "n" "7").gene ⟨0⟩ = .ok (.immutableData "7") ∧
      ¬ (immutable "n" "7").InMember ⟨0⟩ ⟨0⟩ ∧
      (Edit.adopt ⟨0⟩ (immutable "n" "8") ⟨0⟩).run.run (immutable "n" "7") =
        .ok (.ok true, immutable "n" "8") :=
  ⟨(Built.immutable "n" "7").wellFormed, rfl, not_inMember_of_plain (by decide +kernel), by decide +kernel⟩

end TreeCall

end CallEvolution
