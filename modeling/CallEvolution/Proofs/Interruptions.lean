import CallEvolution.Linking.Sequence
import CallEvolution.Proofs.Construction
import CallEvolution.Proofs.Refusals
import CallEvolution.Proofs.SecondPass
import CallEvolution.Random.Words

/-! Passes over the links of any individual. A link takes effect or leaves the individual alone, and a pass
that does not come to its end has stopped at a value that the next target refuses. -/

namespace CallEvolution

open GeneTerm GeneTree GeneError

/-- Is an error a refusal of a gene? -/
def ActionError.IsRefusal : ActionError → Prop
  | .gene e => e.IsRefusal
  | _ => False

namespace Action

theorem setGene_self {a : Action} {i : Nat} {p : Parameter} (h : a.param? i = some p) :
    a.setGene i p.gene = a := by
  have hparams : a.params.modify i (fun q => { q with gene := p.gene }) = a.params := by
    refine List.ext_getElem? fun j => ?_
    rw [List.getElem?_modify]
    by_cases hj : i = j
    · subst hj
      rw [param?] at h
      simp [h]
    · simp [hj]
  rw [setGene, hparams]

end Action

namespace Individual

variable {ind u : Individual} {id : ActionId} {i : Nat} {t : GeneTree} {l : Link}

theorem modifyFirst_eq_self {f : Action → Action} {a : Action} {as : List Action}
    (h : as.find? (·.id = id) = some a) (hf : f a = a) : modifyFirst id f as = as := by
  induction as with
  | nil => rfl
  | cons b as ih =>
    rw [modifyFirst]
    by_cases hb : b.id = id
    · rw [List.find?_cons_of_pos (by simpa using hb), Option.some.injEq] at h
      rw [if_pos hb, h, hf]
    · rw [List.find?_cons_of_neg (by simpa using hb)] at h
      rw [if_neg hb, ih h]

/-- A parameter that is given the tree that it has. -/
theorem setGene_self (h : ind.gene id i = .ok t) : ind.setGene id i t = ind := by
  obtain ⟨a, p, ha, hp, rfl⟩ := gene_eq_ok_iff.mp h
  have hself := Action.setGene_self hp
  rw [action?, actions, List.find?_append] at ha
  rw [setGene, modifyAction]
  split
  · next hany =>
    have hinit : ind.init.find? (·.id = id) = some a := by
      have hsome : (ind.init.find? (·.id = id)).isSome = true := by
        rw [List.find?_isSome]
        exact List.any_eq_true.mp hany
      obtain ⟨b, hb⟩ := Option.isSome_iff_exists.mp hsome
      rw [hb] at ha ⊢
      exact ha
    rw [modifyFirst_eq_self hinit hself]
  · next hany =>
    have hnone : ind.init.find? (·.id = id) = none := by
      rw [List.find?_eq_none]
      exact fun b hb hid => hany (List.any_eq_true.mpr ⟨b, hb, hid⟩)
    rw [hnone] at ha
    rw [modifyFirst_eq_self ha hself]

theorem exists_gene_setGene {id' : ActionId} {j : Nat} (h : ∃ s, ind.gene id' j = .ok s) :
    ∃ s, (ind.setGene id i t).gene id' j = .ok s := by
  obtain ⟨s, hs⟩ := h
  by_cases hsame : (id', j) = (id, i)
  · obtain ⟨rfl, rfl⟩ := Prod.mk.inj hsame
    exact ⟨t, gene_setGene_self hs⟩
  · exact ⟨s, by rw [gene_setGene_of_ne hsame, hs]⟩

theorem wellFormed_setGene (htrees : ∀ id i s, ind.gene id i = .ok s → s.WellFormed) (ht : t.WellFormed) :
    ∀ id' j s, (ind.setGene id i t).gene id' j = .ok s → s.WellFormed := by
  intro id' j s hs
  by_cases hsame : (id', j) = (id, i)
  · obtain ⟨rfl, rfl⟩ := Prod.mk.inj hsame
    obtain ⟨s', hs'⟩ := exists_gene_of_setGene hs
    rw [gene_setGene_self hs', Except.ok.injEq] at hs
    exact hs ▸ ht
  · exact htrees id' j s (gene_setGene_of_ne hsame ▸ hs)

/-- The value at the source of a link is a term of its own. -/
theorem exists_holds_of_sourceValue (htrees : ∀ id i s, ind.gene id i = .ok s → s.WellFormed)
    {src : GeneTree} (h : ind.sourceValue? l = some src) : ∃ s, s.id = src.root ∧ src.Holds s := by
  rw [sourceValue?] at h
  split at h
  · next t ht =>
    cases hsrc : t.extract l.source.node with
    | error e =>
      rw [hsrc] at h
      cases h
    | ok copy =>
      rw [hsrc] at h
      cases h
      obtain ⟨n, hn⟩ := live_of_extract hsrc
      obtain ⟨p, hpid, hp, -⟩ := (htrees _ _ t ht).exists_term hn
      obtain ⟨copy, f, hcopy, hunfolds⟩ := hp.extract
      rw [hpid, hsrc, Except.ok.injEq] at hcopy
      subst hcopy
      exact ⟨_, hunfolds.root, hunfolds.holds⟩
  · cases h

end Individual

namespace Revision

variable {γ : Type} {ind : Individual} {l : Link} {ls : List Link} {t : GeneTree}

/-- A link takes effect or leaves the individual alone. -/
theorem exists_answer (htrees : ∀ id i s, ind.gene id i = .ok s → s.WellFormed)
    (htarget : ind.gene l.target.action l.target.param = .ok t) :
    ∃ r u, Yields (applyLink l : Revision γ Bool) ind r u ∧ FailsWith ActionError.IsRefusal r ∧
      (r ≠ .ok true → u = ind) ∧
      ∃ t', t'.WellFormed ∧ u = ind.setGene l.target.action l.target.param t' := by
  have ht := htrees _ _ t htarget
  have hsame : ∃ t', t'.WellFormed ∧ ind = ind.setGene l.target.action l.target.param t' :=
    ⟨t, ht, (Individual.setGene_self htarget).symm⟩
  -- a target that is gone makes a link idle
  have hidle : ∀ src, ind.sourceValue? l = some src → t.contains l.target.node = false →
      Yields (applyLink l : Revision γ Bool) ind (.ok false) ind := by
    intro src hsrc hdead
    refine Yields.bind_ok (yields_get ind) ?_
    rw [hsrc]
    refine Yields.bind_ok (yields_query htarget) ?_
    rw [hdead]
    exact yields_pure false ind
  cases hsrc : ind.sourceValue? l with
  | none =>
    refine ⟨.ok false, ind, Yields.bind_ok (yields_get ind) ?_, .ok _, fun _ => rfl, hsame⟩
    rw [hsrc]
    exact yields_pure false ind
  | some src =>
    obtain ⟨s, hroot, hs⟩ := Individual.exists_holds_of_sourceValue htrees hsrc
    cases hlive : t.contains l.target.node with
    | false => exact ⟨.ok false, ind, hidle src hsrc hlive, .ok _, fun _ => rfl, hsame⟩
    | true =>
      obtain ⟨n, hn⟩ := Option.isSome_iff_exists.mp hlive
      obtain ⟨p, hpid, hp, hkeep⟩ := ht.exists_term hn
      have hrun := (Edit.keeps_adopt ht.exact hp hs).and (Edit.answers_adopt ht.exact hp hs)
      rw [hpid, hroot] at hrun
      obtain ⟨⟨r, u⟩, hr⟩ := hrun.1
      obtain ⟨⟨w, hw⟩, hfails, hu⟩ := hrun.2 r u hr
      refine ⟨_, _, yields_applyLink hsrc htarget hlive hr, ?_, ?_, u, hkeep u w hw.becomes, rfl⟩
      · intro e he
        cases r with
        | ok b => cases he
        | error e' =>
          cases he
          exact hfails e' rfl
      · intro hne
        have hr' : r ≠ .ok true := by
          rintro rfl
          exact hne rfl
        rw [hu hr']
        exact Individual.setGene_self htarget

/-- A pass comes to its end, or stops at the first link whose target refuses the value. -/
theorem exists_applyAll (htrees : ∀ id i s, ind.gene id i = .ok s → s.WellFormed)
    (htargets : ∀ l ∈ ls, ∃ t, ind.gene l.target.action l.target.param = .ok t) :
    (∃ n u, Yields (applyAll ls : Revision γ Nat) ind (.ok n) u) ∨
      ∃ pre l post n u e, ls = pre ++ l :: post ∧ GeneError.IsRefusal e ∧
        Yields (applyAll ls : Revision γ Nat) ind (.error (.gene e)) u ∧
        Yields (applyAll pre : Revision γ Nat) ind (.ok n) u ∧
        Yields (applyLink l : Revision γ Bool) u (.error (.gene e)) u := by
  induction ls generalizing ind with
  | nil => exact .inl ⟨0, ind, yields_pure 0 ind⟩
  | cons l ls ih =>
    obtain ⟨⟨t, htarget⟩, hrest⟩ := List.forall_mem_cons.mp htargets
    obtain ⟨r, s, hstep, hfails, hidle, t', ht', hs⟩ := exists_answer (γ := γ) htrees htarget
    cases r with
    | error e =>
      -- the first refusal ends the pass, with the individual as the links before it have left it
      have hind : s = ind := hidle (by simp)
      have hrefusal := hfails e rfl
      cases e with
      | gene e =>
        refine .inr ⟨[], l, ls, 0, ind, e, rfl, hrefusal, ?_, yields_pure 0 ind, ?_⟩
        · exact Yields.bind_error (hind ▸ hstep)
        · exact hind ▸ hstep
      | _ => cases hrefusal
    | ok applied =>
      have htrees' : ∀ id i t, s.gene id i = .ok t → t.WellFormed := by
        rw [hs]
        exact Individual.wellFormed_setGene htrees ht'
      have htargets' : ∀ k ∈ ls, ∃ t, s.gene k.target.action k.target.param = .ok t := by
        rw [hs]
        exact fun k hk => Individual.exists_gene_setGene (hrest k hk)
      rcases ih htrees' htargets' with ⟨n, u, hu⟩ | ⟨pre, k, post, n, u, e, rfl, he, hu, hpre, hk⟩
      · exact .inl ⟨_, u, hstep.applyAll_cons hu⟩
      · refine .inr ⟨l :: pre, k, post, _, u, e, rfl, he, ?_, hstep.applyAll_cons hpre, hk⟩
        exact hstep.bind_ok hu.bind_error

/-- A pass over the links comes to its end, or stops at a link for which a part of its target is of another
variant than the part of the source, or for which the source has no text. The links before it have been
applied then, and those behind it have not. -/
theorem sync_ends_or_stops (htrees : ∀ a ∈ ind.actions, ∀ p ∈ a.params, p.gene.WellFormed)
    (htargets : ∀ l ∈ ind.links, ∃ t, ind.gene l.target.action l.target.param = .ok t) :
    (∃ n u, Yields (sync : Revision γ Nat) ind (.ok n) u) ∨
      ∃ pre l post n u e, ind.links = pre ++ l :: post ∧ GeneError.IsRefusal e ∧
        Yields (sync : Revision γ Nat) ind (.error (.gene e)) u ∧
        Yields (applyAll pre : Revision γ Nat) ind (.ok n) u ∧
        Yields (applyLink l : Revision γ Bool) u (.error (.gene e)) u := by
  have htrees' : ∀ id i t, ind.gene id i = .ok t → t.WellFormed := fun id i t ht =>
    Individual.wellFormed_of_gene htrees ht
  rcases exists_applyAll (γ := γ) htrees' htargets with
    ⟨n, u, hu⟩ | ⟨pre, l, post, n, u, e, hlinks, he, hu, hpre, hl⟩
  · exact .inl ⟨n, u, (yields_get ind).bind_ok hu⟩
  · exact .inr ⟨pre, l, post, n, u, e, hlinks, he, (yields_get ind).bind_ok hu, hpre, hl⟩

/-- The key of a row cannot be the key of another one that is a text. -/
theorem sync_ends_or_stops_of_keys :
    let row (id : Nat) (inner : GeneTree) : Action :=
      ⟨⟨id⟩, "row", .rpc "shop" "row", [⟨"key", .path, primaryKey "key" "rows" inner 1⟩], true⟩
    let l : Link := ⟨⟨⟨1⟩, 0, ⟨0⟩⟩, ⟨⟨2⟩, 0, ⟨0⟩⟩, .params⟩
    let ind := { Individual.new .random 0 with
      main := [row 1 (integer "key"), row 2 (string "key")], links := [l] }
    ∃ pre l post n u e, ind.links = pre ++ l :: post ∧ GeneError.IsRefusal e ∧
      Yields (sync : Revision WordSource Nat) ind (.error (.gene e)) u ∧
      Yields (applyAll pre : Revision WordSource Nat) ind (.ok n) u ∧
      Yields (applyLink l : Revision WordSource Bool) u (.error (.gene e)) u := by
  intro row l ind
  have htrees : ∀ a ∈ ind.actions, ∀ p ∈ a.params, p.gene.WellFormed := by
    have hkey : ∀ t, Built t → (primaryKey "key" "rows" t 1).WellFormed := fun t ht =>
      (Built.primaryKey "key" "rows" 1 ht).wellFormed
    simp [ind, row, Individual.actions, Individual.new]
    exact ⟨hkey _ (.integer "key"), hkey _ (.string "key")⟩
  have htargets : ∀ l ∈ ind.links, ∃ t, ind.gene l.target.action l.target.param = .ok t := by
    simp [ind]
    exact ⟨_, rfl⟩
  have hstops : ((sync : Revision WordSource Nat).run.run ind ⟨[], 1⟩).map (fun r => r.1.1) =
      .ok (.error (.gene (.variantMismatch .string .integer))) := by decide +kernel
  rcases sync_ends_or_stops (γ := WordSource) htrees htargets with ⟨n, u, hu⟩ | h
  · rw [hu ⟨[], 1⟩] at hstops
    cases hstops
  · exact h

/-- Two calls with an array each are linked and get random values. The pass over the links stops at the
elements of the first array, which are no texts. -/
theorem sync_stops_at_elements :
    let body (item : GeneTree) : Parameter :=
      ⟨"body", .body, object "body" [integerIn "count" 0 9, array "tags" item 2]⟩
    let call (id : Nat) (item : GeneTree) : Action := ⟨⟨id⟩, "call", .rpc "shop" "call", [body item], true⟩
    let ind := { Individual.new .random 0 with
      main := [call 1 (integerIn "tag" 0 9), call 2 (string "tag")], nextId := 3 }
    let run : Draw WordSource (Except ActionError Nat) := do
      let (_, linked) ← (({} : Linker).linkAll : Linking WordSource Nat).run.run ind
      let (_, drawn) ← (randomize : Revision WordSource Unit).run.run linked
      let (r, _) ← (sync : Revision WordSource Nat).run.run drawn
      return r
    (run ⟨[], 1⟩).map Prod.fst = .ok (.error (.gene (.variantMismatch .string .integer))) := by
  decide +kernel

end Revision
end CallEvolution
