import CallEvolution.Proofs.Differences
import CallEvolution.Proofs.Domains
import CallEvolution.Proofs.TotalSearch
import CallEvolution.Random.Words

/-! Mutations that take effect. A leaf that can change and is not drawn anew gets another value, and a text gets
one however it is mutated, so the gene differs from what it was. -/

namespace CallEvolution

open GeneTerm GeneTree

theorem moveWithin_ne {value delta low high : Int} (hlt : low < high) (hdelta : delta ≠ 0) :
    moveWithin value delta low high ≠ value := by
  simp only [moveWithin, clampInt]
  split_ifs <;> omega

/-- A number that is moved within its bounds becomes another one, and no bound is too far for its width. -/
theorem ofInt32_moveWithin_ne {value min max : Int32} {delta : Int} (hlt : min < max) (hdelta : delta ≠ 0) :
    Int32.ofInt (moveWithin value.toInt delta min.toInt max.toInt) ≠ value := by
  have hbounds := Int32.lt_iff_toInt_lt.mp hlt
  have hne : moveWithin value.toInt delta min.toInt max.toInt ≠ value.toInt := moveWithin_ne hbounds hdelta
  obtain ⟨hlow, hhigh⟩ : min.toInt ≤ moveWithin value.toInt delta min.toInt max.toInt ∧
    moveWithin value.toInt delta min.toInt max.toInt ≤ max.toInt := moveWithin_mem hbounds.le
  have hmin := min.le_toInt
  have hmax := max.toInt_lt
  intro he
  have hvalue := congrArg Int32.toInt he
  rw [Int32.toInt_ofInt_of_le (by omega) (by omega)] at hvalue
  exact hne hvalue

theorem ofInt64_moveWithin_ne {value min max : Int64} {delta : Int} (hlt : min < max) (hdelta : delta ≠ 0) :
    Int64.ofInt (moveWithin value.toInt delta min.toInt max.toInt) ≠ value := by
  have hbounds := Int64.lt_iff_toInt_lt.mp hlt
  have hne : moveWithin value.toInt delta min.toInt max.toInt ≠ value.toInt := moveWithin_ne hbounds hdelta
  obtain ⟨hlow, hhigh⟩ : min.toInt ≤ moveWithin value.toInt delta min.toInt max.toInt ∧
    moveWithin value.toInt delta min.toInt max.toInt ≤ max.toInt := moveWithin_mem hbounds.le
  have hmin := min.le_toInt
  have hmax := max.toInt_lt
  intro he
  have hvalue := congrArg Int64.toInt he
  rw [Int64.toInt_ofInt_of_le (by omega) (by omega)] at hvalue
  exact hne hvalue

namespace Draw

theorem toNat_otherLetter (c : Char) : (otherLetter c).toNat = 97 + c.toNat % 26 := by
  have hvalid : Nat.isValidChar (97 + c.toNat % 26) := .inl (by omega)
  rw [otherLetter, Char.ofNat]
  exact congrArg Char.toNat (dif_pos hvalid)

theorem otherLetter_ne (c : Char) : otherLetter c ≠ c := by
  intro h
  have hnat := congrArg Char.toNat h
  rw [toNat_otherLetter] at hnat
  omega

theorem modify_ne {α : Type} {l : List α} {i : Nat} {f : α → α} (hi : i < l.length) (hf : ∀ a, f a ≠ a) :
    l.modify i f ≠ l := by
  intro h
  have hget := congrArg (fun l => l[i]?) h
  simp [hi] at hget
  exact hf _ hget

variable {γ : Type} [RandomSource γ]

theorem signedStep_ne_zero {max n : Int} (h : Gives (signedStep max : Draw γ Int) n) : n ≠ 0 := by
  obtain ⟨m, hm, h⟩ := gives_of_bind h
  obtain ⟨b, -, h⟩ := gives_of_bind h
  have hmem := integer_mem (.inl (by omega)) hm
  rw [eq_of_gives_pure h]
  cases b <;> simp only [if_true, Bool.false_eq_true, if_false] <;> omega

theorem editText_ne {chars cs : List Char} {edits : List TextEdit}
    (h : Gives (editText chars edits : Draw γ (List Char)) cs) : cs ≠ chars := by
  obtain ⟨letter, -, h⟩ := gives_of_bind h
  obtain ⟨i, -, h⟩ := gives_of_bind h
  split at h
  · obtain ⟨j, hj, h⟩ := gives_of_bind h
    rw [eq_of_gives_pure h]
    intro he
    have hlen := congrArg List.length he
    have hle := (count_mem hj).2
    rw [List.length_append, List.length_cons, List.length_take, List.length_drop] at hlen
    omega
  · obtain ⟨j, hj, h⟩ := gives_of_bind h
    rw [eq_of_gives_pure h]
    intro he
    have hlen := congrArg List.length he
    have hlt := index_lt hj
    rw [List.length_eraseIdx, if_pos hlt] at hlen
    omega
  · obtain ⟨j, hj, h⟩ := gives_of_bind h
    rw [eq_of_gives_pure h]
    refine modify_ne (index_lt hj) fun c => ?_
    split
    · next he => exact he ▸ otherLetter_ne c
    · next hne => exact fun he => hne he.symm

theorem textEdits_ne_nil {length min max : Nat} (hlength : length ≤ max) (hmax : 0 < max) :
    (textEdits length min max).isEmpty = false := by
  unfold textEdits
  by_cases hroom : length < max
  · simp [hroom]
  · have hpos : 0 < length := by omega
    simp [hpos]

/-- A text that may be longer than nothing becomes another one. -/
theorem mutatedText_ne {value s : String} {min max : Nat} {resample : Bool} (hvalue : value.length ≤ max)
    (hmax : 0 < max) (h : Gives (mutatedText value min max resample : Draw γ String) s) : s ≠ value := by
  have hedited : ∀ {s : String}, Gives (if (textEdits value.length min max).isEmpty then pure value
      else do return String.ofList (← editText value.toList (textEdits value.length min max)) :
        Draw γ String) s → s ≠ value := by
    intro s h
    rw [textEdits_ne_nil hvalue hmax, if_neg Bool.false_ne_true] at h
    obtain ⟨cs, hcs, h⟩ := gives_of_bind h
    rw [eq_of_gives_pure h]
    intro he
    refine editText_ne hcs ?_
    rw [← he, String.toList_ofList]
  simp only [mutatedText] at h
  split at h
  · obtain ⟨n, -, h⟩ := gives_of_bind h
    obtain ⟨fresh, -, h⟩ := gives_of_bind h
    split at h
    · next y hy =>
      rw [eq_of_gives_pure h]
      simpa using (Option.filter_eq_some_iff.mp hy).2
    · exact hedited h
  · obtain ⟨fresh, hfresh, h⟩ := gives_of_bind h
    obtain rfl := eq_of_gives_pure hfresh
    exact hedited h

theorem not_gives_chance {p : Double} (hp : p.same 0 = true) : ¬ Gives (chance p : Draw γ Bool) true := by
  rintro ⟨s, s', h⟩
  obtain ⟨s₁, hs⟩ := chance_never hp s
  rw [hs] at h
  cases h

end Draw

namespace Gene

theorem changesByParts_of_allowsChange {g : Gene} (h : g.allowsChange = true) : g.changesByParts = false := by
  cases g <;> simp only [allowsChange, Bool.false_eq_true] at h <;> rfl

/-- A leaf of a kind whose values are told apart exactly, with distinct texts to choose from. -/
def IsPlain : Gene → Prop
  | integer .. | long .. | boolean _ | string .. => True
  | choice values _ => values.Nodup
  | _ => False

end Gene

namespace Draw

variable {γ : Type} [RandomSource γ] {c : MutationSettings} {g k : Gene}

/-- A plain leaf that can change gets another value, if it is not drawn anew. -/
theorem departs_of_mutatedLeaf (hplain : g.IsPlain) (hdomain : g.InDomain) (hallows : g.allowsChange = true)
    (hresample : c.resampleProbability.same 0 = true ∨ g.variant = .string)
    (hk : Gives (mutatedLeaf c g : Draw γ Gene) k) : g.Departs k := by
  obtain ⟨resample, hchance, h⟩ := gives_of_bind hk
  clear hk
  have hkeep : g.variant ≠ .string → resample = false := by
    intro hne
    cases resample with
    | false => rfl
    | true => exact absurd hchance (not_gives_chance (hresample.resolve_right hne))
  cases g
  case integer value min max =>
    dsimp only at h
    rw [hkeep (by simp [Gene.variant]), if_neg Bool.false_ne_true] at h
    obtain ⟨delta, hdelta, h⟩ := gives_of_bind h
    rw [eq_of_gives_pure h]
    exact ⟨rfl, (ofInt32_moveWithin_ne (of_decide_eq_true hallows) (signedStep_ne_zero hdelta)).symm⟩
  case long value min max =>
    dsimp only at h
    rw [hkeep (by simp [Gene.variant]), if_neg Bool.false_ne_true] at h
    obtain ⟨delta, hdelta, h⟩ := gives_of_bind h
    rw [eq_of_gives_pure h]
    exact ⟨rfl, (ofInt64_moveWithin_ne (of_decide_eq_true hallows) (signedStep_ne_zero hdelta)).symm⟩
  case boolean value =>
    rw [eq_of_gives_pure h]
    exact ⟨rfl, fun he => Bool.not_ne_self value he.symm⟩
  case string value min max =>
    obtain ⟨s, hs, h⟩ := gives_of_bind h
    rw [eq_of_gives_pure h]
    exact ⟨rfl, fun he => mutatedText_ne hdomain.2 (of_decide_eq_true hallows) hs he.symm⟩
  case choice values i =>
    have hlen : 1 < values.length := of_decide_eq_true hallows
    have hi : i < values.length := hdomain (List.ne_nil_of_length_pos (by omega))
    dsimp only at h
    rw [if_pos hlen] at h
    obtain ⟨shift, hshift, h⟩ := gives_of_bind h
    obtain ⟨hlow, hhigh⟩ := count_mem hshift
    split at h
    · obtain ⟨y, hy, h⟩ := gives_of_bind h
      exact absurd hy not_gives_fault
    · rw [eq_of_gives_pure h]
      refine ⟨rfl, fun he => ?_⟩
      exact add_mod_ne hi (by omega) (by omega) ((List.getElem?_inj hi hplain).mp he)
  all_goals exact hplain.elim

end Draw

namespace GeneTree

/-- Are the leaves that can change plain ones? -/
def PlainLeaves (t : GeneTree) : Prop :=
  ∀ x g, t.gene x = .ok g → g.owned = [] → t.isMutable x = .ok true → g.IsPlain

variable {t : GeneTree} {v : GeneTerm}

theorem Holds.parts_of_string (hv : t.Holds v) (h : t.variant v.id = .ok .string) : v.parts = [] := by
  have hshaped := hv.shaped
  rw [GeneTree.variant, node_of_get? hv.get?_id] at h
  obtain ⟨id, ⟨name, gene, parent⟩, parts⟩ := v
  rw [Shaped] at hshaped
  cases gene <;> cases h
  exact List.map_eq_nil_iff.mp hshaped.1

theorem PlainLeaves.every (ht : t.PlainLeaves) (hv : t.Holds v) :
    v.Every fun g parts => parts = [] → g.allowsChange = true → g.IsPlain := by
  induction v using GeneTerm.induct with
  | node id content parts ih =>
    rw [Every]
    refine ⟨fun hnone hallows => ?_, fun p hp => ih p hp (hv.parts.each p hp)⟩
    have hshaped := hv.shaped
    rw [Shaped, hnone] at hshaped
    refine ht id content.gene (gene_of_get? hv.get?_node) hshaped.1.symm ?_
    refine hv.isMutable.trans ?_
    rw [changeable, Gene.changesByParts_of_allowsChange hallows, hallows]
    rfl

end GeneTree

namespace RandomEdit

variable {γ : Type} [RandomSource γ] {c : MutationSettings} {steering : Steering} {t u : GeneTree} {id : NodeId}
  {s s' : γ} {r : Except GeneError (List NodeId)}

/-- A mutation of a gene that can change is no failure, and changes its value if leaves are not drawn anew, or
if it is a text that has been mutated. -/
theorem mutate_takes_effect (ht : t.WellFormed) (hdomain : t.InDomain) (hleaves : t.PlainLeaves)
    (hid : t.isMutable id = .ok true) (h : (mutate c steering id).run.run t s = .ok ((r, u), s')) :
    ∃ touched, r = .ok touched ∧
      (c.resampleProbability.same 0 = true ∨ t.variant id = .ok .string ∨
        (∃ x, touched.getLast? = some x ∧ t.variant x = .ok .string) → t.sameValue id u id = .ok false) := by
  obtain ⟨g, hg, -⟩ := ok_of_bind hid
  obtain ⟨n, hn, -⟩ := live_of_gene hg
  obtain ⟨v, rfl, hv, -⟩ := ht.exists_term hn
  have hchanges : v.changeable = true := Except.ok.inj (hv.isMutable.symm.trans hid)
  have hgenes : v.Every fun g _ => g.InDomain := (every_and.mp (hdomain.every hv)).1
  have hevery := every_and.mpr ⟨hgenes, hleaves.every hv⟩
  obtain ⟨w, hw⟩ := (answers_mutate lasts_true ht.exact hv c steering).2 _ _ ⟨s, s', h⟩
  obtain ⟨touched, rfl⟩ := hw.answered hchanges (hv.height_le_depthBound.trans (Nat.le_add_right _ _)) hgenes
  have htraces := hw.traces touched rfl
  refine ⟨touched, rfl, fun hcases => ?_⟩
  have hleaf : ∀ g k : Gene, (g.InDomain ∧ (([] : List GeneTerm) = [] → g.allowsChange = true → g.IsPlain)) →
      g.MutatesTo γ c k → g.Departs k ∨ (¬ c.resampleProbability.same 0 = true ∧ g.variant ≠ .string) := by
    rintro g k ⟨hin, hplain⟩ ⟨hallows, hk⟩
    by_cases hkept : c.resampleProbability.same 0 = true ∨ g.variant = .string
    · exact .inl (Draw.departs_of_mutatedLeaf (hplain rfl hallows) hin hallows hkept hk)
    · exact .inr (not_or.mp hkept)
  rcases htraces.imp_or hevery hleaf with hdeparts | ⟨x, m, hlast, hm, hnever, hstring⟩
  · have hheight := hv.height_le_depthBound.trans (Nat.le_mul_of_pos_right _ (Nat.succ_pos u.slots.size))
    have hdiffers := sameValueWithin_of_traces hdeparts hv hw.holds hheight
    rwa [htraces.same_id] at hdiffers
  · -- the path ends at a leaf that is no text
    have hvariant : t.variant x = .ok m.gene.variant := by
      rw [GeneTree.variant, node_of_get? (hv.kept hm)]
      rfl
    have htext : t.variant x ≠ .ok .string := by
      rw [hvariant]
      exact fun he => hstring (Except.ok.inj he)
    rcases hcases with hkept | hroot | ⟨y, hy, hend⟩
    · exact absurd hkept hnever
    · rw [htraces.eq_singleton (hv.parts_of_string hroot), List.getLast?_singleton] at hlast
      exact absurd (Option.some.inj hlast ▸ hroot) htext
    · exact absurd (Option.some.inj (hy.symm.trans hlast) ▸ hend) htext

/-- The text in an optional part is edited, and the object counts as another one. -/
theorem mutate_takes_effect_of_object : ∃ (u : GeneTree) (s : WordSource),
    (mutate { resampleProbability := 0 } .uniform ⟨0⟩).run.run
      (object "o" [optional "p" (stringIn "s" 1 4) true, choice "k" ["a", "b"]]) ⟨[], 3⟩ =
        .ok ((.ok [⟨0⟩, ⟨1⟩, ⟨2⟩], u), s) ∧
    (object "o" [optional "p" (stringIn "s" 1 4) true, choice "k" ["a", "b"]]).sameValue ⟨0⟩ u ⟨0⟩ =
      .ok false := by
  have hbuilt : Built (object "o" [optional "p" (stringIn "s" 1 4) true, choice "k" ["a", "b"]]) := by
    refine .object "o" ?_
    simp only [List.forall_mem_cons, List.not_mem_nil, false_implies, implies_true, and_true]
    exact ⟨.optional "p" true (.stringIn "s" 1 4), .choice "k" ["a", "b"]⟩
  have hleaves : (object "o" [optional "p" (stringIn "s" 1 4) true, choice "k" ["a", "b"]]).PlainLeaves := by
    intro x g hx hnone hchanges
    obtain ⟨n, hn, -⟩ := live_of_gene hx
    have hids : (object "o" [optional "p" (stringIn "s" 1 4) true, choice "k" ["a", "b"]]).liveIds =
        [⟨0⟩, ⟨1⟩, ⟨2⟩, ⟨3⟩] := by decide +kernel
    have hlive := mem_liveIds.mpr (contains_of_get? hn)
    rw [hids] at hlive
    simp only [List.mem_cons, List.not_mem_nil, or_false] at hlive
    rcases hlive with rfl | rfl | rfl | rfl
    · cases hx
      cases hnone
    · cases hx
      cases hnone
    · cases hx
      trivial
    · cases hx
      exact (by decide : ["a", "b"].Nodup)
  have hroot : (object "o" [optional "p" (stringIn "s" 1 4) true, choice "k" ["a", "b"]]).isMutable ⟨0⟩ =
      .ok true := by decide +kernel
  have hrun : ((mutate { resampleProbability := 0 } .uniform ⟨0⟩).run.run
      (object "o" [optional "p" (stringIn "s" 1 4) true, choice "k" ["a", "b"]])
      (⟨[], 3⟩ : WordSource)).map (fun r => r.1.1) = .ok (.ok [⟨0⟩, ⟨1⟩, ⟨2⟩]) := by decide +kernel
  obtain ⟨⟨⟨r, u⟩, s⟩, hstep, rfl⟩ := ok_of_map hrun
  obtain ⟨touched, -, hdiffers⟩ := mutate_takes_effect hbuilt.wellFormed hbuilt.inDomain hleaves hroot hstep
  exact ⟨u, s, hstep, hdiffers (.inl (by decide +kernel))⟩

end RandomEdit
end CallEvolution
