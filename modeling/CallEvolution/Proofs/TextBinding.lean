import CallEvolution.Gene.Build
import CallEvolution.Proofs.Encoding
import CallEvolution.Proofs.FixedNodes
import CallEvolution.Proofs.Lockstep
import CallEvolution.Proofs.WrittenDates

/-! Values bound through texts. A text that has adopted a value gives it back to any gene of the same kind
and bounds: what is written is read as the same value. -/

namespace CallEvolution

open GeneTree

namespace GeneTree

/-- The leaf whose value the text of a node tells, and whether it tells it in base 64. -/
def textLeaf (t : GeneTree) (x : NodeId) : Except GeneError (Bool × Gene) := do
  match ← t.gene x with
  | .base64 data => return (true, ← t.gene data)
  | g => return (false, g)

end GeneTree

namespace Gene

/-- Can the value of a leaf be read from its text, be it bare or in base 64? -/
def IsTold (encoded : Bool) : Gene → Prop
  | integer .. | long .. | boolean _ | date _ => encoded = false
  | time t => encoded = false ∧ t.IsWhole
  | moment m => encoded = false ∧ m.time.IsWhole
  | string .. => encoded = true
  | _ => False

theorem IsTold.bare {g : Gene} (h : g.IsTold false) :
    g.variant ≠ .string ∧ g.isWrapper = false ∧ Edit.refusesOthers g.variant = false := by
  cases g
  case integer | long | boolean | date | time | moment => exact ⟨nofun, rfl, rfl⟩
  all_goals cases h

/-- What a leaf makes of a text that is bound to it. -/
def takeText? (encoded : Bool) (text : String) (g : Gene) : Option Gene :=
  match encoded, g with
  | true, .string _ min max =>
    let decoded := (Text.Base64.toText? text).getD text
    if within decoded.length min max then some (.string decoded min max) else none
  | true, _ => none
  | false, g => g.assign? (.text text)

end Gene

namespace GeneTree

variable {t : GeneTree} {x : NodeId} {encoded : Bool} {g k : Gene}

theorem textLeaf_cases (h : t.textLeaf x = .ok (encoded, g)) :
    (encoded = true ∧ ∃ data, t.gene x = .ok (.base64 data) ∧ t.gene data = .ok g) ∨
      (encoded = false ∧ t.gene x = .ok g ∧ g.variant ≠ .base64) := by
  obtain ⟨k, hk, h⟩ := ok_of_bind h
  cases k
  case base64 data =>
    obtain ⟨g', hg', h⟩ := ok_of_bind h
    cases h
    exact .inl ⟨rfl, data, hk, hg'⟩
  all_goals
    cases h
    exact .inr ⟨rfl, hk, nofun⟩

theorem exists_variant_of_textLeaf (h : t.textLeaf x = .ok (encoded, g)) (htold : g.IsTold encoded) :
    ∃ v, t.variant x = .ok v ∧ v ≠ .string := by
  rcases textLeaf_cases h with ⟨-, data, hg, -⟩ | ⟨rfl, hg, -⟩
  · exact ⟨_, variant_of_gene hg, nofun⟩
  · exact ⟨_, variant_of_gene hg, htold.bare.1⟩

theorem exists_string_of_variant (h : t.variant x = .ok .string) :
    ∃ value min max, t.gene x = .ok (.string value min max) := by
  obtain ⟨⟨name, g, parent⟩, hn, hv⟩ := exists_of_variant h
  cases g <;> first | exact ⟨_, _, _, gene_of_get? hn⟩ | cases hv

theorem textLeaf_of_gene (hg : t.gene x = .ok g) (hvariant : g.variant ≠ .base64) :
    t.textLeaf x = .ok (false, g) := by
  rw [textLeaf, hg]
  cases g
  case base64 => exact absurd rfl hvariant
  all_goals rfl

theorem textLeaf_of_base64 {data : NodeId} (hg : t.gene x = .ok (.base64 data)) (hk : t.gene data = .ok k) :
    t.textLeaf x = .ok (true, k) := by
  rw [textLeaf, hg]
  change (do return (true, ← t.gene data) : Except GeneError (Bool × Gene)) = _
  rw [hk]
  rfl

/-- A text is its own scalar. -/
theorem scalar_of_string {value : String} {min max : Nat} (hg : t.gene x = .ok (.string value min max)) :
    t.scalar x = .ok (some (.text value)) := by
  rw [scalar, coreNode_of_gene hg rfl]
  change (t.gene x >>= _) = _
  rw [hg]
  change (t.rawText x).map _ = _
  rw [rawText, hg]
  rfl

/-- The scalar of a gene in base 64 is the writing of the text below it. -/
theorem scalar_of_base64 {data : NodeId} {value : String} {min max : Nat}
    (hg : t.gene x = .ok (.base64 data)) (hdata : t.gene data = .ok (.string value min max)) :
    t.scalar x = .ok (some (.text (Text.Base64.ofText value))) := by
  obtain ⟨⟨name, gene, parent⟩, hn, rfl⟩ := live_of_gene hg
  have hjson : t.toJson x = .ok (.string (Text.Base64.ofText value)) := by
    rw [toJson, depthBound, toJsonWithin_base64 (node_of_get? hn), hdata]
    rfl
  rw [scalar, coreNode_of_gene hg rfl]
  change (t.gene x >>= _) = _
  rw [hg]
  change (t.rawText x).map _ = _
  rw [rawText, hg]
  change ((t.toJson x).map requestText).map _ = _
  rw [hjson]
  rfl

end GeneTree

namespace Scalar

theorem toWhole?_written {n : Int} (hmin : Int64.minValue.toInt ≤ n) (hmax : n ≤ Int64.maxValue.toInt) :
    (text (whole n).toText).toWhole? = some n := by
  rw [toText, toWhole?, Decimal.integer?_toString, Option.filter_some, if_pos]
  rw [Bool.and_eq_true, decide_eq_true_eq, decide_eq_true_eq]
  exact ⟨hmin, hmax⟩

theorem int32?_toInt (v : Int32) : int32? v.toInt = some v := by
  rw [int32?, if_pos ⟨v.minValue_le_toInt, v.toInt_le⟩, Int32.ofInt_toInt]

theorem int64?_toInt (v : Int64) : int64? v.toInt = some v := by
  rw [int64?, if_pos ⟨v.minValue_le_toInt, v.toInt_le⟩, Int64.ofInt_toInt]

theorem toBool?_written (b : Bool) : (text (bool b).toText).toBool? = some b := by
  cases b <;> decide +kernel

theorem toDate?_written (d : Date) : (text (date d).toText).toDate? = some d := by
  simp only [toDate?, toText, Calendar.date?_dateText]

theorem toTime?_written {t : Time} (h : t.IsWhole) : (text (time t).toText).toTime? = some t := by
  simp only [toTime?, toText, Calendar.time?_timeText h]

theorem toMoment?_written {m : Moment} (h : m.time.IsWhole) : (text (moment m).toText).toMoment? = some m := by
  simp only [toMoment?, toText, Calendar.moment?_momentText h]

end Scalar

theorem within_of_le {α : Type} [LE α] [DecidableLE α] {value low high : α} (hlow : low ≤ value)
    (hhigh : value ≤ high) : within value low high = true :=
  Bool.and_eq_true_iff.mpr ⟨decide_eq_true hlow, decide_eq_true hhigh⟩

namespace Gene

variable {g : Gene} {s : Scalar}

/-- The scalar of a leaf that can be read from its text. -/
def bareScalar? : Gene → Option Scalar
  | integer value _ _ => some (.whole value.toInt)
  | long value _ _ => some (.whole value.toInt)
  | boolean value => some (.bool value)
  | date value => some (.date value)
  | time value => some (.time value)
  | moment value => some (.moment value)
  | _ => none

theorem assign?_blank (s : Scalar) (g : Gene) : g.blank.assign? s = g.assign? s := by
  cases g <;> rfl

theorem takeText?_blank (encoded : Bool) (text : String) (g : Gene) :
    g.blank.takeText? encoded text = g.takeText? encoded text := by
  cases encoded
  · exact assign?_blank _ g
  · cases g <;> rfl

/-- A bare value is read as it was written. -/
theorem assign?_toText (htold : g.IsTold false) (hdomain : g.InDomain) (hs : g.bareScalar? = some s) :
    g.assign? (.text s.toText) = some g := by
  cases g
  case integer value min max =>
    cases hs
    have hmin : Int64.minValue.toInt ≤ value.toInt :=
      Int.le_trans (by decide) value.minValue_le_toInt
    have hmax : value.toInt ≤ Int64.maxValue.toInt := Int.le_trans value.toInt_le (by decide)
    have hwithin := within_of_le hdomain.1 hdomain.2
    rw [assign?, Scalar.toWhole?_written hmin hmax, Option.bind_some, Scalar.int32?_toInt, Option.filter_some,
      if_pos hwithin, Option.map_some]
  case long value min max =>
    cases hs
    have hwithin := within_of_le hdomain.1 hdomain.2
    rw [assign?, Scalar.toWhole?_written value.minValue_le_toInt value.toInt_le, Option.bind_some,
      Scalar.int64?_toInt, Option.filter_some, if_pos hwithin, Option.map_some]
  case boolean value =>
    cases hs
    rw [assign?, Scalar.toBool?_written, Option.map_some]
  case date value =>
    cases hs
    rw [assign?, Scalar.toDate?_written, Option.map_some]
  case time value =>
    cases hs
    rw [assign?, Scalar.toTime?_written htold.2, Option.map_some]
  case moment value =>
    cases hs
    rw [assign?, Scalar.toMoment?_written htold.2, Option.map_some]
  all_goals cases hs

end Gene

namespace GeneTree

variable {t : GeneTree} {x : NodeId} {g : Gene} {s : Scalar}

theorem scalar_of_bareScalar (hg : t.gene x = .ok g) (hs : g.bareScalar? = some s) :
    t.scalar x = .ok (some s) := by
  have hw : g.isWrapper = false := by cases g <;> first | rfl | cases hs
  rw [scalar, coreNode_of_gene hg hw]
  change (t.gene x >>= _) = _
  rw [hg]
  cases g
  case integer | long | boolean | date | time | moment =>
    cases hs
    rfl
  all_goals cases hs

/-- A value that can be told has a scalar, and the text of that is read as the value. -/
theorem exists_scalar {encoded : Bool} (hx : t.textLeaf x = .ok (encoded, g)) (htold : g.IsTold encoded)
    (hdomain : g.InDomain) :
    ∃ s, t.scalar x = .ok (some s) ∧ g.takeText? encoded s.toText = some g := by
  rcases textLeaf_cases hx with ⟨rfl, data, hg, hdata⟩ | ⟨rfl, hg, -⟩
  · cases g
    case string value min max =>
      refine ⟨_, scalar_of_base64 hg hdata, ?_⟩
      have hwithin := within_of_le hdomain.1 hdomain.2
      rw [Gene.takeText?, Scalar.toText, Text.Base64.toText?_ofText, Option.getD_some, if_pos hwithin]
    case time | moment => cases htold.1
    all_goals cases htold
  · obtain ⟨s, hs⟩ : ∃ s, g.bareScalar? = some s := by
      cases g <;> first | exact ⟨_, rfl⟩ | cases htold
    exact ⟨s, scalar_of_bareScalar hg hs, Gene.assign?_toText htold hdomain hs⟩

end GeneTree

namespace GeneTree

variable {t : GeneTree} {x y : NodeId} {g k : Gene}

theorem gene_setGene_self (hk : t.gene x = .ok k) : (t.setGene x g).gene x = .ok g := by
  obtain ⟨n, hn, -⟩ := live_of_gene hk
  exact gene_of_get? (get?_setGene hn g)

theorem gene_setGene_of_ne (hne : y ≠ x) : (t.setGene x g).gene y = t.gene y := by
  rw [gene, gene, node, node, setGene, get?_modify_of_ne hne]

end GeneTree

namespace Edit

variable {t src : GeneTree} {x y data : NodeId} {g k : Gene} {v : Variant} {s : Scalar} {text : String}
  {α β : Type}

theorem run_query_bind {q : GeneTree → Except GeneError α} {f : α → Edit β} {a : α} (h : q t = .ok a) :
    (query q >>= f).run.run t = (f a).run.run t :=
  run_bind_ok f (congrArg (fun r => Except.ok (r, t)) h)

/-- A gene that is no wrapper is assigned the value of a gene of another variant. -/
theorem run_adopt (hg : t.gene x = .ok g) (hv : src.variant y = .ok v) (hne : g.variant ≠ v)
    (hw : g.isWrapper = false) (hopen : refusesOthers g.variant = false) :
    (adopt x src y).run.run t = (assignFrom x src y).run.run t := by
  have hcopy : ¬ adoptsByCopy g.variant v = true := by simp [adoptsByCopy, hne]
  have htarget : t.variant x = .ok g.variant := variant_of_gene hg
  have hinner : (adoptInner x src y).run.run t = (assignFrom x src y).run.run t := by
    rw [adoptInner, run_query_bind htarget, run_query_bind (q := fun _ => src.variant y) hv, if_neg hcopy,
      hopen]
    rfl
  rw [adopt, run_query_bind htarget, run_query_bind (q := fun _ => src.variant y) hv, if_neg hcopy, ← hinner]
  obtain ⟨hoptional, hprimary⟩ := Gene.isWrapper_eq_false_iff.mp hw
  split
  · next h => exact absurd h hoptional
  · next h => exact absurd h hprimary
  · rfl

theorem run_assignFrom_leaf (hs : src.scalar y = .ok (some s)) (hg : t.gene x = .ok g)
    (hbase : g.variant ≠ .base64) :
    (assignFrom x src y).run.run t = .ok (match g.assign? s with
      | some k => (.ok true, t.setGene x k)
      | none => (.ok false, t)) := by
  rw [assignFrom, run_query_bind (q := fun _ => src.scalar y) hs]
  change (query (·.gene x) >>= _).run.run t = _
  rw [run_query_bind hg]
  split
  · next h => exact absurd rfl hbase
  · cases hassign : g.assign? s <;> rfl

theorem run_assignFrom_base64 (hs : src.scalar y = .ok (some (.text text)))
    (hg : t.gene x = .ok (.base64 data)) (hdata : t.gene data = .ok k)
    (htake : k.takeText? true text = some g) :
    (assignFrom x src y).run.run t = .ok (.ok true, t.setGene data g) := by
  rw [assignFrom, run_query_bind (q := fun _ => src.scalar y) hs]
  change (query (·.gene x) >>= _).run.run t = _
  rw [run_query_bind hg]
  change (query (·.gene data) >>= _).run.run t = _
  rw [run_query_bind hdata]
  cases k
  case string value min max =>
    simp only [Gene.takeText?] at htake
    split at htake
    · next hwithin =>
      cases htake
      exact congrArg (fun e : Edit Bool => e.run.run t) (if_pos hwithin)
    · cases htake
  all_goals cases htake

/-- What a text holds after it has adopted the value of a gene that is no text. -/
theorem gene_of_adopt_string {t' : GeneTree} {value : String} {min max : Nat} (hs : src.scalar y = .ok (some s))
    (hv : src.variant y = .ok v) (hne : v ≠ .string) (hg : t.gene x = .ok (.string value min max))
    (h : (adopt x src y).run.run t = .ok (.ok true, t')) : t'.gene x = .ok (.string s.toText min max) := by
  rw [run_adopt hg hv hne.symm rfl rfl, run_assignFrom_leaf hs hg nofun, Gene.assign?] at h
  split at h
  · next k hk =>
    cases h
    split at hk
    · cases hk
      exact gene_setGene_self hg
    · cases hk
  · cases h

/-- A leaf adopts a text in which a value of its kind is told. -/
theorem exists_adopt_text {encoded : Bool} (hv : src.variant y = .ok .string)
    (hs : src.scalar y = .ok (some (.text text))) (hx : t.textLeaf x = .ok (encoded, k))
    (htold : g.IsTold encoded) (hblank : k.blank = g.blank) (htake : k.takeText? encoded text = some g) :
    ∃ t', (adopt x src y).run.run t = .ok (.ok true, t') ∧ t'.textLeaf x = .ok (encoded, g) := by
  rcases textLeaf_cases hx with ⟨rfl, data, hg, hdata⟩ | ⟨rfl, hg, hbase⟩
  · have hdiffer : x ≠ data := by
      rintro rfl
      obtain rfl := Except.ok.inj (hg.symm.trans hdata)
      cases htake
    refine ⟨_, (run_adopt hg hv nofun rfl rfl).trans (run_assignFrom_base64 hs hg hdata htake), ?_⟩
    exact textLeaf_of_base64 (gene_setGene_of_ne hdiffer |>.trans hg) (gene_setGene_self hdata)
  · have hvariant : k.variant = g.variant := by rw [← Gene.variant_blank, hblank, Gene.variant_blank]
    obtain ⟨hstring, hwrapper, hopen⟩ := htold.bare
    rw [← hvariant] at hstring hopen
    rw [← Gene.isWrapper_blank, ← hblank, Gene.isWrapper_blank] at hwrapper
    refine ⟨t.setGene x g, ?_, textLeaf_of_gene (gene_setGene_self hg) (hvariant ▸ hbase)⟩
    rw [run_adopt hg hv hstring hwrapper hopen, run_assignFrom_leaf hs hg hbase]
    change k.assign? (.text text) = some g at htake
    rw [htake]

/-- A text gives back what it has adopted: a gene of the same kind and bounds as the one whose value the text
has taken over adopts the text in turn, and then holds the very value. -/
theorem text_gives_value_back {t s s' u : GeneTree} {x y z : NodeId} {encoded : Bool} {g k : Gene}
    (hx : t.textLeaf x = .ok (encoded, g)) (htold : g.IsTold encoded) (hdomain : g.InDomain)
    (hy : s.variant y = .ok .string) (hz : u.textLeaf z = .ok (encoded, k)) (hblank : k.blank = g.blank)
    (hadopt : (adopt y t x).run.run s = .ok (.ok true, s')) :
    ∃ u', (adopt z s' y).run.run u = .ok (.ok true, u') ∧ u'.textLeaf z = .ok (encoded, g) := by
  obtain ⟨value, hscalar, htake⟩ := exists_scalar hx htold hdomain
  obtain ⟨v, hv, hne⟩ := exists_variant_of_textLeaf hx htold
  obtain ⟨old, min, max, hold⟩ := exists_string_of_variant hy
  have hgene : s'.gene y = .ok (.string value.toText min max) :=
    gene_of_adopt_string hscalar hv hne hold hadopt
  refine exists_adopt_text (variant_of_gene hgene) (scalar_of_string hgene) hz htold hblank ?_
  rw [← Gene.takeText?_blank, hblank, Gene.takeText?_blank, htake]

/-- The leap second at the end of the year before year 0. -/
def lastSecond : Moment := ⟨⟨-1, 12, 31, by decide⟩, { seconds := 86399, nanos := 1000000000 }⟩

/-- A leap second of a year with a sign, through a text with room for it. -/
theorem text_gives_value_back_of_lastSecond :
    ∃ s' u', (adopt ⟨0⟩ (leaf "at" (.moment lastSecond)) ⟨0⟩).run.run (stringIn "note" 0 24) =
        .ok (.ok true, s') ∧
      s'.scalar ⟨0⟩ = .ok (some (.text "-0001-12-31T23:59:60")) ∧
      (adopt ⟨0⟩ s' ⟨0⟩).run.run (GeneTree.moment "until") = .ok (.ok true, u') ∧
      u'.textLeaf ⟨0⟩ = .ok (false, .moment lastSecond) := by
  have hadopt : (adopt ⟨0⟩ (leaf "at" (.moment lastSecond)) ⟨0⟩).run.run (stringIn "note" 0 24) =
      .ok (.ok true, leaf "note" (.string "-0001-12-31T23:59:60" 0 24)) := by decide +kernel
  obtain ⟨u', hback, hvalue⟩ := text_gives_value_back (g := .moment lastSecond)
    (u := GeneTree.moment "until") (z := ⟨0⟩) rfl ⟨rfl, rfl, fun _ => rfl⟩ trivial rfl rfl rfl hadopt
  exact ⟨_, u', hadopt, scalar_of_string rfl, hback, hvalue⟩

end Edit

end CallEvolution
