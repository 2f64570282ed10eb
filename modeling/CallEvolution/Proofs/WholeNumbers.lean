import CallEvolution.Proofs.Extents
import CallEvolution.Proofs.TextBinding
import Mathlib.Data.Rat.Floor

/-! Numbers bound to genes of whole numbers. What is stored is the exact value of the source without its
fraction, and a value that the target does not admit is left; only beyond 64 bits the end of the range stands in
for the value. -/

namespace CallEvolution

open GeneTree

/-- A number without its fraction. -/
def towardZero (q : ℚ) : Int := if 0 ≤ q then ⌊q⌋ else ⌈q⌉

theorem towardZero_intCast (n : Int) : towardZero n = n := by
  rw [towardZero, Int.floor_intCast, Int.ceil_intCast, ite_self]

theorem towardZero_neg (q : ℚ) : towardZero (-q) = -towardZero q := by
  rcases lt_trichotomy q 0 with hneg | rfl | hpos
  · rw [towardZero, towardZero, if_pos (neg_nonneg.mpr hneg.le), if_neg hneg.not_ge, Int.floor_neg]
  · rfl
  · rw [towardZero, towardZero, if_neg (neg_lt_zero.mpr hpos).not_ge, if_pos hpos.le, Int.ceil_neg]

theorem towardZero_natCast_div (m n : Nat) : towardZero ((m : ℚ) / n) = (m / n : Nat) := by
  rw [towardZero, if_pos (by positivity), Rat.floor_natCast_div_natCast, Int.natCast_div]

namespace Binary

variable {F G : Format}

/-- The exact value of a finite number. -/
def rational? : Binary F → Option ℚ
  | finite negative units _ => some (signed negative units / (twoPow F.fraction : Nat))
  | _ => none

theorem truncate?_eq_rational? (x : Binary F) : x.truncate? = x.rational?.map towardZero := by
  cases x with
  | nan | infinity => rfl
  | finite negative units h =>
    rw [truncate?, rational?, Option.map_some]
    cases negative with
    | false =>
      have hsigned : ((signed false units : Int) : ℚ) = units := Int.cast_natCast units
      rw [hsigned, towardZero_natCast_div]
      rfl
    | true =>
      have hsigned : ((signed true units : Int) : ℚ) = -units := by simp [signed]
      rw [hsigned, neg_div, towardZero_neg, towardZero_natCast_div]
      rfl

/-- A larger format has the same exact value. -/
theorem rational?_convert (hFG : F.Embeds G) (x : Binary F) :
    (x.convert : Binary G).rational? = x.rational? := by
  cases x with
  | nan | infinity => rfl
  | finite negative units h =>
    have hsplit : twoPow G.fraction = twoPow F.fraction * twoPow (G.fraction - F.fraction) := by
      rw [← twoPow_add, Nat.add_sub_cancel' hFG.fraction_le]
    have hfactor : ((twoPow (G.fraction - F.fraction) : Nat) : ℚ) ≠ 0 :=
      Nat.cast_ne_zero.mpr (twoPow_pos _).ne'
    have hsigned : signed negative (units * twoPow (G.fraction - F.fraction)) =
        signed negative units * (twoPow (G.fraction - F.fraction) : Nat) := by
      cases negative <;> simp [signed]
    rw [convert_finite hFG, rational?, rational?, hsigned, hsplit, Nat.cast_mul, Int.cast_mul, Int.cast_natCast,
      mul_div_mul_right _ _ hfactor]

end Binary

namespace Gene

/-- Is a gene one of a whole number? -/
def isWhole : Gene → Bool
  | integer .. | long .. | foreignKey .. => true
  | _ => false

/-- The whole number that a gene holds. -/
def whole? : Gene → Option Int
  | integer value _ _ | long value _ _ => some value.toInt
  | foreignKey _ value _ => value.map (·.toInt)
  | _ => none

/-- Does a gene hold a number, with this exact value? A number that is not finite has none. -/
def HoldsNumber : Gene → Option ℚ → Prop
  | integer value _ _, q | long value _ _, q | foreignKey _ (some value) _, q => q = some (value.toInt : ℚ)
  | float value _ _, q => q = value.rational?
  | double value _ _, q => q = value.rational?
  | _, _ => False

/-- Is a whole number one of a gene's type and within its bounds? -/
def takes : Gene → Int → Bool
  | integer _ min max, n | long _ min max, n => min.toInt ≤ n && n ≤ max.toInt
  | foreignKey .., n => Int64.minValue.toInt ≤ n && n ≤ Int64.maxValue.toInt
  | _, _ => false

/-- A gene with another whole number. -/
def withWhole (n : Int) : Gene → Gene
  | integer _ min max => integer (.ofInt n) min max
  | long _ min max => long (.ofInt n) min max
  | foreignKey table _ nullable => foreignKey table (some (.ofInt n)) nullable
  | g => g

end Gene

/-- The whole number of 64 bits that is nearest to another one. -/
def nearestLong (n : Int) : Int := max Int64.minValue.toInt (min n Int64.maxValue.toInt)

theorem nearestLong_eq {n : Int} (hmin : Int64.minValue.toInt ≤ n) (hmax : n ≤ Int64.maxValue.toInt) :
    nearestLong n = n := by
  rw [nearestLong]
  omega

theorem nearestLong_toInt (v : Int64) : nearestLong v.toInt = v.toInt :=
  nearestLong_eq v.minValue_le_toInt v.toInt_le

theorem nearestLong_toInt32 (v : Int32) : nearestLong v.toInt = v.toInt := by
  have hmin := v.minValue_le_toInt
  have hmax := v.toInt_le
  refine nearestLong_eq (le_trans (by decide) hmin) (hmax.trans (by decide))

namespace GeneTree

variable {t : GeneTree} {y z : NodeId} {k : Gene} {q : Option ℚ}

/-- The scalar of a number is read as its exact value without the fraction, kept to 64 bits. -/
theorem exists_scalar_of_number (hz : t.coreNode y = .ok z) (hk : t.gene z = .ok k) (hq : k.HoldsNumber q) :
    ∃ s, t.scalar y = .ok (some s) ∧ s.toWhole? = (q.map towardZero).map nearestLong := by
  have hscalar : t.scalar y = (t.gene z >>= _) := congrArg (· >>= _) hz
  rw [hk] at hscalar
  cases k
  case integer value min max =>
    subst hq
    refine ⟨_, hscalar, ?_⟩
    rw [Scalar.toWhole?, Option.map_some, Option.map_some, towardZero_intCast, nearestLong_toInt32]
  case long value min max =>
    subst hq
    refine ⟨_, hscalar, ?_⟩
    rw [Scalar.toWhole?, Option.map_some, Option.map_some, towardZero_intCast, nearestLong_toInt]
  case float value min max =>
    subst hq
    refine ⟨_, hscalar, ?_⟩
    rw [Scalar.toWhole?, Binary.truncate?_eq_rational?, Binary.rational?_convert Format.embeds_single_double]
    rfl
  case double value min max =>
    subst hq
    refine ⟨_, hscalar, ?_⟩
    rw [Scalar.toWhole?, Binary.truncate?_eq_rational?]
    rfl
  case foreignKey table value nullable =>
    cases value with
    | none => cases hq
    | some value =>
      subst hq
      refine ⟨_, hscalar, ?_⟩
      rw [Scalar.toWhole?, Option.map_some, Option.map_some, towardZero_intCast, nearestLong_toInt]
  all_goals cases hq

end GeneTree

theorem within_eq_toInt32 (v min max : Int32) :
    within v min max = (decide (min.toInt ≤ v.toInt) && decide (v.toInt ≤ max.toInt)) := by
  simp only [within, Int32.le_iff_toInt_le]

theorem within_eq_toInt64 (v min max : Int64) :
    within v min max = (decide (min.toInt ≤ v.toInt) && decide (v.toInt ≤ max.toInt)) := by
  simp only [within, Int64.le_iff_toInt_le]

theorem int32?_filter (n : Int) (min max : Int32) :
    (int32? n).filter (within · min max) =
      if min.toInt ≤ n && n ≤ max.toInt then some (.ofInt n) else none := by
  have hmin := min.minValue_le_toInt
  have hmax := max.toInt_le
  rw [int32?]
  split
  · next hrange =>
    have htoInt : (Int32.ofInt n).toInt = n := Int32.toInt_ofInt_of_le hrange.1 (by
      have hlast : Int32.maxValue.toInt = 2 ^ 31 - 1 := rfl
      omega)
    rw [Option.filter_some, within_eq_toInt32, htoInt]
  · next hrange =>
    rw [if_neg (by rw [Bool.and_eq_true, decide_eq_true_eq, decide_eq_true_eq]; omega)]
    rfl

theorem int64?_filter (n : Int) (min max : Int64) :
    (int64? n).filter (within · min max) =
      if min.toInt ≤ n && n ≤ max.toInt then some (.ofInt n) else none := by
  have hmin := min.minValue_le_toInt
  have hmax := max.toInt_le
  rw [int64?]
  split
  · next hrange =>
    have htoInt : (Int64.ofInt n).toInt = n := Int64.toInt_ofInt_of_le hrange.1 (by
      have hlast : Int64.maxValue.toInt = 2 ^ 63 - 1 := rfl
      omega)
    rw [Option.filter_some, within_eq_toInt64, htoInt]
  · next hrange =>
    rw [if_neg (by rw [Bool.and_eq_true, decide_eq_true_eq, decide_eq_true_eq]; omega)]
    rfl

namespace Gene

variable {g : Gene} {s : Scalar} {n : Int}

theorem assign?_whole (hg : g.isWhole = true) (hs : s.toWhole? = some n) :
    g.assign? s = if g.takes n then some (g.withWhole n) else none := by
  cases g
  case integer value min max =>
    rw [assign?, hs, Option.bind_some, int32?_filter, takes]
    split <;> rfl
  case long value min max =>
    rw [assign?, hs, Option.bind_some, int64?_filter, takes]
    split <;> rfl
  case foreignKey table value nullable =>
    rw [assign?, hs, Option.bind_some, int64?, takes]
    simp only [Bool.and_eq_true, decide_eq_true_eq]
    split <;> rfl
  all_goals cases hg

theorem nearestLong_of_takes (hn : g.takes n = true) : nearestLong n = n := by
  cases g
  case integer value min max =>
    have hmin := min.minValue_le_toInt
    have hmax := max.toInt_le
    have hfirst : Int64.minValue.toInt ≤ Int32.minValue.toInt := by decide
    have hlast : Int32.maxValue.toInt ≤ Int64.maxValue.toInt := by decide
    simp only [takes, Bool.and_eq_true, decide_eq_true_eq] at hn
    exact nearestLong_eq (by omega) (by omega)
  case long value min max =>
    have hmin := min.minValue_le_toInt
    have hmax := max.toInt_le
    simp only [takes, Bool.and_eq_true, decide_eq_true_eq] at hn
    exact nearestLong_eq (hmin.trans hn.1) (hn.2.trans hmax)
  case foreignKey table value nullable =>
    simp only [takes, Bool.and_eq_true, decide_eq_true_eq] at hn
    exact nearestLong_eq hn.1 hn.2
  all_goals cases hn

/-- Only beyond 64 bits does a gene take the end of the range instead of a number. -/
theorem beyond_of_takes_nearestLong (hn : g.takes n = false) (hnear : g.takes (nearestLong n) = true) :
    g.variant ≠ .integer ∧ (n < Int64.minValue.toInt ∨ Int64.maxValue.toInt < n) := by
  have hbeyond : n < Int64.minValue.toInt ∨ Int64.maxValue.toInt < n := by
    by_contra hinside
    rw [nearestLong_eq (by omega) (by omega), hn] at hnear
    cases hnear
  refine ⟨fun hvariant => ?_, hbeyond⟩
  -- the bounds of 32 bits are inside of 64, and admit neither end
  cases g
  case integer value min max =>
    have hmin := min.minValue_le_toInt
    have hmax := max.toInt_le
    have hfirst : Int64.minValue.toInt < Int32.minValue.toInt := by decide
    have hlast : Int32.maxValue.toInt < Int64.maxValue.toInt := by decide
    simp only [takes, Bool.and_eq_true, decide_eq_true_eq] at hnear
    rw [nearestLong] at hnear
    omega
  all_goals cases hvariant

theorem assign?_none (hg : g.isWhole = true) (hs : s.toWhole? = none) : g.assign? s = none := by
  cases g
  case integer | long | foreignKey => rw [assign?, hs]; rfl
  all_goals cases hg

theorem exists_whole_of_number {q : Option ℚ} (hg : g.isWhole = true) (hq : g.HoldsNumber q) :
    ∃ n, g.whole? = some n ∧ q = some (n : ℚ) ∧ nearestLong n = n := by
  cases g
  case integer value min max => exact ⟨_, rfl, hq, nearestLong_toInt32 value⟩
  case long value min max => exact ⟨_, rfl, hq, nearestLong_toInt value⟩
  case foreignKey table value nullable =>
    cases value with
    | none => cases hq
    | some value => exact ⟨_, rfl, hq, nearestLong_toInt value⟩
  all_goals cases hg

theorem whole?_withWhole (hn : g.takes n = true) : (g.withWhole n).whole? = some n := by
  cases g
  case integer value min max =>
    have hmin := min.minValue_le_toInt
    have hmax := max.toInt_lt
    simp only [takes, Bool.and_eq_true, decide_eq_true_eq] at hn
    rw [withWhole, whole?, Int32.toInt_ofInt_of_le (hmin.trans hn.1) (hn.2.trans_lt hmax)]
  case long value min max =>
    have hmin := min.minValue_le_toInt
    have hmax := max.toInt_lt
    simp only [takes, Bool.and_eq_true, decide_eq_true_eq] at hn
    rw [withWhole, whole?, Int64.toInt_ofInt_of_le (hmin.trans hn.1) (hn.2.trans_lt hmax)]
  case foreignKey table value nullable =>
    simp only [takes, Bool.and_eq_true, decide_eq_true_eq] at hn
    have hmax := Int64.maxValue.toInt_lt
    rw [withWhole, whole?, Option.map_some, Int64.toInt_ofInt_of_le hn.1 (hn.2.trans_lt hmax)]
  all_goals cases hn

theorem variant_of_isWhole (hg : g.isWhole = true) :
    g.isWrapper = false ∧ Edit.refusesOthers g.variant = false ∧ g.variant ≠ .base64 := by
  cases g
  case integer | long | foreignKey => exact ⟨rfl, rfl, nofun⟩
  all_goals cases hg

theorem isWhole_of_variant {k : Gene} (h : g.variant = k.variant) (hg : g.isWhole = true) :
    k.isWhole = true := by
  cases g
  case integer | long | foreignKey => cases k <;> first | rfl | cases h
  all_goals cases hg

/-- The number of a gene of the same variant is taken over as it is, if it is within the bounds. -/
theorem assessGenes_whole {k : Gene} (check : NodeId → NodeId → Except GeneError Unit) (name : String)
    (hvariant : g.variant = k.variant) (hg : g.isWhole = true) (hn : k.whole? = some n) :
    takeValue g k = g.withWhole n ∧ copyPairs g k = [] ∧
      assessGenes check name g k = if g.takes n then .ok () else .error (.outOfBounds name) := by
  cases g
  case integer value min max =>
    cases k
    case integer source low high =>
      cases hn
      rw [withWhole, Int32.ofInt_toInt, assessGenes, within_eq_toInt32]
      exact ⟨rfl, rfl, rfl⟩
    all_goals cases hvariant
  case long value min max =>
    cases k
    case long source low high =>
      cases hn
      rw [withWhole, Int64.ofInt_toInt, assessGenes, within_eq_toInt64]
      exact ⟨rfl, rfl, rfl⟩
    all_goals cases hvariant
  case foreignKey table value nullable =>
    cases k
    case foreignKey theirs source theirsNullable =>
      cases source with
      | none => cases hn
      | some source =>
        cases hn
        have htakes : (foreignKey table value nullable).takes source.toInt = true := by
          rw [takes, Bool.and_eq_true, decide_eq_true_eq, decide_eq_true_eq]
          exact ⟨source.minValue_le_toInt, source.toInt_le⟩
        rw [withWhole, Int64.ofInt_toInt, htakes]
        exact ⟨rfl, rfl, rfl⟩
    all_goals cases hvariant
  all_goals cases hg

end Gene

namespace Edit

variable {t src u : GeneTree} {x y z : NodeId} {g k : Gene} {q : Option ℚ} {α : Type}

theorem exists_pairBound (t src : GeneTree) : ∃ d, t.pairBound src = d + 1 :=
  Nat.exists_eq_add_one_of_ne_zero (Nat.mul_ne_zero (Nat.succ_ne_zero _) (Nat.succ_ne_zero _))

theorem assessCopy_whole {n : Int} (hx : t.gene x = .ok g) (hg : g.isWhole = true) (hy : src.gene y = .ok k)
    (hvariant : g.variant = k.variant) (hn : k.whole? = some n) :
    ∃ name, t.assessCopy x src y = if g.takes n then .ok () else .error (.outOfBounds name) := by
  obtain ⟨d, hd⟩ := exists_pairBound t src
  obtain ⟨mine, hmine, rfl⟩ := live_of_gene hx
  obtain ⟨theirs, htheirs, rfl⟩ := live_of_gene hy
  refine ⟨mine.name, ?_⟩
  rw [assessCopy, hd, assessCopyWithin, node_of_get? hmine]
  change (src.node y >>= _) = _
  rw [node_of_get? htheirs]
  change (if mine.gene.variant ≠ theirs.gene.variant then _ else _) = _
  rw [if_neg (not_not_intro hvariant)]
  exact (Gene.assessGenes_whole _ _ hvariant hg hn).2.2

theorem run_copyIfFits_whole {n : Int} (hx : t.gene x = .ok g) (hg : g.isWhole = true) (hy : src.gene y = .ok k)
    (hvariant : g.variant = k.variant) (hn : k.whole? = some n) :
    (copyIfFits x src y).run.run t =
      .ok (if g.takes n then (.ok true, t.setGene x (g.withWhole n)) else (.ok false, t)) := by
  obtain ⟨name, hassess⟩ := assessCopy_whole hx hg hy hvariant hn
  cases htakes : g.takes n with
  | false =>
    -- the copy is assessed before anything is written
    rw [htakes, if_neg Bool.false_ne_true] at hassess
    have hcopy : (do copyFrom x src y; return true : Edit Bool).run.run t =
        .ok (.error (.outOfBounds name), t) := by
      refine run_bind_error _ (run_bind_error _ ?_)
      rw [run_query, hassess]
    rw [copyIfFits, run_tryCatch_error _ hcopy]
    rfl
  | true =>
    rw [htakes, if_pos rfl] at hassess
    obtain ⟨d, hd⟩ := exists_pairBound t src
    obtain ⟨hvalue, hpairs, -⟩ := Gene.assessGenes_whole (fun _ _ => .ok ()) name hvariant hg hn
    have hcopy : (copyFrom x src y).run.run t = .ok (.ok (), t.setGene x (g.withWhole n)) := by
      rw [copyFrom, run_query_bind hassess]
      change (writeCopyWithin src (t.pairBound src) x y).run.run t = _
      rw [hd, writeCopyWithin, run_query_bind (q := fun _ => src.gene y) hy, run_query_bind hx, hvalue]
      refine (run_bind_ok (u := t.setGene x (g.withWhole n)) _ rfl).trans ?_
      split
      · cases hg
      · cases hg
      · rw [hpairs]
        rfl
    rw [copyIfFits, run_tryCatch_ok _ (run_bind_ok _ hcopy)]
    rfl

theorem run_adopt_same (hx : t.gene x = .ok g) (hy : src.gene y = .ok k) (hsame : g.variant = k.variant)
    (hg : g.isWhole = true) : (adopt x src y).run.run t = (copyIfFits x src y).run.run t := by
  have hcopies : adoptsByCopy g.variant k.variant = true := by
    rw [← hsame]
    cases g
    case integer | long | foreignKey => rfl
    all_goals cases hg
  rw [adopt, run_query_bind (variant_of_gene hx),
    run_query_bind (q := fun _ => src.variant y) (variant_of_gene hy), if_pos hcopies]

theorem exists_gene_of_coreNode (h : src.coreNode y = .ok z) :
    ∃ own, src.gene y = .ok own ∧ (own.isWrapper = false → z = y) := by
  rw [coreNode, depthBound, coreNodeWithin] at h
  obtain ⟨own, hown, -⟩ := ok_of_bind h
  refine ⟨own, hown, fun hw => ?_⟩
  have hself := coreNode_of_gene hown hw
  rw [coreNode, depthBound, coreNodeWithin, h] at hself
  exact Except.ok.inj hself

/-- What becomes of a number at a gene of whole numbers. -/
theorem run_adopt_number (hx : t.gene x = .ok g) (hg : g.isWhole = true) (hz : src.coreNode y = .ok z)
    (hk : src.gene z = .ok k) (hq : k.HoldsNumber q) :
    (adopt x src y).run.run t = .ok (match (q.map towardZero).map nearestLong with
      | some n => if g.takes n then (.ok true, t.setGene x (g.withWhole n)) else (.ok false, t)
      | none => (.ok false, t)) := by
  obtain ⟨own, hown, hcore⟩ := exists_gene_of_coreNode hz
  have hvariant : src.variant y = .ok own.variant := variant_of_gene hown
  obtain ⟨hwrapper, hopen, hbase⟩ := Gene.variant_of_isWhole hg
  by_cases hsame : g.variant = own.variant
  · -- a gene of the same variant is its own core, and copied
    have hplain : own.isWrapper = false := by
      rw [Gene.isWrapper_eq_false_iff, ← hsame]
      exact Gene.isWrapper_eq_false_iff.mp hwrapper
    obtain rfl := hcore hplain
    obtain rfl := Except.ok.inj (hown.symm.trans hk)
    obtain ⟨n, hn, rfl, hnear⟩ := Gene.exists_whole_of_number (Gene.isWhole_of_variant hsame hg) hq
    rw [run_adopt_same hx hown hsame hg, run_copyIfFits_whole hx hg hown hsame hn, Option.map_some,
      towardZero_intCast, Option.map_some, hnear]
  · -- any other number is read as a scalar, and kept to 64 bits before the gene is asked
    obtain ⟨s, hs, hwhole⟩ := exists_scalar_of_number hz hk hq
    rw [run_adopt hx hvariant hsame hwrapper hopen, run_assignFrom_leaf hs hx hbase, ← hwhole]
    cases hn : s.toWhole? with
    | none => rw [Gene.assign?_none hg hn]
    | some n =>
      rw [Gene.assign?_whole hg hn]
      by_cases htakes : g.takes n = true
      · rw [if_pos htakes]
        exact congrArg Except.ok (if_pos htakes).symm
      · rw [if_neg htakes]
        exact congrArg Except.ok (if_neg htakes).symm

/-- A gene of whole numbers that adopts a number stores its exact value without the fraction, if it takes that,
and is left as it is, if it does not or if there is no exact value. The one exception is a value beyond 64 bits:
there a gene that takes the end of the range stores the end. -/
theorem adopt_truncates_or_saturates (hx : t.gene x = .ok g) (hg : g.isWhole = true)
    (hz : src.coreNode y = .ok z) (hk : src.gene z = .ok k) (hq : k.HoldsNumber q) :
    let run := (adopt x src y).run.run t
    let stored (n : Int) := t.setGene x (g.withWhole n)
    (∀ n, q.map towardZero = some n → g.takes n = true →
      run = .ok (.ok true, stored n) ∧ (stored n).gene x = .ok (g.withWhole n) ∧
        (g.withWhole n).whole? = some n) ∧
    (∀ n, q.map towardZero = some n → g.takes n = false → g.takes (nearestLong n) = false →
      run = .ok (.ok false, t)) ∧
    (∀ n, q.map towardZero = some n → g.takes n = false → g.takes (nearestLong n) = true →
      run = .ok (.ok true, stored (nearestLong n)) ∧ g.variant ≠ .integer ∧
        (n < Int64.minValue.toInt ∨ Int64.maxValue.toInt < n)) ∧
    (q = none → run = .ok (.ok false, t)) := by
  intro run stored
  have hrun : run = _ := run_adopt_number hx hg hz hk hq
  refine ⟨fun n hn htakes => ?_, fun n hn _ hnear => ?_, fun n hn htakes hnear => ?_, fun hnone => ?_⟩
  · have hnear := Gene.nearestLong_of_takes htakes
    refine ⟨?_, gene_setGene_self hx, Gene.whole?_withWhole htakes⟩
    rw [hrun, hn, Option.map_some, hnear]
    exact congrArg Except.ok (if_pos htakes)
  · rw [hrun, hn]
    exact congrArg Except.ok (if_neg (by rw [hnear]; exact Bool.false_ne_true))
  · refine ⟨?_, Gene.beyond_of_takes_nearestLong htakes hnear⟩
    rw [hrun, hn]
    exact congrArg Except.ok (if_pos hnear)
  · rw [hrun, hnone]
    rfl

/-- A number with a fraction, below an optional and beside zero. -/
theorem adopt_truncates_of_optional :
    let source := optional "price" (leaf "price" (.double (-3.7) (-10) 10)) true
    let target := leaf "count" (.integer 0 (-10) 10)
    (adopt ⟨0⟩ source ⟨0⟩).run.run target = .ok (.ok true, target.setGene ⟨0⟩ (.integer (-3) (-10) 10)) := by
  intro source target
  have htarget : target.gene ⟨0⟩ = .ok (.integer 0 (-10) 10) := rfl
  have hcore : source.coreNode ⟨0⟩ = .ok ⟨1⟩ := rfl
  have hgene : source.gene ⟨1⟩ = .ok (.double (-3.7) (-10) 10) := rfl
  have hvalue : (-3.7 : Double).rational?.map towardZero = some (-3) := by
    rw [← Binary.truncate?_eq_rational?]
    decide +kernel
  exact ((adopt_truncates_or_saturates htarget rfl hcore hgene rfl).1 _ hvalue (by decide)).1

/-- Ten to the nineteenth, for which 64 bits are too few. -/
theorem adopt_saturates_beyond_long :
    let first := Int64.minValue
    let last := Int64.maxValue
    let source := leaf "d" (.double 1e19 (-1e308) 1e308)
    let target := leaf "n" (.long 0 first last)
    (1e19 : Double).rational?.map towardZero = some 10000000000000000000 ∧
      (adopt ⟨0⟩ source ⟨0⟩).run.run target = .ok (.ok true, leaf "n" (.long last first last)) := by
  refine ⟨?_, by decide +kernel⟩
  rw [← Binary.truncate?_eq_rational?]
  decide +kernel

end Edit
end CallEvolution
