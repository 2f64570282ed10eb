import CallEvolution.Proofs.Domains
import CallEvolution.Proofs.Differences
import CallEvolution.Proofs.MutationPaths

/-! Leaves that are asked for a new value. A leaf that draws its old value is drawn again, but not forever, and
a choice moves on to another place, whatever text is there. These are the only two ways in which an old
value can stay. -/

namespace CallEvolution

open GeneTree

namespace Gene

/-- Is a gene a leaf that is drawn again when it has drawn its old value? -/
def isRedrawn : Gene → Bool
  | integer .. | long .. | string .. | date _ | time _ | moment _ => true
  | _ => false

/-- Is a gene a leaf that is moved on when it has drawn its old value? -/
def isMovedOn : Gene → Bool
  | boolean _ | choice .. => true
  | _ => false

/-- Is a gene a leaf whose values are told apart exactly? -/
def isDrawn (g : Gene) : Bool := g.isRedrawn || g.isMovedOn

theorem isDrawn_of_isRedrawn {g : Gene} (hg : g.isRedrawn = true) : g.isDrawn = true :=
  Bool.or_inl hg

theorem isMovedOn_of_isRedrawn {g : Gene} (hg : g.isRedrawn = true) : g.isMovedOn = false := by
  cases g <;> first | rfl | cases hg

theorem isDrawn_of_isMovedOn {g : Gene} (hg : g.isMovedOn = true) : g.isDrawn = true :=
  Bool.or_inr hg

theorem same_eq_decide {g : Gene} (hg : g.isDrawn = true) (k : Gene) : k.same g = decide (k = g) := by
  cases g <;> first | rfl | cases hg
  all_goals cases k <;> rfl

end Gene

namespace Draw

variable {γ : Type} [RandomSource γ] {g k fresh : Gene} {s s' s₁ : γ}

/-- Does a leaf draw its old value a number of times in a row? -/
def Repeats (g : Gene) : Nat → γ → γ → Prop
  | 0, s, s' => s' = s
  | n + 1, s, s' => ∃ s₁, leaf? g s = .ok (some g, s₁) ∧ Repeats g n s₁ s'

omit [RandomSource γ] in
theorem ok_of_draw_bind {α β : Type} {d : Draw γ α} {f : α → Draw γ β} {b : β}
    (h : (d >>= f) s = .ok (b, s')) : ∃ a s₁, d s = .ok (a, s₁) ∧ f a s₁ = .ok (b, s') := by
  obtain ⟨⟨a, s₁⟩, ha, hb⟩ := ok_of_bind (x := d s) (f := fun r => f r.1 r.2) h
  exact ⟨a, s₁, ha, hb⟩

theorem exists_some_of_leaf? {r : Option Gene} (hg : g.isDrawn = true) (h : leaf? g s = .ok (r, s')) :
    ∃ k, r = some k := by
  cases g
  case integer | long | boolean | date | time =>
    obtain ⟨_, _, -, h⟩ := ok_of_draw_bind h
    cases h
    exact ⟨_, rfl⟩
  case string | moment =>
    obtain ⟨_, _, -, h⟩ := ok_of_draw_bind h
    obtain ⟨_, _, -, h⟩ := ok_of_draw_bind h
    cases h
    exact ⟨_, rfl⟩
  case choice values i =>
    simp only [leaf?] at h
    split at h
    · cases h
      exact ⟨_, rfl⟩
    · obtain ⟨_, _, -, h⟩ := ok_of_draw_bind h
      cases h
      exact ⟨_, rfl⟩
  all_goals cases hg

/-- The old value stays if it is drawn to the last attempt. -/
theorem leafUnlike_eq_iff (hg : g.isDrawn = true) {attempts : Nat}
    (h : leafUnlike g attempts fresh s = .ok (k, s')) :
    k = g ↔ fresh = g ∧ Repeats g attempts s s' := by
  induction attempts generalizing fresh s with
  | zero =>
    cases h
    exact (and_iff_left rfl).symm
  | succ attempts ih =>
    rw [leafUnlike, Gene.same_eq_decide hg] at h
    by_cases hfresh : fresh = g
    · rw [if_pos (decide_eq_true hfresh)] at h
      obtain ⟨r, s₁, hr, h⟩ := ok_of_draw_bind h
      obtain ⟨next, rfl⟩ := exists_some_of_leaf? hg hr
      rw [ih h]
      constructor
      · rintro ⟨rfl, hrest⟩
        exact ⟨hfresh, s₁, hr, hrest⟩
      · rintro ⟨-, s₂, hs₂, hrest⟩
        cases hr.symm.trans hs₂
        exact ⟨rfl, hrest⟩
    · rw [if_neg (by simpa using hfresh)] at h
      cases h
      exact ⟨fun he => absurd he hfresh, fun he => absurd he.1 hfresh⟩

/-- Another value is kept. -/
theorem leafUnlike_of_ne (hg : g.isDrawn = true) (hne : fresh ≠ g) (attempts : Nat) :
    leafUnlike g attempts fresh = (pure fresh : Draw γ Gene) := by
  cases attempts with
  | zero => rfl
  | succ attempts => rw [leafUnlike, Gene.same_eq_decide hg, if_neg (by simpa using hne)]

/-- A new value is the one of the loop, which begins with the first draw or with what it has been moved on to. -/
theorem loop_of_newLeaf (hg : g.isDrawn = true) (h : newLeaf g fresh s = .ok (k, s')) :
    (fresh ≠ g ∧ k = fresh) ∨ ∃ moved s₁, fresh = g ∧ moveOn g s = .ok (moved, s₁) ∧
      leafUnlike g newValueAttempts moved s₁ = .ok (k, s') := by
  rw [newLeaf, Gene.same_eq_decide hg] at h
  by_cases hfresh : fresh = g
  · rw [if_pos (decide_eq_true hfresh)] at h
    obtain ⟨moved, s₁, hmoved, h⟩ := ok_of_draw_bind h
    exact .inr ⟨moved, s₁, hfresh, hfresh ▸ hmoved, h⟩
  · rw [if_neg (by simpa using hfresh)] at h
    change leafUnlike g newValueAttempts fresh s = .ok (k, s') at h
    rw [leafUnlike_of_ne hg hfresh] at h
    cases h
    exact .inl ⟨hfresh, rfl⟩

theorem moveOn_of_isRedrawn (hg : g.isRedrawn = true) : moveOn g = (pure g : Draw γ Gene) := by
  cases g <;> first | rfl | cases hg

/-- A leaf that is only drawn again keeps its value if the first draw and all further ones give it. -/
theorem newLeaf_eq_iff (hg : g.isRedrawn = true) (hfresh : leaf? g s = .ok (some fresh, s₁))
    (h : newLeaf g fresh s₁ = .ok (k, s')) : k = g ↔ Repeats g (newValueAttempts + 1) s s' := by
  have hdrawn := Gene.isDrawn_of_isRedrawn hg
  rcases loop_of_newLeaf hdrawn h with ⟨hne, rfl⟩ | ⟨moved, s₂, rfl, hmoved, h⟩
  · constructor
    · exact fun he => absurd he hne
    · rintro ⟨s₂, hs₂, -⟩
      cases hfresh.symm.trans hs₂
      exact absurd rfl hne
  · rw [moveOn_of_isRedrawn hg] at hmoved
    cases hmoved
    rw [leafUnlike_eq_iff hdrawn h]
    constructor
    · rintro ⟨-, hrest⟩
      exact ⟨s₁, hfresh, hrest⟩
    · rintro ⟨s₂, hs₂, hrest⟩
      cases hfresh.symm.trans hs₂
      exact ⟨rfl, hrest⟩

theorem moveOn_ne (hg : g.isMovedOn = true) (hdomain : g.InDomain) (hallows : g.allowsChange = true)
    (h : Gives (moveOn g : Draw γ Gene) k) : k ≠ g := by
  cases g
  case boolean b =>
    cases eq_of_gives_pure h
    simp
  case choice values i =>
    have hsize : 1 < values.length := of_decide_eq_true hallows
    have hi : i < values.length := hdomain (List.length_pos_iff.mp (by omega))
    obtain ⟨shift, hshift, h⟩ := gives_of_bind h
    obtain ⟨hlow, hhigh⟩ := count_mem hshift
    cases eq_of_gives_pure h
    intro he
    exact add_mod_ne hi (by omega) (by omega) (Gene.choice.inj he).2.symm
  all_goals cases hg

/-- A leaf that is moved on never stays as it is. -/
theorem newLeaf_ne (hg : g.isMovedOn = true) (hdomain : g.InDomain) (hallows : g.allowsChange = true)
    (h : newLeaf g fresh s = .ok (k, s')) : k ≠ g := by
  have hdrawn := Gene.isDrawn_of_isMovedOn hg
  rcases loop_of_newLeaf hdrawn h with ⟨hne, rfl⟩ | ⟨moved, s₁, -, hmoved, h⟩
  · exact hne
  · have hne := moveOn_ne hg hdomain hallows ⟨s, s₁, hmoved⟩
    rw [leafUnlike_of_ne hdrawn hne] at h
    cases h
    exact hne

end Draw

namespace Gene

variable {g k : Gene}

/-- Does another place of a choice have the same text? -/
def Echoes (g k : Gene) : Prop :=
  ∃ values i j, g = choice values i ∧ k = choice values j ∧ j ≠ i ∧ values[j]? = values[i]?

theorem carries_iff_eq (hg : g.isRedrawn = true) (hk : k.blank = g.blank) : g.Carries k ↔ k = g := by
  cases g
  case integer | long | string | date | time | moment =>
    cases k <;> simp only [blank, reduceCtorEq, integer.injEq, long.injEq, string.injEq, true_and] at hk
    all_goals simp [Carries, hk, eq_comm]
  all_goals cases hg

theorem carries_iff_echoes (hg : g.isMovedOn = true) (hk : k.blank = g.blank) (hne : k ≠ g) :
    g.Carries k ↔ g.Echoes k := by
  cases g
  case boolean b =>
    cases k <;> simp only [blank, reduceCtorEq] at hk
    case boolean c =>
      constructor
      · intro hsame
        exact absurd (congrArg boolean hsame).symm hne
      · rintro ⟨_, _, _, ⟨⟩, -⟩
  case choice values i =>
    cases k <;> simp only [blank, reduceCtorEq, choice.injEq, and_true] at hk
    case choice values' j =>
      subst hk
      constructor
      · intro hsame
        exact ⟨values', i, j, rfl, rfl, fun hj => hne (hj ▸ rfl), Eq.symm hsame⟩
      · rintro ⟨_, _, _, hi, hj, -, hsame⟩
        cases hi
        cases hj
        exact Eq.symm hsame
  all_goals cases hg

end Gene

theorem GeneTree.allowsChange_of_isMutable {t : GeneTree} {id : NodeId} {g : Gene} (hgene : t.gene id = .ok g)
    (hg : g.isDrawn = true) (hmut : t.isMutable id = .ok true) : g.allowsChange = true := by
  rw [isMutable, depthBound, isMutableWithin, hgene] at hmut
  cases g <;> first | exact Except.ok.inj hmut | cases hg

namespace RandomEdit

variable {γ : Type} [RandomSource γ] {t u : GeneTree} {id : NodeId} {g : Gene} {s s' : γ}
  {r : Except GeneError Unit}

omit [RandomSource γ] in
theorem run_draw_bind {α β : Type} {d : Draw γ α} {f : α → RandomEdit γ β} :
    (draw d >>= f).run.run t s = d s >>= fun r => (f r.1).run.run t r.2 := by
  have hrun : (draw d >>= f).run.run t s =
      (((d s >>= fun r => pure ((r.1, t), r.2)) >>= fun r => pure ((Except.ok r.1.1, r.1.2), r.2)) >>=
        fun r => (ExceptT.bindCont f r.1.1).run r.1.2 r.2) := rfl
  rw [hrun]
  cases d s <;> rfl

omit [RandomSource γ] in
theorem ok_of_run_draw_bind {α β : Type} {d : Draw γ α} {f : α → RandomEdit γ β}
    {r : Except GeneError β × GeneTree} (h : (draw d >>= f).run.run t s = .ok (r, s')) :
    ∃ a s₁, d s = .ok (a, s₁) ∧ (f a).run.run t s₁ = .ok (r, s') := by
  rw [run_draw_bind] at h
  obtain ⟨⟨a, s₁⟩, hd, h⟩ := ok_of_bind h
  exact ⟨a, s₁, hd, h⟩

/-- A drawn leaf that can change gets what has been drawn first, or a new value. -/
theorem drawn_of_randomize (hgene : t.gene id = .ok g) (hg : g.isDrawn = true)
    (hmut : t.isMutable id = .ok true) (h : (randomize id true).run.run t s = .ok ((r, u), s')) :
    ∃ fresh k s₁, Draw.leaf? g s = .ok (some fresh, s₁) ∧ Draw.newLeaf g fresh s₁ = .ok (k, s') ∧
      r = .ok () ∧ u = t.setGene id k := by
  obtain ⟨d, hd⟩ := Nat.exists_eq_add_one.mpr (descentBound_pos t)
  have hstep : (randomize id true).run.run t s = (randomizeWithin true (d + 1) id).run.run t s := by
    rw [← hd]
    exact run_get_bind s
  rw [hstep] at h
  replace h := (run_query_bind (q := (·.gene id)) hgene s).symm.trans h
  obtain ⟨a, s₁, hleaf, h⟩ := ok_of_run_draw_bind h
  obtain ⟨fresh, rfl⟩ := Draw.exists_some_of_leaf? hg hleaf
  replace h := (run_query_bind (q := (·.isMutable id)) hmut s₁).symm.trans h
  obtain ⟨k, s₂, hnew, h⟩ := ok_of_run_draw_bind h
  cases h
  exact ⟨fresh, k, s₁, hleaf, hnew, rfl, rfl⟩

/-- A leaf that can change and is asked for a new value gets one, but for two cases: it draws its old value
again and again, to the last attempt, or it is a choice and has moved on to the same text. -/
theorem randomize_renews_leaf (hgene : t.gene id = .ok g) (hdomain : g.InDomain) (hg : g.isDrawn = true)
    (hmut : t.isMutable id = .ok true) (h : (randomize id true).run.run t s = .ok ((r, u), s')) :
    r = .ok () ∧ ∃ k, u = t.setGene id k ∧ g.Varies k ∧
      (g.Carries k ↔
        (g.isRedrawn = true ∧ Draw.Repeats g (Draw.newValueAttempts + 1) s s') ∨ g.Echoes k) := by
  obtain ⟨fresh, k, s₁, hleaf, hnew, rfl, rfl⟩ := drawn_of_randomize hgene hg hmut h
  have hvaries : g.Varies k :=
    Draw.varies_of_newLeaf (Draw.varies_of_leaf? ⟨s, s₁, hleaf⟩).1 ⟨s₁, s', hnew⟩
  refine ⟨rfl, k, rfl, hvaries, ?_⟩
  rcases Bool.or_eq_true_iff.mp hg with hredrawn | hmoved
  · rw [Gene.carries_iff_eq hredrawn hvaries.blank, Draw.newLeaf_eq_iff hredrawn hleaf hnew]
    constructor
    · exact fun hrepeats => .inl ⟨hredrawn, hrepeats⟩
    · rintro (⟨-, hrepeats⟩ | ⟨_, _, _, rfl, -⟩)
      · exact hrepeats
      · cases hredrawn
  · have hallows := allowsChange_of_isMutable hgene hg hmut
    rw [Gene.carries_iff_echoes hmoved hvaries.blank (Draw.newLeaf_ne hmoved hdomain hallows hnew)]
    constructor
    · exact .inr
    · rintro (⟨hredrawn, -⟩ | hechoes)
      · rw [Gene.isMovedOn_of_isRedrawn hredrawn] at hmoved
        cases hmoved
      · exact hechoes

/-- The old value is drawn twice, so it is the third value that is kept. -/
theorem randomize_renews_leaf_of_integer : ∃ (u : GeneTree) (s : WordSource),
    (randomize ⟨0⟩ true).run.run (integerIn "n" 0 1) (⟨[0, 0, 0x8000000000000000], 0⟩ : WordSource) =
      .ok ((.ok (), u), s) ∧
    u.gene ⟨0⟩ = .ok (.integer 1 0 1) ∧
    ¬ Draw.Repeats (.integer 0 0 1) (Draw.newValueAttempts + 1)
      (⟨[0, 0, 0x8000000000000000], 0⟩ : WordSource) s := by
  have hrun : ((randomize ⟨0⟩ true).run.run (integerIn "n" 0 1)
      (⟨[0, 0, 0x8000000000000000], 0⟩ : WordSource)).map (fun r => (r.1.1, r.1.2.gene ⟨0⟩)) =
      .ok (.ok (), .ok (.integer 1 0 1)) := by decide +kernel
  obtain ⟨⟨⟨r, u⟩, s⟩, hstep, hu⟩ := ok_of_map hrun
  obtain ⟨rfl, hvalue⟩ := Prod.mk.inj hu
  have hgene : (integerIn "n" 0 1).gene ⟨0⟩ = .ok (.integer 0 0 1) := by decide +kernel
  have hmut : (integerIn "n" 0 1).isMutable ⟨0⟩ = .ok true := by decide +kernel
  obtain ⟨-, k, rfl, -, hstays⟩ :=
    randomize_renews_leaf hgene ((Built.integerIn "n" 0 1).inDomain.genes _ _ hgene) rfl hmut hstep
  refine ⟨_, s, hstep, hvalue, fun hrepeats => ?_⟩
  obtain ⟨n, hn, -⟩ := live_of_gene hgene
  obtain rfl : k = .integer 1 0 1 :=
    Except.ok.inj ((gene_of_get? (get?_setGene hn k)).symm.trans hvalue)
  have hcarries : (0 : Int32) = 1 := hstays.mpr (.inl ⟨rfl, hrepeats⟩)
  exact absurd hcarries (by decide)

/-- A number that is drawn eleven times stays, and a choice may move on to the same text; in both cases the
domain has another value. -/
theorem randomize_keeps_value :
    ((integerIn "n" 0 1).WellFormed ∧ (integerIn "n" 0 1).InDomain ∧
      (integerIn "n" 0 1).isMutable ⟨0⟩ = .ok true ∧
      ((randomize ⟨0⟩ true).run.run (integerIn "n" 0 1)
          (⟨List.replicate 11 0, 0⟩ : WordSource)).map Prod.fst = .ok (.ok (), integerIn "n" 0 1)) ∧
    ((choice "e" ["a", "a", "b"]).WellFormed ∧ (choice "e" ["a", "a", "b"]).InDomain ∧
      (choice "e" ["a", "a", "b"]).isMutable ⟨0⟩ = .ok true ∧
      (choice "e" ["a", "a", "b"]).gene ⟨0⟩ = .ok (.choice ["a", "a", "b"] 0) ∧
      ((randomize ⟨0⟩ true).run.run (choice "e" ["a", "a", "b"])
          (⟨[0, 0], 0⟩ : WordSource)).map (fun r => (r.1.1, r.1.2.gene ⟨0⟩)) =
        .ok (.ok (), .ok (.choice ["a", "a", "b"] 1))) := by
  have hinteger := Built.integerIn "n" 0 1
  have hchoice := Built.choice "e" ["a", "a", "b"]
  exact ⟨⟨hinteger.wellFormed, hinteger.inDomain, by decide +kernel, by decide +kernel⟩,
    hchoice.wellFormed, hchoice.inDomain, by decide +kernel, by decide +kernel, by decide +kernel⟩

end RandomEdit

end CallEvolution
