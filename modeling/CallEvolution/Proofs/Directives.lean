import CallEvolution.Proofs.LinkEnds
import CallEvolution.Proofs.TotalReading

/-! What a directive resolves to: the last row of its table, the column and the parameter with its names, and
the link between them. Reading a directive in well-formed trees never fails. -/

namespace CallEvolution

open GeneTerm GeneTree Matching

/-- Is an element the first of a list that satisfies a condition? -/
def IsFirst {α : Type} (P : α → Prop) (l : List α) (x : α) : Prop :=
  ∃ pre post, l = pre ++ x :: post ∧ P x ∧ ∀ y ∈ pre, ¬ P y

theorem isFirst_cons {α : Type} {P : α → Prop} {l : List α} {x y : α} :
    IsFirst P (y :: l) x ↔ (P y ∧ x = y) ∨ (¬ P y ∧ IsFirst P l x) := by
  constructor
  · rintro ⟨pre, post, hsplit, hx, hpre⟩
    cases pre with
    | nil =>
      obtain ⟨rfl, rfl⟩ := List.cons.inj hsplit
      exact .inl ⟨hx, rfl⟩
    | cons z pre =>
      obtain ⟨rfl, rfl⟩ := List.cons.inj hsplit
      exact .inr ⟨hpre y (by simp), pre, post, rfl, hx, fun z hz => hpre z (by simp [hz])⟩
  · rintro (⟨hy, rfl⟩ | ⟨hy, pre, post, rfl, hx, hpre⟩)
    · exact ⟨[], l, rfl, hy, by simp⟩
    · exact ⟨y :: pre, post, rfl, hx, by simpa [hy] using hpre⟩

theorem find?_eq_some_iff_isFirst {α : Type} {p : α → Bool} {l : List α} {x : α} :
    l.find? p = some x ↔ IsFirst (p · = true) l x := by
  induction l with
  | nil => simp [IsFirst]
  | cons y l ih =>
    rw [isFirst_cons, ← ih]
    by_cases hy : p y = true
    · simp [hy, eq_comm]
    · simp [hy]

/-- Is a parameter the first of an action that satisfies a condition, at a position? -/
def Action.FirstParam (a : Action) (P : Parameter → Prop) (i : Nat) (p : Parameter) : Prop :=
  a.param? i = some p ∧ P p ∧ ∀ j < i, ∀ q, a.param? j = some q → ¬ P q

/-- Does one variant have a better rank as a source than another one? -/
def Outranks (k m : Variant) : Prop :=
  ∃ s t, sourceRank? k = some s ∧ sourceRank? m = some t ∧ s < t

namespace DbDirective

/-- Does a directive speak of a node of a parameter? That is the parameter's value, or the value of the first
field with the name that is asked for. -/
inductive Names (d : DbDirective) (t : GeneTree) : NodeId → Prop where
  | value {x : NodeId} (hd : d.intoField = false) (hx : t.coreNode t.root = .ok x) : Names d t x
  | field {o f x : NodeId} {fields : List NodeId} (hd : d.intoField = true)
    (ho : t.coreNode t.root = .ok o) (hobject : t.variant o = .ok .object)
    (hfields : t.children o = .ok fields)
    (hf : IsFirst (t.name · = .ok (d.field.getD d.column)) fields f) (hx : t.coreNode f = .ok x) :
    Names d t x

/-- Does a link join a column to a node of a parameter? The row is the source if it exists already, and if
the node's variant has no better rank. -/
inductive Joins (row a : Action) (i : Nat) (column : Parameter) (j : Nat) (param : Parameter) (x : NodeId) :
    Link → Prop where
  | fromRow {k m : Variant} {e : NodeId} (hk : column.gene.variant column.gene.root = .ok k)
    (hm : param.gene.variant x = .ok m) (hrow : row.isExisting = true ∨ ¬ Outranks m k)
    (he : entryPoint param.gene x = .ok e) :
    Joins row a i column j param x ⟨⟨row.id, i, column.gene.root⟩, ⟨a.id, j, e⟩, .database⟩
  | fromParam {k m : Variant} (hk : column.gene.variant column.gene.root = .ok k)
    (hm : param.gene.variant x = .ok m) (hrow : row.isExisting = false) (hrank : Outranks m k) :
    Joins row a i column j param x ⟨⟨a.id, j, x⟩, ⟨row.id, i, column.gene.root⟩, .database⟩

/-- Does a directive lead to a link between an individual's last row of its table and an action? -/
def Resolves (d : DbDirective) (ind : Individual) (a : Action) (l : Link) : Prop :=
  ∃ row i column j param x,
    IsFirst (·.table? = some d.table) ind.init.reverse row ∧
    row.FirstParam (fun p => p.role = .dbColumn ∧ p.name = d.column) i column ∧
    a.FirstParam (·.name = d.param) j param ∧ d.Names param.gene x ∧ Joins row a i column j param x l

end DbDirective

/-- Does a reading succeed, and find just what satisfies a condition? -/
def Reads {ε α : Type} (r : Except ε (Option α)) (P : α → Prop) : Prop :=
  ∃ found, r = .ok found ∧ ∀ x, found = some x ↔ P x

theorem reads_none {ε α : Type} {P : α → Prop} (h : ∀ x, ¬ P x) :
    Reads (.ok none : Except ε (Option α)) P :=
  ⟨none, rfl, fun x => by simp [h x]⟩

theorem reads_some {ε α : Type} {P : α → Prop} {y : α} (h : ∀ x, P x ↔ x = y) :
    Reads (.ok (some y) : Except ε (Option α)) P :=
  ⟨some y, rfl, fun x => by rw [h, Option.some.injEq, eq_comm]⟩

namespace Matching

variable {t : GeneTree} {d : DbDirective} {a row : Action} {ind : Individual} {x o : NodeId} {name : String}
  {fields : List NodeId} {i j : Nat} {column param : Parameter} {k m : Variant}

theorem findParam_eq_some_iff {f : Parameter → Bool} :
    findParam a f = some (i, param) ↔ a.FirstParam (f · = true) i param := by
  have hparam (n : Nat) (hn : n < a.params.length) : a.param? n = some a.params[n] :=
    List.getElem?_eq_getElem hn
  have hfirst : a.params.findIdx? f = some i ↔ ∃ p, a.param? i = some p ∧ f p = true ∧
      ∀ n < i, ∀ q, a.param? n = some q → ¬ f q = true := by
    rw [List.findIdx?_eq_some_iff_getElem]
    constructor
    · rintro ⟨hi, hf, hbefore⟩
      refine ⟨_, hparam i hi, hf, fun n hn q hq => ?_⟩
      rw [hparam n (hn.trans hi), Option.some.injEq] at hq
      exact hq ▸ hbefore n hn
    · rintro ⟨p, hp, hf, hbefore⟩
      obtain ⟨hi, rfl⟩ := List.getElem?_eq_some_iff.mp hp
      exact ⟨hi, hf, fun n hn => hbefore n hn _ (hparam n (hn.trans hi))⟩
  constructor
  · intro h
    obtain ⟨n, hn, h⟩ := Option.bind_eq_some_iff.mp h
    obtain ⟨p, hp, h⟩ := Option.bind_eq_some_iff.mp h
    cases h
    obtain ⟨q, hq, hf⟩ := hfirst.mp hn
    obtain rfl := Option.some.inj (hq.symm.trans hp)
    exact ⟨hq, hf⟩
  · rintro ⟨hp, hf⟩
    rw [findParam, hfirst.mpr ⟨param, hp, hf⟩]
    simp [hp]

theorem direction_eq_reversed_iff {existing : Bool} :
    direction k m (if existing then some ExistingSide.source else none) = .reversed ↔
      existing = false ∧ Outranks m k := by
  cases existing with
  | true => simp [direction]
  | false =>
    unfold direction Outranks
    cases sourceRank? k <;> cases sourceRank? m <;> simp

theorem reads_findM? (hfields : ∀ f ∈ fields, ∃ n, t.name f = .ok n) :
    Reads (fields.findM? fun f => return (← t.name f) == name) (IsFirst (t.name · = .ok name) fields) := by
  induction fields with
  | nil => exact reads_none fun x => by simp [IsFirst]
  | cons f fields ih =>
    obtain ⟨⟨n, hn⟩, hrest⟩ := List.forall_mem_cons.mp hfields
    obtain ⟨found, hfound, hfirst⟩ := ih hrest
    have hstep : (do return (← t.name f) == name : Except GeneError Bool) = .ok (n == name) := by
      rw [hn]
      rfl
    rw [List.findM?, hstep]
    by_cases hname : n = name
    · subst hname
      rw [beq_self_eq_true]
      exact ⟨some f, rfl, fun x => by simp [isFirst_cons, hn, eq_comm]⟩
    · rw [beq_false_of_ne hname]
      exact ⟨found, hfound, fun x => by simp [isFirst_cons, hn, hname, hfirst]⟩

theorem reads_field (name : String) (hlive : ∀ f ∈ fields, ∃ n, t.name f = .ok n) (hfields : t.children o = .ok fields)
    (hobject : t.variant o = .ok .object) :
    Reads (t.field o name) (IsFirst (t.name · = .ok name) fields) := by
  obtain ⟨n, hn, hvariant⟩ := exists_of_variant hobject
  obtain ⟨others, type, hgene⟩ := Gene.eq_object_of_variant hvariant
  have hgene' : t.gene o = .ok (.object others type) := hgene ▸ gene_of_get? hn
  rw [children, hgene'] at hfields
  obtain rfl : others = fields := Except.ok.inj hfields
  rw [field, hgene']
  exact reads_findM? hlive

theorem reads_directedNode?_of_field (ht : t.WellFormed) (hd : d.intoField = true)
    (ho : t.coreNode t.root = .ok o) (hobject : t.variant o = .ok .object) :
    Reads (directedNode? d t) (d.Names t) := by
  have hfix := ((fixes_root t).bears_core ho).1
  obtain ⟨n, hn, -⟩ := exists_of_variant hobject
  have hfields : t.children o = .ok n.gene.children := by
    rw [children, gene_of_get? hn]
    rfl
  have hlive : ∀ f ∈ n.gene.children, ∃ k, t.get? f = some k := fun f hf =>
    ht.exists_get? (fixes_children_of_object hfix hobject hfields f hf)
  have hname : ∀ f ∈ n.gene.children, ∃ name, t.name f = .ok name := by
    intro f hf
    obtain ⟨k, hk⟩ := hlive f hf
    exact ⟨k.name, exists_name hk⟩
  obtain ⟨found, hfound, hfirst⟩ := reads_field (d.field.getD d.column) hname hfields hobject
  have hnames : ∀ x, d.Names t x ↔ ∃ f, found = some f ∧ t.coreNode f = .ok x := by
    intro x
    constructor
    · rintro (⟨hnot, -⟩ | ⟨-, ho', -, hfields', hf, hx⟩)
      · simp [hd] at hnot
      · obtain rfl := Except.ok.inj (ho.symm.trans ho')
        obtain rfl := Except.ok.inj (hfields.symm.trans hfields')
        exact ⟨_, (hfirst _).mpr hf, hx⟩
    · rintro ⟨f, hf, hx⟩
      exact .field hd ho hobject hfields ((hfirst f).mp hf) hx
  cases found with
  | none =>
    have hrun : directedNode? d t = .ok none := by
      simp [directedNode?, ho, hd, hobject, hfound, bind, Except.bind, pure, Except.pure]
    rw [hrun]
    exact reads_none fun x hx => by simp [hnames] at hx
  | some f =>
    obtain ⟨pre, post, hsplit, -⟩ := (hfirst f).mp rfl
    obtain ⟨k, hk⟩ := hlive f (by simp [hsplit])
    obtain ⟨y, -, hy, -⟩ := ht.exists_coreNode hk
    have hrun : directedNode? d t = .ok (some y) := by
      simp [directedNode?, ho, hd, hobject, hfound, hy, bind, Except.bind, pure, Except.pure]
    rw [hrun]
    exact reads_some fun x => by simp [hnames, hy, eq_comm]

theorem reads_directedNode? (ht : t.WellFormed) : Reads (directedNode? d t) (d.Names t) := by
  obtain ⟨n, hn⟩ := ht.exists_get? (fixes_root t)
  obtain ⟨o, m, ho, hm⟩ := ht.exists_coreNode hn
  have hvariant := exists_variant hm
  by_cases hd : d.intoField = true
  · by_cases hobject : m.gene.variant = .object
    · exact reads_directedNode?_of_field ht hd ho (hobject ▸ hvariant)
    · have hrun : directedNode? d t = .ok none := by
        simp [directedNode?, ho, hd, hvariant, hobject, bind, Except.bind, pure, Except.pure]
      rw [hrun]
      apply reads_none
      rintro x (⟨hnot, -⟩ | ⟨-, ho', hobject', -⟩)
      · simp [hd] at hnot
      · obtain rfl := Except.ok.inj (ho.symm.trans ho')
        exact hobject (Except.ok.inj (hvariant.symm.trans hobject'))
  · rw [Bool.not_eq_true] at hd
    have hrun : directedNode? d t = .ok (some o) := by
      simp [directedNode?, ho, hd, bind, Except.bind, pure, Except.pure]
    rw [hrun]
    apply reads_some
    intro x
    constructor
    · rintro (⟨-, hx⟩ | ⟨hinto, -⟩)
      · exact Except.ok.inj (hx.symm.trans ho)
      · simp [hd] at hinto
    · rintro rfl
      exact .value hd ho

theorem joins_iff_of_outranks {l : Link} (hk : column.gene.variant column.gene.root = .ok k)
    (hm : param.gene.variant x = .ok m) (hrow : row.isExisting = false) (hrank : Outranks m k) :
    DbDirective.Joins row a i column j param x l ↔
      l = ⟨⟨a.id, j, x⟩, ⟨row.id, i, column.gene.root⟩, .database⟩ := by
  constructor
  · rintro (⟨hk', hm', hstays, -⟩ | -)
    · obtain rfl := Except.ok.inj (hk.symm.trans hk')
      obtain rfl := Except.ok.inj (hm.symm.trans hm')
      simp [hrow, hrank] at hstays
    · rfl
  · rintro rfl
    exact .fromParam hk hm hrow hrank

theorem joins_iff_of_not_outranks {l : Link} {e : NodeId} (hk : column.gene.variant column.gene.root = .ok k)
    (hm : param.gene.variant x = .ok m) (hstays : row.isExisting = true ∨ ¬ Outranks m k)
    (he : entryPoint param.gene x = .ok e) :
    DbDirective.Joins row a i column j param x l ↔
      l = ⟨⟨row.id, i, column.gene.root⟩, ⟨a.id, j, e⟩, .database⟩ := by
  constructor
  · rintro (⟨-, -, -, he'⟩ | ⟨hk', hm', hrow, hrank⟩)
    · obtain rfl := Except.ok.inj (he.symm.trans he')
      rfl
    · obtain rfl := Except.ok.inj (hk.symm.trans hk')
      obtain rfl := Except.ok.inj (hm.symm.trans hm')
      simp [hrow, hrank] at hstays
  · rintro rfl
    exact .fromRow hk hm hstays he

/-- A column and a parameter are joined if the directive speaks of a node of the parameter. -/
theorem reads_directedLink? (d : DbDirective) (row a : Action) (i j : Nat)
    (hcolumn : column.gene.WellFormed) (hparam : param.gene.WellFormed) :
    Reads (directedLink? d row a (i, column) (j, param)) fun l =>
      ∃ x, d.Names param.gene x ∧ DbDirective.Joins row a i column j param x l := by
  obtain ⟨found, hfound, hnames⟩ := reads_directedNode? (d := d) hparam
  cases found with
  | none =>
    have hrun : directedLink? d row a (i, column) (j, param) = .ok none := by
      simp [directedLink?, hfound, bind, Except.bind, pure, Except.pure]
    rw [hrun]
    exact reads_none fun l hl => by simp [← hnames] at hl
  | some x =>
    obtain ⟨c, hc⟩ := hcolumn.exists_get? (fixes_root column.gene)
    obtain ⟨n, hn⟩ := hparam.exists_get? (bears_of_directedNode? hfound).1
    have hk := exists_variant hc
    have hm := exists_variant hn
    obtain ⟨e, he⟩ := exists_entryPoint hparam hn
    have hjoined : ∀ l, (∃ y, d.Names param.gene y ∧ DbDirective.Joins row a i column j param y l) ↔
        DbDirective.Joins row a i column j param x l := by
      intro l
      simp [← hnames]
    simp only [hjoined]
    by_cases hreversed : row.isExisting = false ∧ Outranks n.gene.variant c.gene.variant
    · have hdirection := direction_eq_reversed_iff.mpr hreversed
      have hrun : directedLink? d row a (i, column) (j, param) =
          .ok (some ⟨⟨a.id, j, x⟩, ⟨row.id, i, column.gene.root⟩, .database⟩) := by
        simp [directedLink?, hfound, hk, hm, hdirection, bind, Except.bind, pure, Except.pure]
      rw [hrun]
      exact reads_some fun l => joins_iff_of_outranks hk hm hreversed.1 hreversed.2
    · have hdirection : direction c.gene.variant n.gene.variant
          (if row.isExisting then some ExistingSide.source else none) = .asProposed := by
        cases hturn : direction c.gene.variant n.gene.variant
            (if row.isExisting then some ExistingSide.source else none) with
        | asProposed => rfl
        | reversed => exact absurd (direction_eq_reversed_iff.mp hturn) hreversed
      have hrun : directedLink? d row a (i, column) (j, param) =
          .ok (some ⟨⟨row.id, i, column.gene.root⟩, ⟨a.id, j, e⟩, .database⟩) := by
        simp [directedLink?, hfound, hk, hm, hdirection, he, bind, Except.bind, pure, Except.pure]
      have hstays : row.isExisting = true ∨ ¬ Outranks n.gene.variant c.gene.variant := by
        rw [← Bool.not_eq_false]
        tauto
      rw [hrun]
      exact reads_some fun l => joins_iff_of_not_outranks hk hm hstays he

/-- What a directive resolves to, by the searches for the row, the column and the parameter. -/
theorem resolves_iff {l : Link} : d.Resolves ind a l ↔ ∃ row i column j param,
    (ind.init.reverse.find? fun r => r.table? = some d.table) = some row ∧
    findParam row (fun p => p.role = .dbColumn && p.name = d.column) = some (i, column) ∧
    findParam a (fun p => p.name = d.param) = some (j, param) ∧
    ∃ x, d.Names param.gene x ∧ DbDirective.Joins row a i column j param x l := by
  simp only [find?_eq_some_iff_isFirst, findParam_eq_some_iff, Bool.and_eq_true, decide_eq_true_eq]
  constructor
  · rintro ⟨row, i, column, j, param, x, hrow, hcolumn, hparam, hx⟩
    exact ⟨row, i, column, j, param, hrow, hcolumn, hparam, x, hx⟩
  · rintro ⟨row, i, column, j, param, hrow, hcolumn, hparam, x, hx⟩
    exact ⟨row, i, column, j, param, x, hrow, hcolumn, hparam, hx⟩

/-- A directive makes a link if it resolves, and reading it never fails. -/
theorem reads_linkOfDirective? (htrees : ∀ b ∈ ind.actions, ∀ p ∈ b.params, p.gene.WellFormed)
    (ha : a ∈ ind.actions) : Reads (linkOfDirective? ind a d) (d.Resolves ind a) := by
  cases hrow : ind.init.reverse.find? fun r => decide (r.table? = some d.table) with
  | none =>
    have hrun : linkOfDirective? ind a d = .ok none := by simp [linkOfDirective?, hrow]
    rw [hrun]
    exact reads_none fun l => by simp [resolves_iff, hrow]
  | some row =>
    cases hcolumn : findParam row fun p => decide (p.role = .dbColumn) && decide (p.name = d.column) with
    | none =>
      have hrun : linkOfDirective? ind a d = .ok none := by simp [linkOfDirective?, hrow, hcolumn]
      rw [hrun]
      exact reads_none fun l => by simp [resolves_iff, hrow, hcolumn]
    | some column =>
      cases hparam : findParam a fun p => decide (p.name = d.param) with
      | none =>
        have hrun : linkOfDirective? ind a d = .ok none := by
          simp [linkOfDirective?, hrow, hparam]
        rw [hrun]
        exact reads_none fun l => by simp [resolves_iff, hrow, hparam]
      | some param =>
        obtain ⟨i, column⟩ := column
        obtain ⟨j, param⟩ := param
        have hrun : linkOfDirective? ind a d = directedLink? d row a (i, column) (j, param) := by
          simp [linkOfDirective?, hrow, hcolumn, hparam]
        have hinit : row ∈ ind.actions :=
          List.mem_append_left _ (List.mem_reverse.mp (List.mem_of_find?_eq_some hrow))
        have hcolumn' := htrees row hinit column (List.mem_of_getElem? (param_of_findParam hcolumn))
        have hparam' := htrees a ha param (List.mem_of_getElem? (param_of_findParam hparam))
        obtain ⟨found, hfound, hjoins⟩ := reads_directedLink? d row a i j hcolumn' hparam'
        refine ⟨found, hrun.trans hfound, fun l => ?_⟩
        simp [resolves_iff, hrow, hcolumn, hparam, hjoins]

end Matching

end CallEvolution
