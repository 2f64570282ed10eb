import CallEvolution.Proofs.Ownership
import CallEvolution.Proofs.Proposals
import CallEvolution.Proofs.Readings

/-! Looking for links in well-formed trees. Whatever is read at a node that is there is found, so matching
two parameters never fails. What is found around a node is the nearest object above it. -/

namespace CallEvolution

open GeneTerm GeneTree

theorem exists_ok_bind {ε α β : Type} {x : Except ε α} {f : α → Except ε β} (hx : ∃ a, x = .ok a)
    (hf : ∀ a, x = .ok a → ∃ b, f a = .ok b) : ∃ b, (x >>= f) = .ok b := by
  obtain ⟨a, ha⟩ := hx
  obtain ⟨b, hb⟩ := hf a ha
  exact ⟨b, by rw [ha]; exact hb⟩

theorem exists_ok_mapM {ε α β : Type} {f : α → Except ε β} {l : List α}
    (h : ∀ x ∈ l, ∃ y, f x = .ok y) : ∃ ys, l.mapM f = .ok ys := by
  induction l with
  | nil => exact ⟨[], rfl⟩
  | cons x l ih =>
    rw [List.mapM_cons]
    refine exists_ok_bind (h x (by simp)) fun y _ => ?_
    exact exists_ok_bind (ih fun z hz => h z (by simp [hz])) fun ys _ => ⟨y :: ys, rfl⟩

namespace GeneTree

variable {t : GeneTree} {x y : NodeId} {n : GeneNode}

theorem exists_name (hx : t.get? x = some n) : t.name x = .ok n.name := by
  rw [GeneTree.name, node_of_get? hx]
  rfl

theorem exists_variant (hx : t.get? x = some n) : t.variant x = .ok n.gene.variant := by
  rw [GeneTree.variant, node_of_get? hx]
  rfl

namespace WellFormed

theorem exists_get? (ht : t.WellFormed) (hx : t.Fixes x) : ∃ n, t.get? x = some n := by
  obtain ⟨v, hv⟩ := ht.unfolds
  obtain ⟨n, -, hn⟩ := hv.holds.get?_of_mem (mem_ids_of_mem_fixed (hx v hv))
  exact ⟨n, hn⟩

/-- The core of a node is found, and heads a term that is no higher. -/
theorem exists_coreNode (ht : t.WellFormed) (hx : t.get? x = some n) :
    ∃ y m, t.coreNode x = .ok y ∧ t.get? y = some m := by
  obtain ⟨p, rfl, hp, -⟩ := ht.exists_term hx
  refine ⟨p.core.id, p.core.content, hp.coreNode, ?_⟩
  exact hp.core.get?_id

theorem exists_parent (ht : t.WellFormed) (hx : t.get? x = some n) (hy : n.parent = some y) :
    ∃ m, t.get? y = some m := by
  cases ht.reachable x (contains_of_get? hx) with
  | refl =>
    obtain ⟨r, hr, horphan⟩ := ht.root_live
    rw [hx, Option.some.injEq] at hr
    rw [← hr, hy] at horphan
    cases horphan
  | @tail z _ _ howns =>
    have howner := ht.names_owner z x n howns hx
    rw [hy, Option.some.injEq] at howner
    obtain ⟨i, m, hm, -⟩ := howns
    exact ⟨m, howner ▸ hm⟩

theorem not_above_itself (ht : t.WellFormed) : ¬ Relation.TransGen t.Owns x x := by
  intro h
  obtain ⟨y, hxy, hyx⟩ := Relation.TransGen.head'_iff.mp h
  exact ht.not_reaches_owner hxy hyx

/-- What is above a node is its owner or above its owner. -/
theorem above_iff (ht : t.WellFormed) (howns : t.Owns y x) {z : NodeId} :
    Relation.TransGen t.Owns z x ↔ z = y ∨ Relation.TransGen t.Owns z y := by
  constructor
  · intro h
    obtain ⟨w, hzw, hwx⟩ := Relation.TransGen.tail'_iff.mp h
    obtain rfl := ht.owner_unique hwx howns
    exact (Relation.reflTransGen_iff_eq_or_transGen.mp hzw).imp_left Eq.symm
  · rintro (rfl | h)
    · exact .single howns
    · exact h.tail howns

theorem not_above_root (ht : t.WellFormed) : ¬ Relation.TransGen t.Owns y t.root := by
  intro h
  obtain ⟨z, -, hz⟩ := Relation.TransGen.tail'_iff.mp h
  exact ht.root_unowned z hz

end WellFormed

/-- Is an object the nearest one above a node? -/
structure Encloses (t : GeneTree) (o x : NodeId) : Prop where
  object : t.variant o = .ok .object
  above : Relation.TransGen t.Owns o x
  nearest : ∀ y, Relation.TransGen t.Owns o y → Relation.TransGen t.Owns y x → t.variant y ≠ .ok .object

/-- What an object puts in front of the name of a node that it encloses: its type, or without one its own name,
save at the root. -/
inductive Qualifies (t : GeneTree) (x : NodeId) : String → Prop where
  | type {o : NodeId} {fields : List NodeId} {type : String} (henclosing : t.Encloses o x)
    (hgene : t.gene o = .ok (.object fields (some type))) : Qualifies t x type
  | name {o : NodeId} {fields : List NodeId} {name : String} (henclosing : t.Encloses o x)
    (hgene : t.gene o = .ok (.object fields none)) (hroot : o ≠ t.root) (hname : t.name o = .ok name) :
    Qualifies t x name

theorem WellFormed.encloses_iff_of_object (ht : t.WellFormed) (howns : t.Owns y x)
    (hy : t.variant y = .ok .object) {o : NodeId} : t.Encloses o x ↔ o = y := by
  constructor
  · intro h
    refine ((ht.above_iff howns).mp h.above).resolve_right fun hoy => ?_
    exact h.nearest y hoy (.single howns) hy
  · rintro rfl
    refine ⟨hy, .single howns, fun z hoz hzx _ => ?_⟩
    rcases (ht.above_iff howns).mp hzx with rfl | hzo
    · exact ht.not_above_itself hoz
    · exact ht.not_above_itself (hoz.trans hzo)

theorem WellFormed.encloses_iff_of_other (ht : t.WellFormed) (howns : t.Owns y x)
    (hy : t.variant y ≠ .ok .object) {o : NodeId} : t.Encloses o x ↔ t.Encloses o y := by
  constructor
  · rintro ⟨hobject, habove, hnearest⟩
    refine ⟨hobject, ((ht.above_iff howns).mp habove).resolve_left ?_, fun z hoz hzy => ?_⟩
    · rintro rfl
      exact hy hobject
    · exact hnearest z hoz (hzy.tail howns)
  · rintro ⟨hobject, habove, hnearest⟩
    refine ⟨hobject, habove.tail howns, fun z hoz hzx => ?_⟩
    rcases (ht.above_iff howns).mp hzx with rfl | hzy
    · exact hy
    · exact hnearest z hoz hzy

end GeneTree

namespace Matching

variable {t : GeneTree} {x y : NodeId} {n : GeneNode}

theorem exists_entryPoint (ht : t.WellFormed) (hx : t.get? x = some n) :
    ∃ y, entryPoint t x = .ok y := by
  refine exists_ok_bind ⟨n, node_of_get? hx⟩ fun m hm => ?_
  rw [node_of_get? hx, Except.ok.injEq] at hm
  subst hm
  cases hp : n.parent with
  | none => exact ⟨x, rfl⟩
  | some p =>
    obtain ⟨m, hm⟩ := ht.exists_parent hx hp
    refine exists_ok_bind ⟨_, exists_variant hm⟩ fun k _ => ?_
    split
    · exact ⟨p, rfl⟩
    · exact ⟨x, rfl⟩

theorem exists_objectAroundWithin (ht : t.WellFormed) {k d : Nat} (hx : t.Descends t.root k x)
    (hk : k < d) : ∃ o, objectAroundWithin t d x = .ok o ∧ ∀ y, o = some y ↔ t.Encloses y x := by
  -- the way up to the root is shorter than the bound, and each step goes up one level
  induction hx generalizing d with
  | here =>
    obtain ⟨d, rfl⟩ := Nat.exists_eq_succ_of_ne_zero (Nat.ne_of_gt hk)
    obtain ⟨n, hn, horphan⟩ := ht.root_live
    refine ⟨none, ?_, fun y => iff_of_false nofun fun h => ht.not_above_root h.above⟩
    simp [objectAroundWithin, node_of_get? hn, horphan, bind, Except.bind, pure, Except.pure]
  | @step k y z hy howns ih =>
    obtain ⟨d, rfl⟩ := Nat.exists_eq_succ_of_ne_zero (Nat.ne_of_gt (Nat.zero_lt_of_lt hk))
    obtain ⟨o, ho, henclosing⟩ := ih (d := d) (by omega)
    obtain ⟨n, hn⟩ : ∃ n, t.get? z = some n := by
      have hcontains := ht.owned_live y z howns
      rw [contains, Option.isSome_iff_exists] at hcontains
      exact hcontains
    have hparent := ht.names_owner y z n howns hn
    obtain ⟨m, hm⟩ := ht.exists_parent hn hparent
    have hvariant := exists_variant hm
    by_cases hobject : m.gene.variant = .object
    · rw [hobject] at hvariant
      refine ⟨some y, ?_, fun w => ?_⟩
      · simp [objectAroundWithin, node_of_get? hn, hparent, hvariant, bind, Except.bind, pure, Except.pure]
      · rw [ht.encloses_iff_of_object howns hvariant, Option.some.injEq, eq_comm]
    · have hother : t.variant y ≠ .ok .object := hvariant ▸ fun h => hobject (Except.ok.inj h)
      refine ⟨o, ?_, fun w => ?_⟩
      · simp [objectAroundWithin, node_of_get? hn, hparent, hvariant, hobject, ho, bind, Except.bind]
      · rw [ht.encloses_iff_of_other howns hother, henclosing]

/-- The search upwards finds the enclosing object, if there is one. -/
theorem exists_objectAround (ht : t.WellFormed) (hx : t.get? x = some n) :
    ∃ o, objectAround t x = .ok o ∧ ∀ y, o = some y ↔ t.Encloses y x := by
  obtain ⟨k, hk⟩ := ht.exists_level (contains_of_get? hx)
  exact exists_objectAroundWithin ht hk (Nat.lt_succ_of_lt (ht.level_lt_size hk))

theorem exists_qualifiedName {m : GeneNode} (hy : t.get? y = some m) (hx : t.get? x = some n) :
    ∃ name, qualifiedName t y x = .ok name := by
  refine exists_ok_bind ⟨_, exists_name hx⟩ fun name _ => ?_
  split
  · exact ⟨name, rfl⟩
  · refine exists_ok_bind ⟨_, gene_of_get? hy⟩ fun g _ => ?_
    split
    · exact ⟨_, rfl⟩
    · exact exists_ok_bind ⟨_, exists_name hy⟩ fun other _ => ⟨_, rfl⟩

theorem exists_objectQualifier (ht : t.WellFormed) (hx : t.get? x = some n) :
    ∃ parts, objectQualifier t x = .ok parts ∧
      ((parts = [] ∧ ∀ q, ¬ t.Qualifies x q) ∨ ∃ q, parts = [q] ∧ t.Qualifies x q) := by
  obtain ⟨o, ho, henclosing⟩ := exists_objectAround ht hx
  have hqualifier : objectQualifier t x = (Except.ok o >>= _) := congrArg (· >>= _) ho
  cases o with
  | none =>
    refine ⟨[], hqualifier, .inl ⟨rfl, fun q hq => ?_⟩⟩
    cases hq with
    | type h _ | name h _ _ _ => cases (henclosing _).mpr h
  | some object =>
    have hencloses := (henclosing object).mp rfl
    obtain ⟨⟨name, g, parent⟩, hm, hvariant⟩ := exists_of_variant hencloses.object
    cases g
    case object fields refType =>
      have hgene := gene_of_get? hm
      change objectQualifier t x = (t.gene object >>= _) at hqualifier
      rw [hgene] at hqualifier
      cases refType with
      | some type => exact ⟨[type], hqualifier, .inr ⟨type, rfl, .type hencloses hgene⟩⟩
      | none =>
        change _ = if object = t.root then _ else _ at hqualifier
        by_cases hroot : object = t.root
        · rw [if_pos hroot] at hqualifier
          refine ⟨[], hqualifier, .inl ⟨rfl, fun q hq => ?_⟩⟩
          -- there is one enclosing object only, and that is the root
          cases hq with
          | type h hother =>
            obtain rfl := Option.some.inj ((henclosing _).mpr h)
            cases hgene.symm.trans hother
          | name h _ hother _ =>
            obtain rfl := Option.some.inj ((henclosing _).mpr h)
            exact hother hroot
        · rw [if_neg hroot, exists_name hm] at hqualifier
          exact ⟨[name], hqualifier, .inr ⟨name, rfl, .name hencloses hgene hroot (exists_name hm)⟩⟩
    all_goals cases hvariant

theorem exists_claimAll (ht : t.WellFormed) (tokens : List String) {claimed : List (String × NodeId)}
    {nodes : List (NodeId × GeneNode)} (hnodes : ∀ e ∈ nodes, t.get? e.1 = some e.2) :
    ∃ table, claimAll t tokens claimed nodes = .ok table := by
  induction nodes generalizing claimed with
  | nil => exact ⟨claimed, rfl⟩
  | cons e nodes ih =>
    obtain ⟨id, n⟩ := e
    obtain ⟨hn, hrest⟩ := List.forall_mem_cons.mp hnodes
    have hkeys : ∃ keys, nodeKeys t tokens id n = .ok keys := by
      unfold nodeKeys
      split
      · exact ⟨_, rfl⟩
      · obtain ⟨qualifiers, hqualifiers, -⟩ := exists_objectQualifier ht hn
        exact exists_ok_bind ⟨qualifiers, hqualifiers⟩ fun _ _ => ⟨_, rfl⟩
    rw [claimAll]
    split
    · exact exists_ok_bind hkeys fun keys _ => ih hrest
    · exact ih hrest

theorem exists_keyTable (ht : t.WellFormed) (tokens : List String) :
    ∃ table, keyTable t tokens = .ok table :=
  exists_claimAll ht tokens fun _ he => get?_of_mem_preorderWithin he

theorem exists_fieldCalled? (ht : t.WellFormed) {type : Option String} {name : String} {k : Variant}
    {fields : List NodeId} (hfields : ∀ f ∈ fields, t.Fixes f) :
    ∃ found, fieldCalled? t type name k fields = .ok found := by
  induction fields with
  | nil => exact ⟨none, rfl⟩
  | cons f fields ih =>
    obtain ⟨hf, hrest⟩ := List.forall_mem_cons.mp hfields
    obtain ⟨n, hn⟩ := ht.exists_get? hf
    obtain ⟨value, m, hvalue, hm⟩ := ht.exists_coreNode hn
    refine exists_ok_bind ⟨value, hvalue⟩ fun value' hvalue' => ?_
    rw [hvalue, Except.ok.injEq] at hvalue'
    subst hvalue'
    refine exists_ok_bind ⟨_, exists_name hn⟩ fun fieldName _ => ?_
    refine exists_ok_bind ⟨_, exists_variant hm⟩ fun fieldVariant _ => ?_
    split
    · exact ⟨some value, rfl⟩
    · exact ih hrest

variable {v w body other : ParamSite} {bodyIsTarget : Bool}

theorem exists_orientedLink (hv : v.tree.WellFormed) (hw : w.tree.WellFormed) (hx : v.tree.Fixes x)
    (hy : w.tree.Fixes y) : ∃ l, orientedLink v x w y = .ok l := by
  obtain ⟨n, hn⟩ := hv.exists_get? hx
  obtain ⟨m, hm⟩ := hw.exists_get? hy
  have hpick : ∀ reversed : Bool, ∃ l, (if reversed then do
      let node ← entryPoint v.tree x
      return ⟨w.address y, v.address node, .params⟩
    else do
      let node ← entryPoint w.tree y
      return ⟨v.address x, w.address node, .params⟩ : Except GeneError Link) = .ok l := by
    intro reversed
    split
    · exact exists_ok_bind (exists_entryPoint hv hn) fun node _ => ⟨_, rfl⟩
    · exact exists_ok_bind (exists_entryPoint hw hm) fun node _ => ⟨_, rfl⟩
  rw [orientedLink]
  split
  · refine exists_ok_bind ⟨_, exists_variant hn⟩ fun s _ => ?_
    exact exists_ok_bind ⟨_, exists_variant hm⟩ fun k _ => hpick _
  · exact hpick false

theorem exists_siteCore (hv : v.tree.WellFormed) :
    ∃ x, v.coreNode = .ok x ∧ v.tree.Fixes x ∧ ∃ n, v.tree.get? x = some n := by
  obtain ⟨n, hn⟩ := hv.exists_get? (fixes_root v.tree)
  obtain ⟨x, m, hx, hm⟩ := hv.exists_coreNode hn
  exact ⟨x, hx, (ParamSite.bears_of_coreNode hx).1, m, hm⟩

theorem exists_valueLink (hv : v.tree.WellFormed) (hw : w.tree.WellFormed) :
    ∃ l, valueLink v w = .ok l := by
  obtain ⟨x, hx, -⟩ := exists_siteCore hv
  obtain ⟨y, hy, -⟩ := exists_siteCore hw
  refine exists_ok_bind ⟨x, hx⟩ fun x' hx' => exists_ok_bind ⟨y, hy⟩ fun y' hy' => ?_
  exact exists_orientedLink hv hw (ParamSite.bears_of_coreNode hx').1 (ParamSite.bears_of_coreNode hy').1

theorem exists_bodyLink (bodyIsTarget : Bool) (hbody : body.tree.WellFormed) (hother : other.tree.WellFormed)
    (hx : body.tree.Fixes x) (hy : other.tree.Fixes y) :
    ∃ l, bodyLink body x other y bodyIsTarget = .ok l := by
  rw [bodyLink]
  split
  · exact exists_orientedLink hother hbody hy hx
  · exact exists_orientedLink hbody hother hx hy

theorem exists_linksByKey (hbody : body.tree.WellFormed) (hother : other.tree.WellFormed) :
    ∃ ls, linksByKey body other bodyIsTarget = .ok ls := by
  refine exists_ok_bind (exists_keyTable hother _) fun otherMap hotherMap => ?_
  refine exists_ok_bind (exists_keyTable hbody _) fun bodyMap hbodyMap => ?_
  refine exists_ok_mapM fun pair hpair => ?_
  obtain ⟨hx, hy⟩ := bears_of_pair hotherMap hbodyMap hpair
  exact exists_bodyLink bodyIsTarget hbody hother hx.1 hy.1

theorem exists_linksWithBody (hbody : body.tree.WellFormed) (hother : other.tree.WellFormed) :
    ∃ ls, linksWithBody body other bodyIsTarget = .ok ls := by
  obtain ⟨y, hy, -, n, hn⟩ := exists_siteCore hother
  obtain ⟨x, hx, hfix, m, hm⟩ := exists_siteCore hbody
  refine exists_ok_bind ⟨y, hy⟩ fun y' hy' => ?_
  rw [hy, Except.ok.injEq] at hy'
  subst hy'
  refine exists_ok_bind ⟨_, exists_name hn⟩ fun name _ => ?_
  refine exists_ok_bind ⟨_, exists_variant hn⟩ fun k _ => ?_
  refine exists_ok_bind ⟨x, hx⟩ fun x' hx' => ?_
  rw [hx, Except.ok.injEq] at hx'
  subst hx'
  split
  · exact exists_linksByKey hbody hother
  · refine exists_ok_bind ⟨_, gene_of_get? hm⟩ fun g hg => ?_
    split
    · next fields type =>
      have hfields : ∀ f ∈ fields, body.tree.Fixes f := fun f hf => hfix.child hg rfl hf
      refine exists_ok_bind (exists_fieldCalled? hbody hfields) fun field hfield => ?_
      cases field with
      | none => exact exists_linksByKey hbody hother
      | some f =>
        have hlink := exists_bodyLink bodyIsTarget hbody hother
          (bears_of_fieldCalled? hfields hfield).1 (ParamSite.bears_of_coreNode hy).1
        exact exists_ok_bind hlink fun l _ => ⟨[l], rfl⟩
    · exact exists_linksByKey hbody hother

end Matching
end CallEvolution
