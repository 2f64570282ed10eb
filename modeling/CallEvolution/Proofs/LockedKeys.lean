import CallEvolution.Proofs.Adoption
import CallEvolution.Proofs.ExistingRows
import CallEvolution.Proofs.FaithfulRepairs
import CallEvolution.Proofs.LinkEntries
import CallEvolution.Proofs.QuietGenes
import CallEvolution.Proofs.SoundActions
import CallEvolution.Proofs.Templates

/-! Keys of rows that nothing gets at. Where a value of another variant is taken over, all keys stay; a tree
without keys stays one; and what neither draws nor repairs change is whether a column with keys can change.
Rows with the same keys have them in order alike. -/

namespace CallEvolution

open GeneTerm GeneTree

/-- Does a gene hold the key of a row, its own or that of another one? -/
def Gene.isKey : Gene → Bool
  | primaryKey .. | foreignKey .. => true
  | _ => false

namespace Gene

variable {g : Gene}

theorem isKey_blank (g : Gene) : g.blank.isKey = g.isKey := by
  cases g <;> rfl

theorem isKey_rename (f : NodeId → NodeId) (g : Gene) : (g.rename f).isKey = g.isKey := by
  cases g <;> rfl

theorem isKey_keyless (g : Gene) : g.keyless.isKey = g.isKey := by
  cases g <;> rfl

theorem not_isKey_of_isCollection (h : g.isCollection = true) : g.isKey = false := by
  cases g
  case array | map => rfl
  all_goals cases h

theorem changesByParts_blank (g : Gene) : g.blank.changesByParts = g.changesByParts := by
  cases g <;> rfl

theorem changesByParts_rename (f : NodeId → NodeId) (g : Gene) :
    (g.rename f).changesByParts = g.changesByParts := by
  cases g <;> rfl

theorem allowsChange_rename (f : NodeId → NodeId) (g : Gene) :
    (g.rename f).allowsChange = g.allowsChange := by
  cases g <;> rfl

theorem not_changesByParts_of_isCollection (h : g.isCollection = true) : g.changesByParts = false := by
  cases g
  case array | map => rfl
  all_goals cases h

end Gene

theorem lasts_not_isKey : Lasts fun g _ => g.isKey = false where
  rename f g _ := by rw [Gene.isKey_rename]
  faces _ h := h
  varies {g k _} _ hg h := by rwa [← Gene.isKey_blank, hg.blank, Gene.isKey_blank]
  fewer hc _ _ _ := Gene.not_isKey_of_isCollection (by rwa [Gene.isCollection_withMembers])
  more hc _ _ _ _ := Gene.not_isKey_of_isCollection (by rwa [Gene.isCollection_withMembers])

/-- Whether a term can change is told by its bounds. -/
theorem GeneTerm.changeable_stencil (v : GeneTerm) : v.stencil.changeable = v.changeable := by
  induction v using induct with
  | node id content parts ih =>
    rw [stencil, changeable, changeable, Gene.changesByParts_rename, Gene.changesByParts_blank,
      Gene.allowsChange_rename, Gene.allowsChange_blank]
    cases hc : content.gene.isCollection with
    | true =>
      rw [Gene.not_changesByParts_of_isCollection hc]
      rfl
    | false =>
      have hparts : (parts.map stencil).map changeable = parts.map changeable := by
        rw [List.map_map]
        exact List.map_congr_left ih
      simp only [Bool.false_eq_true, if_false, hparts]

namespace GeneTree

variable {t u s src : GeneTree} {v w : GeneTerm} {x : NodeId} {g : Gene}

/-- Is no node of a tree a key? Templates are nodes like any other. -/
def HasNoKey (t : GeneTree) : Prop := ∀ slot ∈ t.slots, ∀ n ∈ slot, n.gene.isKey = false

instance (t : GeneTree) : Decidable t.HasNoKey :=
  inferInstanceAs (Decidable (∀ slot ∈ t.slots, ∀ n ∈ slot, n.gene.isKey = false))

/-- Is the tree one that no mutation changes, or one without keys? -/
def LocksKeys (t : GeneTree) : Prop := t.isMutable t.root = .ok true → t.HasNoKey

instance (t : GeneTree) : Decidable t.LocksKeys :=
  inferInstanceAs (Decidable (t.isMutable t.root = .ok true → t.HasNoKey))

theorem HasNoKey.gene (h : t.HasNoKey) (hg : t.gene x = .ok g) : g.isKey = false := by
  obtain ⟨n, hn, rfl⟩ := live_of_gene hg
  exact h (some n) (Array.mem_of_getElem? (Option.join_eq_some_iff.mp hn)) n rfl

theorem HasNoKey.filterMap_eq_nil {β : Type} (h : t.HasNoKey) {f : NodeId × GeneNode → Option β}
    (hf : ∀ e, e.2.gene.isKey = false → f e = none) : (Action.valueNodes t).filterMap f = [] := by
  refine List.filterMap_eq_nil_iff.mpr fun e he => hf e ?_
  exact h.gene (gene_of_get? (get?_of_mem_preorderWithin he))

theorem Unfolds.hasNoKey_iff (hv : t.Unfolds v) : t.HasNoKey ↔ v.Every fun g _ => g.isKey = false := by
  refine ⟨fun h => hv.holds.every_gene fun _ _ => h.gene, fun h => ?_⟩
  rintro slot hslot n hn
  obtain ⟨i, hi⟩ := Array.mem_iff_getElem?.mp hslot
  have hget : t.get? ⟨i⟩ = some n := Option.join_eq_some_iff.mpr (hi.trans (congrArg some hn))
  obtain ⟨content, parts, -, hgene, hevery⟩ := hv.every_at h (gene_of_get? hget)
  rw [Every] at hevery
  exact hgene ▸ hevery.1

theorem Unfolds.hasNoKey_of_renews (hv : t.Unfolds v)
    (h : Renews (fun g _ => g.isKey = false) t v u w) (ht : t.HasNoKey) : u.HasNoKey :=
  (hv.becomes h.becomes).hasNoKey_iff.mpr (h.every (hv.hasNoKey_iff.mp ht))

/-- A tree with the same bounds can change if and only if the other one can. -/
theorem LocksKeys.of_renews (h : t.LocksKeys) (hv : t.Unfolds v)
    (hw : Renews (fun g _ => g.isKey = false) t v u w) : u.LocksKeys := by
  intro hu
  have hold := hv.becomes hw.becomes
  refine hv.hasNoKey_of_renews hw (h ?_)
  rw [← hv.root, hv.holds.isMutable, ← changeable_stencil, ← hw.stencil, changeable_stencil,
    ← hold.holds.isMutable, hold.root, hu]

theorem hasNoKey_keyless : t.keyless.HasNoKey ↔ t.HasNoKey := by
  simp [HasNoKey, keyless, GeneNode.keyless, Gene.isKey_keyless]

theorem locksKeys_keyless : t.keyless.LocksKeys ↔ t.LocksKeys := by
  rw [LocksKeys, LocksKeys, isMutable_keyless, hasNoKey_keyless]
  rfl

/-- A tree has stayed as it is, or it has no keys before and after. -/
def KeepsKeys (t u : GeneTree) : Prop := u = t ∨ (t.HasNoKey ∧ u.HasNoKey)

namespace KeepsKeys

theorem refl (t : GeneTree) : t.KeepsKeys t := .inl rfl

theorem trans (h : t.KeepsKeys u) (h' : u.KeepsKeys s) : t.KeepsKeys s := by
  rcases h with rfl | ⟨ht, hu⟩
  · exact h'
  · rcases h' with rfl | ⟨-, hs⟩
    · exact .inr ⟨ht, hu⟩
    · exact .inr ⟨ht, hs⟩

theorem locksKeys (h : t.KeepsKeys u) (ht : t.LocksKeys) : u.LocksKeys := by
  rcases h with rfl | ⟨-, hu⟩
  · exact ht
  · exact fun _ => hu

end KeepsKeys
end GeneTree

/-- What gives way to a better rank is no foreign key, and not of the variant that it gives way to. -/
theorem Matching.ne_of_reversed {k s : Variant} (h : direction k s none = .reversed) :
    k ≠ s ∧ k ≠ .foreignKey := by
  constructor
  · rintro rfl
    cases k <;> cases h
  · rintro rfl
    cases s <;> cases h

theorem Matching.not_isKey_of_reversed {g : Gene} {s : Variant}
    (h : direction g.variant s none = .reversed) : g.isKey = false := by
  obtain ⟨-, hprimary⟩ := not_wrapper_of_reversed h
  obtain ⟨-, hforeign⟩ := ne_of_reversed h
  cases g
  case primaryKey => exact absurd rfl hprimary
  case foreignKey => exact absurd rfl hforeign
  all_goals rfl

namespace Edit

variable {t src : GeneTree} {v s : GeneTerm}

/-- What takes over a value of another variant keeps its keys, if it is no wrapper and no key itself. -/
theorem ensures_adopt_keepsKeys (hv : t.Unfolds v) (hs : src.Holds s) (hroot : s.id = src.root)
    (hne : v.content.gene.variant ≠ s.content.gene.variant) (hw : v.content.gene.isWrapper = false)
    (hkey : v.content.gene.isKey = false) :
    Ensures (adopt t.root src src.root) t fun _ u => t.KeepsKeys u := by
  have hgene : t.gene v.id = .ok v.content.gene := gene_of_get? hv.holds.get?_id
  have hk : src.variant s.id = .ok s.content.gene.variant := variant_of_gene (gene_of_get? hs.get?_id)
  -- leaves and texts in base 64 are all that changes, and they have no keys
  have hchanged : t.HasNoKey → Ensures (adopt t.root src src.root) t fun _ u => t.KeepsKeys u := by
    intro hnone
    have haccepts : v.Accepts (fun g _ => g.isKey = false) s := by
      intro _ hadmits
      cases hadmits with
      | node hvariant => exact absurd hvariant hne
    have hself : v.core = v := by
      obtain ⟨id, content, parts⟩ := v
      exact core_self hw
    have hadopt := renews_adopt lasts_not_isKey hv.exact hv.holds hs haccepts (hself.symm ▸ haccepts)
    rw [hv.root, hroot] at hadopt
    refine Ensures.mono hadopt ?_
    rintro r u ⟨w, hw⟩
    exact .inr ⟨hnone, hv.hasNoKey_of_renews hw hnone⟩
  obtain ⟨id, content, parts⟩ := v
  have hshaped := hv.holds.shaped
  rw [Shaped] at hshaped
  by_cases howned : content.gene.owned = []
  · obtain rfl : parts = [] := List.map_eq_nil_iff.mp (hshaped.1.trans howned)
    refine hchanged (hv.hasNoKey_iff.mpr ?_)
    rw [Every]
    exact ⟨hkey, List.forall_mem_nil _⟩
  by_cases hdata : ∃ data text min max, content.gene = .base64 data ∧ t.gene data = .ok (.string text min max)
  · obtain ⟨data, text, min, max, hbase, hstring⟩ := hdata
    rw [hbase] at hshaped
    obtain ⟨p, rfl, rfl⟩ := List.map_eq_singleton_iff.mp hshaped.1
    have hp := hv.holds.parts.each p (List.mem_singleton_self p)
    refine hchanged (hv.hasNoKey_iff.mpr ?_)
    rw [Every, List.forall_mem_singleton]
    refine ⟨hkey, ?_⟩
    obtain ⟨pid, inner, below⟩ := p
    have hinner : inner.gene = .string text min max :=
      Except.ok.inj ((gene_of_get? hp.get?_node).symm.trans hstring)
    have hlow := hp.shaped
    rw [Shaped, hinner] at hlow
    obtain rfl : below = [] := List.map_eq_nil_iff.mp hlow.1
    rw [Every, hinner]
    exact ⟨rfl, List.forall_mem_nil _⟩
  · have hviews := views_adopt_of_parts hgene hk hne hw howned fun data text min max hbase hstring =>
      hdata ⟨data, text, min, max, hbase, hstring⟩
    rw [hv.root, hroot] at hviews
    exact hviews.mono fun _ _ hu => .inl hu

end Edit

theorem forall₂_zipIdx {α : Type} {R : α → α → Prop} {xs ys : List α} (h : List.Forall₂ R xs ys) (n : Nat) :
    List.Forall₂ (fun x y => R x.1 y.1 ∧ y.2 = x.2) (xs.zipIdx n) (ys.zipIdx n) := by
  induction h generalizing n with
  | nil => exact .nil
  | cons hxy _ ih => exact .cons ⟨hxy, rfl⟩ (ih (n + 1))

namespace Action

variable {a b c : Action} {i : Nat} {t : GeneTree}

/-- Does a row exist already, or have its columns that can change no keys? -/
def LocksKeys (a : Action) : Prop := a.isExisting = true ∨ ∀ p ∈ a.params, p.gene.LocksKeys

instance (a : Action) : Decidable a.LocksKeys :=
  inferInstanceAs (Decidable (a.isExisting = true ∨ ∀ p ∈ a.params, p.gene.LocksKeys))

theorem locksKeys_keyless : a.keyless.LocksKeys ↔ a.LocksKeys := by
  have htrees : (∀ p ∈ a.keyless.params, p.gene.LocksKeys) ↔ ∀ p ∈ a.params, p.gene.LocksKeys := by
    simp only [keyless, List.mem_map, forall_exists_index, and_imp, forall_apply_eq_imp_iff₂]
    exact forall₂_congr fun p _ => GeneTree.locksKeys_keyless
  exact or_congr Iff.rfl htrees

/-- An action that is the same but for parameters without keys. -/
structure KeepsKeys (a b : Action) : Prop where
  id_eq : b.id = a.id
  kind_eq : b.kind = a.kind
  trees : List.Forall₂ (fun p q => p.gene.KeepsKeys q.gene) a.params b.params

namespace KeepsKeys

theorem refl (a : Action) : a.KeepsKeys a := ⟨rfl, rfl, List.forall₂_same.mpr fun p _ => .refl p.gene⟩

theorem trans (h : a.KeepsKeys b) (h' : b.KeepsKeys c) : a.KeepsKeys c :=
  ⟨h'.id_eq.trans h.id_eq, h'.kind_eq.trans h.kind_eq,
    forall₂_trans (fun _ _ _ hpq hqr => hpq.trans hqr) h.trees h'.trees⟩

theorem setGene (h : ∀ p, a.param? i = some p → p.gene.KeepsKeys t) : a.KeepsKeys (a.setGene i t) := by
  refine ⟨rfl, rfl, List.forall₂_iff_get.mpr ⟨(List.length_modify ..).symm, fun j hj hj' => ?_⟩⟩
  simp only [List.get_eq_getElem, Action.setGene, List.getElem_modify]
  split
  · next hij =>
    subst hij
    exact h _ (List.getElem?_eq_getElem hj)
  · exact .refl _

theorem locksKeys (h : a.KeepsKeys b) (ha : a.LocksKeys) : b.LocksKeys := by
  refine ha.imp (fun hold => ?_) fun hlocks q hq => ?_
  · rw [isExisting, h.kind_eq]
    exact hold
  · obtain ⟨j, hj, rfl⟩ := List.mem_iff_getElem.mp hq
    have hp := hlocks _ (List.getElem_mem (h.trees.length_eq ▸ hj))
    exact (h.trees.get (h.trees.length_eq ▸ hj) hj).locksKeys hp

theorem keyReferences_eq (h : a.KeepsKeys b) : a.keyReferences = b.keyReferences := by
  refine flatMap_eq_of_forall₂ ((forall₂_zipIdx h.trees 0).imp ?_)
  rintro ⟨p, i⟩ ⟨q, j⟩ ⟨hsame | ⟨hp, hq⟩, hij⟩
  · simp only at hsame hij ⊢
    rw [hsame, hij]
  · simp only
    rw [hp.filterMap_eq_nil, hq.filterMap_eq_nil]
    all_goals
      rintro ⟨id, n⟩ hkey
      dsimp only at hkey ⊢
      split
      · next hgene =>
        rw [hgene] at hkey
        cases hkey
      · rfl

theorem primaryKeys_eq (h : a.KeepsKeys b) : a.primaryKeys = b.primaryKeys := by
  refine flatMap_eq_of_forall₂ (h.trees.imp fun p q hpq => ?_)
  rcases hpq with hsame | ⟨hp, hq⟩
  · rw [hsame]
  · rw [hp.filterMap_eq_nil, hq.filterMap_eq_nil]
    all_goals
      rintro ⟨id, n⟩ hkey
      dsimp only at hkey ⊢
      split
      · next hgene =>
        rw [hgene] at hkey
        cases hkey
      · rfl

theorem table?_eq (h : a.KeepsKeys b) : b.table? = a.table? := by
  rw [table?, table?, h.kind_eq]

end KeepsKeys
end Action

namespace Individual

variable {ind u : Individual} {earlier earlier' rows rows' : List Action}

theorem keysOf_of_keepsKeys (h : List.Forall₂ Action.KeepsKeys earlier earlier') (table : String) :
    keysOf earlier table = keysOf earlier' table := by
  have hfilter := List.rel_filter (p := fun a : Action => decide (a.table? = some table))
    (q := fun a : Action => decide (a.table? = some table)) (fun a b hab => by simp only [hab.table?_eq]) h
  exact flatMap_eq_of_forall₂ (hfilter.imp fun _ _ => Action.KeepsKeys.primaryKeys_eq)

theorem verifyFrom_of_keepsKeys (hearlier : List.Forall₂ Action.KeepsKeys earlier earlier')
    (h : List.Forall₂ Action.KeepsKeys rows rows') : verifyFrom earlier rows = verifyFrom earlier' rows' := by
  induction h generalizing earlier earlier' with
  | nil => rfl
  | @cons a b rows rows' hab _ ih =>
    have hsatisfied : isSatisfied earlier = isSatisfied earlier' := by
      funext k
      rw [isSatisfied, isSatisfied, keysOf_of_keepsKeys hearlier]
    rw [verifyFrom, verifyFrom, hab.keyReferences_eq, hsatisfied, ih (List.rel_append hearlier (.cons hab .nil))]

theorem verify_of_keepsKeys (h : List.Forall₂ Action.KeepsKeys ind.init u.init) : u.verify = ind.verify :=
  (verifyFrom_of_keepsKeys .nil h).symm

/-- Can no mutation get at a key of a row? -/
def LocksKeys (ind : Individual) : Prop := ∀ a ∈ ind.init, a.LocksKeys

theorem LocksKeys.of_keepsKeys (h : ind.LocksKeys) (hrows : List.Forall₂ Action.KeepsKeys ind.init u.init) :
    u.LocksKeys := by
  intro b hb
  obtain ⟨i, hi, rfl⟩ := List.mem_iff_getElem.mp hb
  have hi' : i < ind.init.length := hrows.length_eq ▸ hi
  exact (hrows.get hi' hi).locksKeys (h _ (List.getElem_mem hi'))

variable {γ : Type} [RandomSource γ]

theorem locksKeys_of_repair {changed : Bool} (hind : ind.LocksKeys)
    (h : Gives (ind.repair : Draw γ (Bool × Individual)) (changed, u)) : u.LocksKeys := by
  obtain ⟨rows, removed, c, hrows, rfl, -⟩ := parts_of_repair h
  obtain ⟨later, hlater, hmended⟩ := mended_of_repairFrom hrows
  intro b hb
  rw [hlater, List.nil_append] at hb
  obtain ⟨a, ha, hsame⟩ := List.mem_map.mp (hmended.sublist.subset (List.mem_map_of_mem hb))
  rw [← Action.locksKeys_keyless, ← hsame, Action.locksKeys_keyless]
  exact hind a ha

end Individual

variable {γ : Type} [RandomSource γ] {a b : Action} {r : Except GeneError Unit} {t : GeneTree}

theorem RandomEdit.locksKeys_randomizeAll (ht : t.WellFormed ∧ t.LocksKeys) :
    Ensures (randomizeAll : RandomEdit γ Unit) t fun _ u => u.WellFormed ∧ u.LocksKeys := by
  refine views_get.ensures_bind ?_ fun _ => ht
  rintro _ rfl
  obtain ⟨v, hv⟩ := ht.1.unfolds
  rw [← hv.root]
  refine (renews_randomize lasts_not_isKey hv.exact hv.holds false).mono ?_
  rintro r u ⟨-, w, hw⟩
  exact ⟨(hv.becomes hw.becomes).wellFormed, ht.2.of_renews hv hw⟩

theorem Action.locksKeys_of_randomize (ha : a.IsSound) (hlocks : a.LocksKeys)
    (h : Gives (a.randomize : Draw γ (Except GeneError Unit × Action)) (r, b)) : b.LocksKeys := by
  have htrees : (∀ p ∈ a.params, p.gene.LocksKeys) → ∀ q ∈ b.params, q.gene.LocksKeys := fun htrees q hq =>
    (forall_of_randomize (Q := fun t => t.WellFormed ∧ t.LocksKeys)
      (fun _ => RandomEdit.locksKeys_randomizeAll) (fun p hp => ⟨ha p hp, htrees p hp⟩) h q hq).2
  obtain ⟨params, rfl⟩ := params_of_randomize h
  exact hlocks.imp_right htrees

end CallEvolution
