import CallEvolution.Proofs.RowRuns

/-! Rows of seeds that stand for existing data. They are drawn and repaired like all other rows; behind
that nothing writes to them. So those rows keep the values of the seed that no draw changes and whose
foreign keys are in order among each other. -/

namespace CallEvolution

/-- Does randomizing leave the gene itself as it is? Whether an optional gene is active is drawn, as
leaves and the members of collections are. -/
def Gene.isSteady : Gene → Bool
  | base64 _ | primaryKey .. | foreignKey .. | autoIncrement | immutableData _ | object .. => true
  | cyclePlaceholder | limitPlaceholder => true
  | _ => false

def GeneTree.IsSteady (t : GeneTree) : Prop := ∀ slot ∈ t.slots, ∀ n ∈ slot, n.gene.isSteady = true

instance (t : GeneTree) : Decidable t.IsSteady :=
  inferInstanceAs (Decidable (∀ slot ∈ t.slots, ∀ n ∈ slot, n.gene.isSteady = true))

def Action.IsSteady (a : Action) : Prop := ∀ p ∈ a.params, p.gene.IsSteady

instance (a : Action) : Decidable a.IsSteady :=
  inferInstanceAs (Decidable (∀ p ∈ a.params, p.gene.IsSteady))

variable {γ : Type} [RandomSource γ]

theorem Draw.none_of_steady {g : Gene} {r : Option Gene} (hg : g.isSteady = true)
    (h : Gives (leaf? g : Draw γ (Option Gene)) r) : r = none := by
  cases g with
  | base64 | primaryKey | foreignKey | autoIncrement | immutableData | object | cyclePlaceholder
  | limitPlaceholder => exact eq_of_gives_pure h
  | integer | long | float | double | boolean | string | choice | date | time | moment | array
  | optional | map => cases hg

theorem GeneTree.IsSteady.gene {t : GeneTree} (ht : t.IsSteady) {id : NodeId} {g : Gene}
    (h : t.gene id = .ok g) : g.isSteady = true := by
  obtain ⟨n, hn, rfl⟩ := live_of_gene h
  exact ht (some n) (Array.mem_of_getElem? (Option.join_eq_some_iff.mp hn)) n rfl

namespace RandomEdit

variable {t : GeneTree}

omit [RandomSource γ] in
theorem views_forM {step : NodeId → RandomEdit γ Unit} (h : ∀ id, Views (step id) t fun _ => True)
    (ids : List NodeId) : Views (ids.forM step) t fun _ => True := by
  induction ids with
  | nil => exact Views.pure trivial
  | cons id ids ih => exact (h id).bind fun _ _ => ih

theorem views_randomizeWithin (ht : t.IsSteady) (forceNew : Bool) (depth : Nat) (id : NodeId) :
    Views (randomizeWithin forceNew depth id : RandomEdit γ Unit) t fun _ => True := by
  induction depth generalizing id with
  | zero => exact Ensures.throw ⟨rfl, fun _ _ => trivial⟩
  | succ depth ih =>
    rw [randomizeWithin]
    refine views_query.bind fun old hold => ?_
    have hsteady := ht.gene hold
    refine views_draw.bind fun fresh hfresh => ?_
    rw [Draw.none_of_steady hsteady hfresh]
    cases old with
    | object fields => exact views_forM ih fields
    | primaryKey table gene _ => exact ih gene
    | base64 data => exact ih data
    | foreignKey | autoIncrement | immutableData | cyclePlaceholder | limitPlaceholder =>
      exact Views.pure trivial
    | integer | long | float | double | boolean | string | choice | date | time | moment | array
    | optional | map => cases hsteady

theorem views_randomizeAll (ht : t.IsSteady) :
    Views (randomizeAll : RandomEdit γ Unit) t fun _ => True := by
  refine views_get.bind fun u hu => views_get.bind fun v hv => ?_
  exact views_randomizeWithin ht false _ _

end RandomEdit

theorem Parameter.eq_of_randomizeAll {ps qs : List Parameter} {r : Except GeneError Unit}
    (hps : ∀ p ∈ ps, p.gene.IsSteady)
    (h : Gives (randomizeAll ps : Draw γ (Except GeneError Unit × List Parameter)) (r, qs)) :
    qs = ps := by
  induction ps generalizing r qs with
  | nil =>
    cases Draw.eq_of_gives_pure h
    rfl
  | cons p ps ih =>
    obtain ⟨hp, hrest⟩ := List.forall_mem_cons.mp hps
    obtain ⟨⟨result, gene⟩, hgene, h⟩ := Draw.gives_of_bind h
    obtain ⟨rfl, -⟩ := (RandomEdit.views_randomizeAll hp).2 _ _ hgene
    cases result with
    | error e =>
      cases Draw.eq_of_gives_pure h
      rfl
    | ok _ =>
      obtain ⟨⟨result, rest⟩, htail, h⟩ := Draw.gives_of_bind h
      cases Draw.eq_of_gives_pure h
      rw [ih hrest htail]

theorem Action.IsSteady.eq_of_randomize {a b : Action} {r : Except GeneError Unit} (ha : a.IsSteady)
    (h : Gives (a.randomize : Draw γ (Except GeneError Unit × Action)) (r, b)) : b = a := by
  obtain ⟨⟨r', params⟩, hparams, h⟩ := Draw.gives_of_bind h
  cases Draw.eq_of_gives_pure h
  rw [Parameter.eq_of_randomizeAll ha hparams]

/-- Rows with ids that are given one after the other. -/
def Action.numberedFrom (n : Nat) : List Action → List Action
  | [] => []
  | a :: rest => { a with id := ⟨n⟩ } :: numberedFrom (n + 1) rest

namespace Individual

variable {earlier before rows drawn mended : List Action} {a b : Action} {k : KeyReference}
  {keys : List KeyReference} {removed : List ActionId} {changed : Bool}

theorem eq_of_mendKeys {r : Option Action} (hkeys : ∀ k ∈ keys, isSatisfied earlier k = true)
    (h : Gives (mendKeys earlier a keys : Draw γ (Option Action × Bool)) (r, changed)) : r = some a := by
  rw [mendKeys_of_satisfied hkeys] at h
  cases Draw.eq_of_gives_pure h
  rfl

theorem earlier_subset_repairFrom
    (h : Gives (repairFrom earlier rows : Draw γ (List Action × List ActionId × Bool))
      (mended, removed, changed)) : earlier ⊆ mended := by
  induction rows generalizing earlier removed changed with
  | nil =>
    cases Draw.eq_of_gives_pure h
    exact List.Subset.refl _
  | cons a rows ih =>
    rcases gives_repairFrom_cons h with ⟨b, c, c', -, h, -⟩ | ⟨-, removed', c', -, -, h, -⟩
    · exact List.append_subset.mp (ih h) |>.1
    · exact ih h

theorem exists_repairFrom_rest
    (h : Gives (repairFrom earlier (a :: rows) : Draw γ (List Action × List ActionId × Bool))
      (mended, removed, changed)) :
    ∃ earlier' removed' c, earlier ⊆ earlier' ∧
      Gives (repairFrom earlier' rows : Draw γ _) (mended, removed', c) := by
  rcases gives_repairFrom_cons h with ⟨d, c, c', -, h, -⟩ | ⟨-, removed', c', -, -, h, -⟩
  · exact ⟨_, _, c', List.subset_append_left _ _, h⟩
  · exact ⟨earlier, removed', c', List.Subset.refl _, h⟩

theorem exists_repairFrom_rest_of_satisfied
    (hkeys : ∀ k ∈ a.keyReferences, isSatisfied earlier k = true)
    (h : Gives (repairFrom earlier (a :: rows) : Draw γ (List Action × List ActionId × Bool))
      (mended, removed, changed)) :
    ∃ c, Gives (repairFrom (earlier ++ [a]) rows : Draw γ _) (mended, removed, c) := by
  rcases gives_repairFrom_cons h with ⟨d, c, c', hd, hrest, -⟩ | ⟨c, removed', c', hnone, -, -⟩
  · obtain rfl := Option.some.inj (eq_of_mendKeys hkeys hd)
    exact ⟨c', hrest⟩
  · cases eq_of_mendKeys hkeys hnone

/-- A key that is in order stays so behind more rows, whatever their ids are. -/
theorem isSatisfied_mono (hmore : ∀ a ∈ before, ∃ id, { a with id } ∈ earlier)
    (h : isSatisfied before k = true) : isSatisfied earlier k = true := by
  rw [isSatisfied] at h ⊢
  split at h
  · next v hv =>
    simp only [List.contains_iff_mem, keysOf, List.mem_flatMap, List.mem_filter] at h ⊢
    obtain ⟨a, ⟨ha, htable⟩, hkey⟩ := h
    obtain ⟨id, hmem⟩ := hmore a ha
    exact ⟨{ a with id }, ⟨hmem, htable⟩, hkey⟩
  · exact h

/-- Of the rows that are drawn and repaired, those stay that no draw changes and whose keys are in order
among each other. -/
theorem mem_of_repairFrom (known : Action → Bool) {n : Nat}
    (hknown : ∀ a ∈ rows, known a = true → a.IsSteady)
    (hkeys : verifyFrom before (rows.filter known) = true)
    (hbefore : ∀ a ∈ before, ∃ id, { a with id } ∈ earlier)
    (hdrawn : List.Forall₂ (fun a b =>
      Gives (a.randomize : Draw γ (Except GeneError Unit × Action)) (.ok (), b)) rows drawn)
    (h : Gives (repairFrom earlier (Action.numberedFrom n drawn) :
      Draw γ (List Action × List ActionId × Bool)) (mended, removed, changed)) :
    ∀ i a, rows[i]? = some a → known a = true → { a with id := ⟨n + i⟩ } ∈ mended := by
  induction hdrawn generalizing earlier before n removed changed with
  | nil =>
    intro i a ha
    cases ha
  | @cons a b rows drawn hb _ ih =>
    obtain ⟨ha, hrows⟩ := List.forall_mem_cons.mp hknown
    rw [Action.numberedFrom] at h
    have hnext : ∀ i, n + 1 + i = n + (i + 1) := by omega
    by_cases hold : known a = true
    · -- nothing draws this row, and the repair takes it over as it is
      have hsame := (ha hold).eq_of_randomize hb
      subst hsame
      rw [List.filter_cons_of_pos hold, verifyFrom, Bool.and_eq_true, List.all_eq_true] at hkeys
      have hsatisfied : ∀ k ∈ ({ b with id := ⟨n⟩ } : Action).keyReferences,
          isSatisfied earlier k = true :=
        fun k hk => isSatisfied_mono hbefore (hkeys.1 k hk)
      obtain ⟨c, hrest⟩ := exists_repairFrom_rest_of_satisfied hsatisfied h
      have hbefore' : ∀ d ∈ before ++ [b], ∃ id, { d with id } ∈ earlier ++ [{ b with id := ⟨n⟩ }] := by
        intro d hd
        rcases List.mem_append.mp hd with hd | hd
        · obtain ⟨id, hid⟩ := hbefore d hd
          exact ⟨id, List.mem_append_left _ hid⟩
        · rw [List.mem_singleton.mp hd]
          exact ⟨⟨n⟩, by simp⟩
      intro i d hd hdk
      cases i with
      | zero =>
        rw [List.getElem?_cons_zero, Option.some.injEq] at hd
        subst hd
        exact earlier_subset_repairFrom hrest (by simp)
      | succ i =>
        have hmem := ih hrows hkeys.2 hbefore' hrest i d (by simpa using hd) hdk
        rwa [hnext] at hmem
    · rw [List.filter_cons_of_neg hold] at hkeys
      obtain ⟨earlier', removed', c, hsub, hrest⟩ := exists_repairFrom_rest h
      intro i d hd hdk
      cases i with
      | zero =>
        rw [List.getElem?_cons_zero, Option.some.injEq] at hd
        exact absurd (hd ▸ hdk) hold
      | succ i =>
        have hbefore' : ∀ d ∈ before, ∃ id, { d with id } ∈ earlier' := fun d hd =>
          (hbefore d hd).imp fun id hid => hsub hid
        have hmem := ih hrows hkeys hbefore' hrest i d (by simpa using hd) hdk
        rwa [hnext] at hmem

end Individual

namespace Sampler

open Individual

variable {s : Sampler} {seed : Seed} {ind u : Individual} {rows : List Action} {identity : Nat}

theorem steps_of_addInit (h : Attempt.Yields (addInit rows ind : Attempt γ Individual) u) :
    ∃ drawn, List.Forall₂ (fun a b =>
        Gives (a.randomize : Draw γ (Except GeneError Unit × Action)) (.ok (), b)) rows drawn ∧
      u.init = ind.init ++ Action.numberedFrom ind.nextId drawn ∧ u.links = ind.links ∧
      Evolves ind u := by
  induction rows generalizing ind with
  | nil =>
    rw [Attempt.eq_of_pure h]
    exact ⟨[], .nil, by simp [Action.numberedFrom], rfl, .refl ind⟩
  | cons a rows ih =>
    obtain ⟨⟨_, b⟩, hb, h⟩ := Attempt.of_bind h
    obtain ⟨drawn, hdrawn, hinit, hlinks, hevolves⟩ := ih h
    refine ⟨b :: drawn, .cons (Attempt.gives_of_ofChange hb) hdrawn, ?_, hlinks,
      (evolves_addInit ind b).trans hevolves⟩
    rw [hinit, Action.numberedFrom]
    exact List.append_assoc ..

/-- The rows of an individual are those of its seed with random values and with their keys repaired; rows
that exist get no other values then. -/
theorem rows_of_fromSeed (h : Attempt.Yields (s.fromSeed seed identity : Attempt γ Individual) u) :
    u.ids.Nodup ∧ ∃ drawn mended removed changed,
      List.Forall₂ (fun a b =>
        Gives (a.randomize : Draw γ (Except GeneError Unit × Action)) (.ok (), b)) seed.init drawn ∧
      Gives (repairFrom [] (Action.numberedFrom 1 drawn) :
        Draw γ (List Action × List ActionId × Bool)) (mended, removed, changed) ∧
      Action.AllStay mended u.init := by
  obtain ⟨started, ids, named, changed, repaired, n, linked, followed, k, hinit, hnamed, hrepair, hlink,
    hids, hfollow, hsync⟩ := steps_of_fromSeed h
  have hlink := Linker.ensures_linkAll_keepsExisting.2 _ _ hlink
  have hfollow := keepsExisting_followLinks hids hfollow
  have hsync := Revision.ensures_sync_keepsExisting.2 _ _ hsync
  have hrest := (hlink.trans hfollow).trans hsync
  obtain ⟨drawn, hdrawn, hrows, hnone, hevolves⟩ := steps_of_addInit hinit
  have hstarted : started.SparesExisting := by
    refine ⟨hevolves.coherent (coherent_new .smart identity), ?_⟩
    rw [hnone]
    exact List.forall_mem_nil _
  obtain ⟨hkeeps, -, hsame, hlinks⟩ := keepsExisting_addNamed hnamed
  have hnamed := (hkeeps hstarted).2
  obtain ⟨mended, removed, c, hmended, rfl, -, -, hleft⟩ := parts_of_repair hrepair
  have hrepaired : repaired.SparesExisting := by
    refine ⟨(evolves_repair hrepair).coherent hnamed.coherent, ?_⟩
    rw [hleft, hlinks, hnone]
    exact List.forall_mem_nil _
  obtain ⟨hstay, hlast⟩ := hrest hrepaired
  refine ⟨hlast.coherent.ids_distinct, drawn, repaired.init, removed, c, hdrawn, ?_, hstay⟩
  rwa [hsame, hrows] at hmended

/-- What a seed makes of rows that exist. They get random values and are repaired like new rows, and from
then on they are kept. So all those are in the individual as the seed has them that no draw changes and
whose foreign keys are in order among each other. -/
theorem existing_rows_of_fromSeed (s : Sampler) (seed : Seed) (identity : Nat) (ind : Individual)
    (g g' : γ)
    (h : (s.fromSeed seed identity : Attempt γ Individual).run g = .ok (.ok ind, g')) :
    ind.ids.Nodup ∧ ∃ drawn mended removed changed,
      List.Forall₂ (fun a b =>
        Gives (a.randomize : Draw γ (Except GeneError Unit × Action)) (.ok (), b)) seed.init drawn ∧
      Gives (repairFrom [] (Action.numberedFrom 1 drawn) :
        Draw γ (List Action × List ActionId × Bool)) (mended, removed, changed) ∧
      Action.AllStay mended ind.init ∧
      ∀ known : Action → Bool,
        (∀ a ∈ seed.init, known a = true → a.isExisting = true ∧ a.IsSteady) →
        verifyFrom [] (seed.init.filter known) = true →
        ∀ i a, seed.init[i]? = some a → known a = true → { a with id := ⟨1 + i⟩ } ∈ ind.init := by
  obtain ⟨hids, drawn, mended, removed, changed, hdrawn, hmended, hstay⟩ := rows_of_fromSeed ⟨g, g', h⟩
  refine ⟨hids, drawn, mended, removed, changed, hdrawn, hmended, hstay, ?_⟩
  intro known hknown hkeys i a ha hold
  have hsteady : ∀ a ∈ seed.init, known a = true → a.IsSteady := fun a ha hold => (hknown a ha hold).2
  have hmem := mem_of_repairFrom known hsteady hkeys (List.forall_mem_nil _) hdrawn hmended i a ha hold
  exact hstay.mem hmem (hknown a (List.mem_of_getElem? ha) hold).1

/-- A user and an order of that user exist and stay, and a new note gets the key of that user. -/
theorem existing_rows_of_fromSeed_of_users :
    let user := (Action.db "users" [⟨"id", .dbColumn,
      .primaryKey "id" "users" (.leaf "id" (.immutableData "7")) 1⟩]).asExisting
    let order := (Action.db "orders" [⟨"user_id", .dbColumn,
      .leaf "user_id" (.foreignKey "users" (some 7) false)⟩]).asExisting
    let note := Action.db "notes" [⟨"user_id", .dbColumn, .foreignKey "user_id" "users" false⟩]
    let call := Action.rpc "shop" "list" [⟨"count", .query, .integerIn "count" 0 9⟩]
    let s : Sampler := { settings := {}, catalog := catalogOf [call] }
    let seed : Seed := { name := "orders", init := [user, note, order], main := [call.name] }
    ∃ (ind : Individual) (g : WordSource),
      (s.fromSeed seed 0 : Attempt WordSource Individual).run ⟨[], 1⟩ = .ok (.ok ind, g) ∧
      { user with id := ⟨1⟩ } ∈ ind.init ∧ { order with id := ⟨3⟩ } ∈ ind.init := by
  intro user order note call s seed
  let made : Option (Individual × WordSource) := Attempt.result? (s.fromSeed seed 0) ⟨[], 1⟩
  have hruns : made.isSome = true := by decide +kernel
  have hknown : ∀ a ∈ seed.init, a.isExisting = true → a.isExisting = true ∧ a.IsSteady := by
    decide +kernel
  have hkeys : verifyFrom [] (seed.init.filter (·.isExisting)) = true := by decide +kernel
  have huser : seed.init[0]? = some user := rfl
  have horder : seed.init[2]? = some order := rfl
  have hold : user.isExisting = true ∧ order.isExisting = true := ⟨rfl, rfl⟩
  obtain ⟨⟨ind, g⟩, hmade⟩ := Option.isSome_iff_exists.mp hruns
  clear_value s seed user order
  have hrun := Attempt.run_of_result? hmade
  obtain ⟨-, _, _, _, _, -, -, -, hkept⟩ := existing_rows_of_fromSeed s seed 0 ind ⟨[], 1⟩ g hrun
  have hrows := hkept (·.isExisting) hknown hkeys
  exact ⟨ind, g, hrun, hrows 0 user huser hold.1, hrows 2 order horder hold.2⟩

/-- A user that exists gets another key. -/
theorem fromSeed_overwrites_row :
    let user := (Action.db "users" [⟨"id", .dbColumn,
      .primaryKey "id" "users" (.leaf "id" (.long 7 0 99)) 1⟩]).asExisting
    let call := Action.rpc "shop" "list" []
    let s : Sampler := { settings := {}, catalog := catalogOf [call] }
    let seed : Seed := { name := "users", init := [user], main := [call.name] }
    ((s.fromSeed seed 0 : Attempt WordSource Individual).run ⟨[], 1⟩).map (fun r =>
        r.1.map fun ind => ind.init.map fun row => (row.isExisting, row.primaryKeys)) =
      .ok (.ok [(true, [56])]) ∧ user.primaryKeys = [7] := by
  decide +kernel

end Sampler
end CallEvolution
