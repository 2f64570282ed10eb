import CallEvolution.Proofs.LinkedRuns
import CallEvolution.Proofs.LockedKeys
import CallEvolution.Proofs.SettledRuns

/-! Keys of rows along runs. Links that lead to a row lead to columns that are no keys, so a pass over links
leaves all keys of rows as they are, and so do mutations if the columns that can change have no keys. Foreign
keys that a repair has put in order are in order ever after then. -/

namespace CallEvolution

open GeneTerm GeneTree

namespace Individual

variable {γ : Type} {ind u v : Individual} {l : Link} {ls : List Link} {id : ActionId} {i n : Nat}
  {t t' : GeneTree} {a row : Action}

/-- Does a link that leads to a row lead to a column as a whole, which gives way to the better rank of the
source? -/
def Outranks (ind : Individual) (l : Link) : Prop :=
  l.target.action ∈ ind.initIds → ∃ w n, ind.Shows l.target.action l.target.param w ∧
    w.id = l.target.node ∧ ind.node? l.source = some n ∧
    Matching.direction w.content.variant n.variant none = .reversed

namespace Outranks

theorem of_genes (h : ind.Outranks l) (hids : u.initIds = ind.initIds)
    (hgenes : ∀ i, u.gene l.source.action i = ind.gene l.source.action i ∧
      u.gene l.target.action i = ind.gene l.target.action i) : u.Outranks l := by
  intro hid
  obtain ⟨w, n, ⟨t, ht, hw⟩, hroot, hn, hreversed⟩ := h (hids ▸ hid)
  refine ⟨w, n, ⟨t, (hgenes _).2.trans ht, hw⟩, hroot, ?_, hreversed⟩
  rw [node?, (hgenes _).1]
  exact hn

theorem alike (h : ind.Outranks l) (hids : u.initIds = ind.initIds) (hsource : ind.Carries l.source)
    (halike : ind.Alike u) : u.Outranks l := by
  intro hid
  obtain ⟨w, n, hw, hroot, hn, hreversed⟩ := h (hids ▸ hid)
  obtain ⟨w', hw', hmould⟩ := halike _ _ w hw
  obtain ⟨m, n', hm, hn', hblank⟩ := hsource.exists_nodes halike
  obtain rfl : n = m := Option.some.inj (hn.symm.trans hm)
  refine ⟨w', n', hw', (id_eq_of_mould_eq hmould).trans hroot, hn', ?_⟩
  rw [GeneNode.variant_of_blank_eq (blank_eq_of_mould_eq hmould), GeneNode.variant_of_blank_eq hblank]
  exact hreversed

end Outranks

theorem outranks_of_within (hind : ind.Coherent) (hl : l.Within ind.main) : ind.Outranks l :=
  fun hid => absurd hl.target_mem (hind.not_main_of_init hid)

theorem outranks_of_directs (hind : ind.Anchored) (hrow : row ∈ ind.init) (ha : a ∈ ind.main)
    (h : l.Directs row a) : ind.Outranks l := by
  intro hid
  have hids := hind.coherent.ids_distinct
  obtain ⟨-, v, hv, w, hw, ⟨-, htarget⟩ | ⟨-, hsource, hroot, k, s, hk, hs, hreversed⟩⟩ := h
  · -- a link that leads to the call leads to no row
    rw [htarget.1.1, ParamSite.action_of_mem hw] at hid
    exact absurd (List.mem_map_of_mem ha) (hind.coherent.not_main_of_init hid)
  · obtain ⟨hgene, hp⟩ := gene_of_mem hids (List.mem_append_left _ hrow) hv
    obtain ⟨x, hx⟩ := (hind.sound row (List.mem_append_left _ hrow) v.param hp).unfolds
    obtain ⟨m, hm, rfl⟩ := exists_of_variant hs
    obtain ⟨n, hn, rfl⟩ := exists_of_variant hk
    have hget : v.tree.get? v.tree.root = some x.content := by
      have hget := hx.holds.get?_id
      rwa [hx.root] at hget
    obtain rfl : n = x.content := Option.some.inj (hn.symm.trans hget)
    rw [hroot]
    refine ⟨x, m, ⟨v.tree, hgene, hx⟩, hx.root, ?_, hreversed⟩
    have hgene' := (gene_of_mem hids (List.mem_append_right _ ha) hw).1
    rw [node?, hsource.1.1, hsource.1.2.1, hgene']
    exact hm

/-- Are all links anchored, and do those to rows lead to columns of a worse rank, which are no keys? -/
structure GuardsKeys (ind : Individual) : Prop extends Anchored ind where
  outranked : ∀ l ∈ ind.links, ind.Outranks l

/-- If links leave the keys of rows alone, the rows stay but for columns without keys, and links leave their keys
alone again. -/
def KeepsKeys (ind u : Individual) : Prop :=
  ind.GuardsKeys → u.GuardsKeys ∧ List.Forall₂ Action.KeepsKeys ind.init u.init

namespace KeepsKeys

theorem refl (ind : Individual) : KeepsKeys ind ind :=
  fun h => ⟨h, List.forall₂_same.mpr fun a _ => .refl a⟩

theorem trans (h : KeepsKeys ind u) (h' : KeepsKeys u v) : KeepsKeys ind v := by
  intro hind
  obtain ⟨hu, hrows⟩ := h hind
  obtain ⟨hv, hrows'⟩ := h' hu
  exact ⟨hv, forall₂_trans (fun _ _ _ => .trans) hrows hrows'⟩

theorem trans_of_locks (h : ind.LocksKeys → KeepsKeys ind u) (h' : u.LocksKeys → KeepsKeys u v) :
    ind.LocksKeys → KeepsKeys ind v := by
  intro hlocks hind
  obtain ⟨-, hrows⟩ := h hlocks hind
  exact (h hlocks).trans (h' (hlocks.of_keepsKeys hrows)) hind

/-- What leaves the rows alone and makes no link. -/
theorem of_rearranges (hre : ind.Coherent → Rearranges ind u) (hinit : u.init = ind.init)
    (hanchored : ind.Anchored → u.Anchored) : KeepsKeys ind u := by
  intro h
  have hre := hre h.coherent
  refine ⟨⟨hanchored h.toAnchored, fun l hl => ?_⟩, ?_⟩
  · refine (h.outranked l (hre.links hl)).of_genes ?_ (h.gene_of_rearranges hre hl)
    rw [initIds, hinit, initIds]
  · rw [hinit]
    exact List.forall₂_same.mpr fun a _ => .refl a

theorem setGene (ht : ind.gene id i = .ok t) (hkeys : ind.GuardsKeys → id ∈ ind.initIds → t.KeepsKeys t')
    (halike : ind.GuardsKeys → ind.Alike (ind.setGene id i t')) :
    KeepsKeys ind (ind.setGene id i t') := by
  intro h
  have halike := halike h
  have hanchored := h.of_alike (evolves_setGene ind id i t') halike (fun _ _ _ => exists_gene_of_setGene)
    (links_setGene ind id i t' ▸ List.Subset.refl _)
  refine ⟨⟨hanchored, fun l hl => ?_⟩, ?_⟩
  · rw [links_setGene] at hl
    exact (h.outranked l hl).alike (SameSequence.setGene ..).init (h.ends l hl).1 halike
  · rw [Individual.setGene, modifyAction]
    split
    · refine forall₂_modifyFirst .refl fun a ha he => .setGene fun p hp => ?_
      subst he
      have haction := action?_of_mem h.coherent.ids_distinct (List.mem_append_left _ ha)
      have hgene := gene_eq_ok_iff.mpr ⟨a, p, haction, hp, rfl⟩
      obtain rfl : p.gene = t := Except.ok.inj (hgene.symm.trans ht)
      exact hkeys h (List.mem_map_of_mem ha)
    · exact List.forall₂_same.mpr fun a _ => .refl a

theorem addLinks (hls : ind.GuardsKeys → ∀ l ∈ ls, ind.Outranks l)
    (hadd : Gives ((Revision.addLinks ls : Revision γ Nat).run.run ind) (.ok n, u))
    (hanchored : ind.Anchored → u.Anchored) : KeepsKeys ind u := by
  intro h
  have hanchored := hanchored h.toAnchored
  obtain ⟨ks, hks, rfl, -⟩ := Revision.links_addLinks hadd
  refine ⟨⟨hanchored, fun l hl => ?_⟩, List.forall₂_same.mpr fun a _ => .refl a⟩
  have houtranks : ind.Outranks l :=
    (List.mem_append.mp hl).elim (h.outranked l) fun hnew => hls h l (hks.subset hnew)
  exact houtranks.of_genes rfl fun _ => ⟨rfl, rfl⟩

end KeepsKeys

theorem keepsKeys_linkRows {r : Linker} {directives : List DbDirective} (hid : id ∈ ind.mainIds)
    (h : Gives ((r.linkRows id directives : Linking γ Nat).run.run ind) (.ok n, u)) : KeepsKeys ind u := by
  obtain ⟨a, ls, ha, hls, hadd⟩ := Linker.steps_of_linkRows h
  refine .addLinks (fun hind l hl => ?_) hadd fun hind => hind.linkRows h
  obtain ⟨row, hrow, hdirects⟩ := Linker.directs_of_directedLinks hls l hl
  refine outranks_of_directs hind.toAnchored hrow ?_ hdirects
  have hid' : a.id = id := by simpa using List.find?_some ha
  rcases List.mem_append.mp (List.mem_of_find?_eq_some ha) with hinit | hmain
  · exact absurd hid (hind.coherent.not_main_of_init (hid' ▸ List.mem_map_of_mem hinit))
  · exact hmain

section

variable [RandomSource γ] {r : Linker}

theorem keepsKeys_linkAll (h : Gives ((r.linkAll : Linking γ Nat).run.run ind) (.ok n, u)) :
    KeepsKeys ind u := by
  obtain ⟨ls, hls, hadd⟩ := Linker.steps_of_linkAll h
  exact .addLinks (fun hind l hl => outranks_of_within hind.coherent (Linker.within_of_allProposals hls l hl))
    hadd fun hind => hind.linkAll h

theorem keepsKeys_relink (h : Gives ((r.relink id : Linking γ Nat).run.run ind) (.ok n, u)) :
    KeepsKeys ind u := by
  rcases Linker.steps_of_relink h with rfl | ⟨ls, hls, hadd⟩
  · exact .refl u
  · exact .addLinks (fun hind l hl => outranks_of_within hind.coherent (hls l hl)) hadd
      fun hind => hind.relink h

end

/-- A link of a pass writes to no key of a row. -/
theorem keepsKeys_applyLink (hl : l ∈ ind.links) :
    Ensures (Revision.applyLink l : Revision γ Bool) ind fun _ u => u.links = ind.links ∧ KeepsKeys ind u := by
  refine ⟨trivial, fun r u hr => ?_⟩
  rcases Revision.ensures_applyLink.2 r u hr with
    rfl | ⟨source, t, hsource, ht, -, r', t', hadopt, hu, -⟩
  · exact ⟨rfl, .refl u⟩
  refine ⟨hu ▸ links_setGene .., ?_⟩
  rw [hu]
  refine .setGene ht (fun hind hid => ?_) fun hind => ?_
  · obtain ⟨w, n, ⟨t₁, ht₁, hw⟩, hroot, hn, hreversed⟩ := hind.outranked l hl hid
    obtain rfl : t = t₁ := Except.ok.inj (ht.symm.trans ht₁)
    obtain ⟨n', src, s, hn', hsrc, hs, hsroot, hvariant⟩ := (hind.ends l hl).1.exists_source
    obtain rfl : source = src := Option.some.inj (hsource.symm.trans hsrc)
    obtain rfl : n = n' := Option.some.inj (hn.symm.trans hn')
    rw [← hroot, hw.root] at hadopt
    refine (Edit.ensures_adopt_keepsKeys hw hs hsroot ?_ ?_ ?_).2 _ _ hadopt
    · rw [← GeneNode.variant, ← GeneNode.variant, hvariant]
      exact (Matching.ne_of_reversed hreversed).1
    · exact Gene.isWrapper_eq_false_iff.mpr (Matching.not_wrapper_of_reversed hreversed)
    · exact Matching.not_isKey_of_reversed hreversed
  · obtain ⟨r'', s, hyields, halike, -⟩ :=
      Revision.exists_applyLink (γ := γ) (hind.ends l hl).1 (hind.ends l hl).2
    obtain ⟨-, rfl⟩ := hyields.eq_of_gives hr
    exact hu ▸ halike

theorem keepsKeys_sync (h : Gives ((Revision.sync : Revision γ Nat).run.run ind) (.ok n, u)) :
    KeepsKeys ind u := by
  have hpass : Ensures (Revision.sync : Revision γ Nat) ind fun _ u => u.links = ind.links ∧ KeepsKeys ind u :=
    Ensures.get_bind (Revision.ensures_applyAll_of_mem .refl (fun _ _ _ => .trans)
      (fun _ _ => keepsKeys_applyLink) (List.Subset.refl _))
  exact (hpass.2 _ _ h).2

end Individual

open Individual

variable {γ : Type} [RandomSource γ] {s : Sampler} {seed : Seed} {ind u : Individual}

namespace Sampler

variable {rows : List Action} {identity : Nat}

theorem locksKeys_addInit (hrows : ∀ a ∈ rows, a.IsSound ∧ a.LocksKeys) (hind : ind.LocksKeys)
    (h : Attempt.Yields (addInit rows ind : Attempt γ Individual) u) : u.LocksKeys := by
  induction rows generalizing ind with
  | nil =>
    rw [Attempt.eq_of_pure h]
    exact hind
  | cons a rows ih =>
    obtain ⟨⟨ha, hlocks⟩, hrows⟩ := List.forall_mem_cons.mp hrows
    obtain ⟨⟨_, b⟩, hb, h⟩ := Attempt.of_bind h
    have hb := Action.locksKeys_of_randomize ha hlocks (Attempt.gives_of_ofChange hb)
    refine ih hrows (fun c hc => ?_) h
    rcases List.mem_append.mp hc with hold | hnew
    · exact hind c hold
    · rw [List.mem_singleton.mp hnew]
      exact hb

/-- Keys are in order behind the repair of a seed, and nothing that follows writes to them. -/
theorem guardsKeys_of_fromSeed (hs : s.IsSound) (hrows : ∀ a ∈ seed.init, a.IsSound)
    (h : Attempt.Yields (s.fromSeed seed identity : Attempt γ Individual) u) :
    u.GuardsKeys ∧ u.verify = true ∧ ((∀ a ∈ seed.init, a.LocksKeys) → u.LocksKeys) := by
  obtain ⟨v₁, ids, v₂, changed, v₃, n, v₄, v₅, k, hinit, hnamed, hrepair, hlink, hids, hfollow, hsync⟩ :=
    steps_of_fromSeed h
  obtain ⟨hv₁, hnone⟩ := anchored_addInit hrows (.new .smart identity) rfl hinit
  have hv₂ := anchored_addNamed hs hv₁ hnamed
  obtain ⟨-, -, hsame, hlinks⟩ := keepsExisting_addNamed hnamed
  obtain ⟨hv₃, hlinks⟩ := hv₂.repair (hlinks.trans hnone) hrepair
  have hguards : v₃.GuardsKeys := by
    refine ⟨hv₃, ?_⟩
    rw [hlinks]
    exact List.forall_mem_nil _
  have hfollow := respects_followLinks .refl (fun _ _ _ => .trans)
    (fun _ _ _ _ _ _ hid => keepsKeys_linkRows hid) hids hfollow
  obtain ⟨hu, hkept⟩ := ((keepsKeys_linkAll hlink).trans hfollow).trans (keepsKeys_sync hsync) hguards
  refine ⟨hu, (verify_of_keepsKeys hkept).trans (verify_of_repair hrepair), fun hlocks => ?_⟩
  have hnew : (Individual.new .smart identity).LocksKeys := List.forall_mem_nil _
  have hlocks₁ := locksKeys_addInit (fun a ha => ⟨hrows a ha, hlocks a ha⟩) hnew hinit
  have hlocks₂ : v₂.LocksKeys := by
    rw [Individual.LocksKeys, hsame]
    exact hlocks₁
  exact (locksKeys_of_repair hlocks₂ hrepair).of_keepsKeys hkept

end Sampler

namespace Mutator

/-- A row that can change is a candidate for its columns without keys. -/
theorem respects_keepsKeys (hs : s.IsSound) :
    Respects γ s fun ind u => ind.LocksKeys → KeepsKeys ind u where
  refl ind _ := .refl ind
  trans _ _ _ := .trans_of_locks
  insertMain ind i a ha _ := .of_rearranges (fun _ => rearranges_insertMain ind i a) rfl fun hind =>
    hind.insertMain (Sampler.sound_of_randomAction hs ha) i
  removeMain ind i a u hremove _ := .of_rearranges (fun hind => rearranges_removeMain hind hremove)
    (parts_of_removeMain hremove).1 fun hind => hind.removeMain hremove
  swapMain ind i j u hswap _ := .of_rearranges (fun _ => rearranges_swapMain hswap)
    (perm_swapMain hswap).1 fun hind => hind.swapMain hswap
  relink _ _ _ _ _ hlink _ := keepsKeys_relink hlink
  setGene ind cs c t t' settings steering ids hcandidates hc ht hmutate hlocks := by
    have hterms : ind.GuardsKeys → ∃ v w, t.Unfolds v ∧ Renews (fun g _ => g.isKey = false) t v t' w := by
      intro hind
      obtain ⟨v, hv⟩ := (wellFormed_of_gene hind.sound ht).unfolds
      rw [← hv.root] at hmutate
      obtain ⟨w, hw⟩ := (RandomEdit.renews_mutate lasts_not_isKey hv.exact hv.holds _ _).2 _ _ hmutate
      exact ⟨v, w, hv, hw⟩
    refine .setGene ht (fun hind hid => ?_) fun hind => ?_
    · obtain ⟨v, w, hv, hw⟩ := hterms hind
      obtain ⟨a, ha, hnew, haction, p, hp, hmutable⟩ := mem_candidates hcandidates hc
      have hrow : a ∈ ind.init := by
        refine (List.mem_append.mp ha).resolve_right fun hmain => ?_
        rw [haction] at hid
        exact hind.coherent.not_main_of_init hid (List.mem_map_of_mem hmain)
      have hfound := action?_of_mem hind.coherent.ids_distinct ha
      rw [haction] at ht
      obtain rfl : p.gene = t := Except.ok.inj ((gene_eq_ok_iff.mpr ⟨a, p, hfound, hp, rfl⟩).symm.trans ht)
      have hnone := (hlocks a hrow).resolve_left (by simp [hnew]) p (List.mem_of_getElem? hp) hmutable
      exact .inr ⟨hnone, hv.hasNoKey_of_renews hw hnone⟩
    · obtain ⟨v, w, hv, hw⟩ := hterms hind
      exact alike_setGene ⟨t, ht, hv⟩ (hv.becomes hw.becomes) hw.mould

theorem Bears.keepsKeys (hs : s.IsSound) (h : Bears γ s ind u) : ind.LocksKeys → KeepsKeys ind u := by
  obtain ⟨m, impacts, identity, mutant, hmutant, rfl⟩ := h
  obtain ⟨changed, n, synced, hchanged, hsynced, rfl⟩ := steps_of_mutate hmutant
  intro hlocks
  have hdescent : KeepsKeys synced { synced with
      descent := synced.descent.evolve changed.operator.name identity } :=
    fun hind => ⟨⟨hind.withDescent _, fun l hl => (hind.outranked l hl).of_genes rfl fun _ => ⟨rfl, rfl⟩⟩,
      List.forall₂_same.mpr fun a _ => .refl a⟩
  exact (((respects_keepsKeys hs).change hchanged hlocks).trans (keepsKeys_sync hsynced)).trans hdescent

end Mutator

/-- What a seed is made into has its foreign keys in order. They stay in order through mutation after mutation
if the columns of new rows that can change have no keys. -/
theorem Sampler.verify_of_descent (s : Sampler) (seed : Seed) (identity : Nat) (ind : Individual)
    (g g' : γ) (hs : s.IsSound) (hrows : ∀ a ∈ seed.init, a.IsSound)
    (hseed : (s.fromSeed seed identity : Attempt γ Individual).run g = .ok (.ok ind, g')) :
    ind.verify = true ∧ ((∀ a ∈ seed.init, a.LocksKeys) → ∀ u,
      Relation.ReflTransGen (fun ind u => ∃ s, s.IsSound ∧ Mutator.Bears γ s ind u) ind u →
        u.verify = true) := by
  obtain ⟨hguards, hverify, hlocks⟩ := guardsKeys_of_fromSeed hs hrows ⟨g, g', hseed⟩
  refine ⟨hverify, fun hseedLocks u hdescent => ?_⟩
  have hkeeps : ind.LocksKeys → KeepsKeys ind u := by
    induction hdescent with
    | refl => exact fun _ => .refl ind
    | tail _ hborn ih =>
      obtain ⟨s', hs', hborn⟩ := hborn
      exact .trans_of_locks ih (hborn.keepsKeys hs')
  obtain ⟨-, hkept⟩ := hkeeps (hlocks hseedLocks) hguards
  exact (verify_of_keepsKeys hkept).trans hverify

/-- A user and an order of that user are new. The amount of the order can change, but neither key. -/
theorem Sampler.verify_of_descent_of_users :
    let rows := [Action.db "users" [⟨"id", .dbColumn, .primaryKey "id" "users" (.longIn "id" 7 7) 1⟩],
      .db "orders" [⟨"user_id", .dbColumn, .foreignKey "user_id" "users" false⟩,
        ⟨"amount", .dbColumn, .integerIn "amount" 0 9⟩]]
    let call := Action.rpc "shop" "list" []
    let s : Sampler := { settings := {}, catalog := catalogOf [call] }
    let seed : Seed := { name := "orders", init := rows, main := [call.name] }
    ∃ (ind u : Individual) (g : WordSource),
      (s.fromSeed seed 0 : Attempt WordSource Individual).run ⟨[], 1⟩ = .ok (.ok ind, g) ∧
      Mutator.Bears WordSource s ind u ∧ u.init ≠ ind.init ∧ ind.verify = true ∧ u.verify = true := by
  intro rows call s seed
  let m : Mutator := ⟨{ structureProbability := 0 }⟩
  let made : Option (Individual × WordSource) := Attempt.result? (s.fromSeed seed 0) ⟨[], 1⟩
  have hruns : (made.bind fun r => (Attempt.result? (m.mutate s none 1 r.1) r.2).map fun r' =>
      decide (r'.1.individual.init = r.1.init)) = some false := by decide +kernel
  have hs : s.IsSound := by
    have hvalues : s.catalog.values = [call] := rfl
    simp [IsSound, hvalues, call, Action.IsSound, Action.rpc, Action.template]
  have hrows : ∀ a ∈ seed.init, a.IsSound := by
    have huser := (Built.primaryKey "id" "users" 1 (.longIn "id" 7 7)).wellFormed
    have horder := (Built.foreignKey "user_id" "users" false).wellFormed
    have hamount := (Built.integerIn "amount" 0 9).wellFormed
    simpa [seed, rows, Action.IsSound, Action.db, Action.template] using ⟨huser, horder, hamount⟩
  have hlocks : ∀ a ∈ seed.init, a.LocksKeys := by decide +kernel
  obtain ⟨⟨ind, g⟩, hmade, hborn⟩ := Option.bind_eq_some_iff.mp hruns
  obtain ⟨⟨mutant, g'⟩, hmutant, hchanged⟩ := Option.map_eq_some_iff.mp hborn
  clear_value m s seed
  have hseed := Attempt.run_of_result? hmade
  have hborn : Mutator.Bears WordSource s ind mutant.individual :=
    ⟨m, none, 1, mutant, ⟨g, g', Attempt.run_of_result? hmutant⟩, rfl⟩
  obtain ⟨hverify, hdescent⟩ := verify_of_descent s seed 0 ind ⟨[], 1⟩ g hs hrows hseed
  exact ⟨ind, mutant.individual, g, hseed, hborn, of_decide_eq_false hchanged, hverify,
    hdescent hlocks mutant.individual (.single ⟨s, hs, hborn⟩)⟩

/-- The key of a user that is new is changed, and the order of that user does not follow. -/
theorem Mutator.mutate_leaves_key_dangling :
    let rows := [Action.db "users" [⟨"id", .dbColumn, .primaryKey "id" "users" (.longIn "id" 0 99) 1⟩],
      .db "orders" [⟨"user_id", .dbColumn, .foreignKey "user_id" "users" false⟩]]
    let call := Action.rpc "shop" "list" []
    let s : Sampler := { settings := {}, catalog := Sampler.catalogOf [call] }
    let m : Mutator := ⟨{ structureProbability := 0 }⟩
    let run : Attempt WordSource (Bool × Bool) := do
      let ind ← s.fromSeed { name := "orders", init := rows, main := [call.name] } 0
      let mutant ← m.mutate s none 1 ind
      return (ind.verify, mutant.individual.verify)
    (run.run ⟨[], 1⟩).map Prod.fst = .ok (.ok (true, false)) := by
  decide +kernel

end CallEvolution
