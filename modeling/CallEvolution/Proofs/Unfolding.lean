import CallEvolution.Proofs.Embedding

/-! Declared types are unfolded faithfully. Each object of a tree shows the fields of its type, and a
reference is cut off just where its type was entered before or where the path is too long. -/

namespace CallEvolution

open GeneTree

namespace FieldType

/-- The object type that is referred to, in whatever collections. -/
def target? : FieldType → Option String
  | ref target => some target
  | array inner _ | map inner _ => inner.target?
  | _ => none

/-- What a gene of the type is if it is not cut off. -/
def variant : FieldType → Variant
  | integer => .integer
  | long => .long
  | float => .float
  | double => .double
  | boolean => .boolean
  | string => .string
  | choice _ => .choice
  | date => .date
  | time => .time
  | moment => .moment
  | base64 => .base64
  | ref _ => .object
  | array .. => .array
  | map .. => .map

end FieldType

namespace GeneTree

def CutOff (t : GeneTree) (x : NodeId) : Prop := ∃ g, t.gene x = .ok g ∧ g.variant.isPlaceholder = true

/-- Is a node a collection of parts, or the placeholder that its parts are? -/
def Collects (t : GeneTree) (name : String) (make : NodeId → Gene) (part : NodeId → Prop)
    (x : NodeId) : Prop :=
  t.CutOff x ∧ part x ∨
    ∃ y, t.name x = .ok name ∧ t.gene x = .ok (make y) ∧ ¬ t.CutOff y ∧ part y

end GeneTree

namespace Schemas

/-- The object types that a build comes to, each with the types around it, the innermost first. -/
inductive Visits (r : Schemas) (requested : String) : List String → String → Prop where
  | start : Visits r requested [] requested
  | follow {path : List String} {typeName target : String} {schema : ObjectType} {field : FieldDecl}
    (h : Visits r requested path typeName) (hschema : r.get? typeName = some schema)
    (hfield : field ∈ schema.fields) (htarget : field.type.target? = some target)
    (hnew : target ∉ typeName :: path) (hroom : (typeName :: path).length < r.maxDepth) :
    Visits r requested (typeName :: path) target

/-- Is a node what a declared type comes down to, inside of objects of the types on a path? -/
def Reduces (r : Schemas) (t : GeneTree) (path : List String) (name : String) :
    FieldType → NodeId → Prop
  | .ref target, x =>
    t.name x = .ok name ∧ ∃ g, t.gene x = .ok g ∧
      if target ∈ path then g = .cyclePlaceholder
      else if r.maxDepth ≤ path.length then g = .limitPlaceholder
      else ∃ fields, g = .object fields (some target)
  | .array inner maxSize, x =>
    t.Collects name (.array · [] maxSize) (r.Reduces t path name inner) x
  | .map inner maxSize, x => t.Collects name (.map · [] maxSize) (r.Reduces t path name inner) x
  | .choice values, x => t.name x = .ok name ∧ t.gene x = .ok (.choice values 0)
  | type, x => t.name x = .ok name ∧ t.variant x = .ok type.variant

/-- Is a node a declared field? A field that may be missing is an active optional, unless it is cut off. -/
def Shows (r : Schemas) (t : GeneTree) (path : List String) (field : FieldDecl) (x : NodeId) : Prop :=
  ∃ y, r.Reduces t path field.name field.type y ∧
    (field.required = true ∨ t.CutOff y → x = y) ∧
    (¬ (field.required = true ∨ t.CutOff y) →
      t.name x = .ok field.name ∧ t.gene x = .ok (.optional y true))

/-- What every way down from a node meets, inside of objects of the types on a path. -/
structure Faithful (r : Schemas) (t : GeneTree) (path : List String) (x : NodeId) : Prop where
  distinct : ∀ {types y}, t.Trail path x types y → types.Nodup
  bounded : ∀ {types y}, t.Trail path x types y → types.length ≤ max 1 r.maxDepth
  objects : ∀ {types y fields refType}, t.Trail path x types y →
    t.gene y = .ok (.object fields refType) →
      ∃ typeName schema, refType = some typeName ∧ r.get? typeName = some schema ∧
        List.Forall₂ (r.Shows t types) schema.fields fields
  collections : ∀ {types y g}, t.Trail path x types y → t.gene y = .ok g → g.isCollection = true →
    ∀ z ∈ g.owned, ¬ t.CutOff z

variable {r : Schemas} {t : GeneTree} {path : List String} {x : NodeId} {name : String} {type : FieldType}
  {field : FieldDecl}

theorem live_of_variant {v : Variant} (h : t.variant x = .ok v) : ∃ g, t.gene x = .ok g := by
  obtain ⟨n, hn, -⟩ := ok_of_map h
  exact ⟨n.gene, gene_of_get? (get?_of_node hn)⟩

theorem Reduces.live (h : r.Reduces t path name type x) : ∃ g, t.gene x = .ok g := by
  cases type with
  | ref target =>
    obtain ⟨-, g, hg, -⟩ := h
    exact ⟨g, hg⟩
  | array inner maxSize | map inner maxSize =>
    obtain ⟨⟨g, hg, -⟩, -⟩ | ⟨y, -, hg, -⟩ := h
    · exact ⟨g, hg⟩
    · exact ⟨_, hg⟩
  | choice values => exact ⟨_, h.2⟩
  | _ => exact live_of_variant h.2

theorem Shows.live (h : r.Shows t path field x) : ∃ g, t.gene x = .ok g := by
  obtain ⟨y, hy, hplain, hwrapped⟩ := h
  by_cases hcases : field.required = true ∨ t.CutOff y
  · exact hplain hcases ▸ hy.live
  · exact ⟨_, (hwrapped hcases).2⟩

end Schemas

namespace GeneTree.Embeds

open Schemas

variable {r : Schemas} {t u : GeneTree} {f : NodeId → NodeId} {path types : List String}
  {x y : NodeId} {g : Gene} {name : String} {type : FieldType} {field : FieldDecl}

theorem cutOff_iff (h : t.Embeds u f) (hg : t.gene x = .ok g) : u.CutOff (f x) ↔ t.CutOff x := by
  simp only [CutOff, h.gene hg, hg, Except.ok.injEq, exists_eq_left', Gene.variant_rename]

theorem collects (h : t.Embeds u f) {make : NodeId → Gene} (hmake : ∀ y, (make y).rename f = make (f y))
    {part part' : NodeId → Prop} (hlive : ∀ y, part y → ∃ g, t.gene y = .ok g)
    (hpart : ∀ y, part y → part' (f y)) (hx : t.Collects name make part x) :
    u.Collects name make part' (f x) := by
  rcases hx with ⟨hcut, hx⟩ | ⟨y, hname, hgene, hcut, hy⟩
  · obtain ⟨g, hg⟩ := hlive x hx
    exact .inl ⟨(h.cutOff_iff hg).mpr hcut, hpart x hx⟩
  · obtain ⟨g, hg⟩ := hlive y hy
    refine .inr ⟨f y, h.name hname, ?_, fun hcut' => hcut ((h.cutOff_iff hg).mp hcut'), hpart y hy⟩
    rw [h.gene hgene, hmake]

theorem reduces (h : t.Embeds u f) (hx : r.Reduces t path name type x) :
    r.Reduces u path name type (f x) := by
  induction type generalizing x with
  | ref target =>
    obtain ⟨hname, g, hg, hcases⟩ := hx
    refine ⟨h.name hname, g.rename f, h.gene hg, ?_⟩
    split_ifs at hcases ⊢
    · rw [hcases]
      rfl
    · rw [hcases]
      rfl
    · obtain ⟨fields, rfl⟩ := hcases
      exact ⟨fields.map f, rfl⟩
  | array inner maxSize ih | map inner maxSize ih =>
    exact h.collects (fun _ => rfl) (fun _ hy => hy.live) (fun _ => ih) hx
  | choice values => exact ⟨h.name hx.1, h.gene hx.2⟩
  | _ => exact ⟨h.name hx.1, h.variant hx.2⟩

theorem shows (h : t.Embeds u f) (hx : r.Shows t path field x) : r.Shows u path field (f x) := by
  obtain ⟨y, hy, hplain, hwrapped⟩ := hx
  obtain ⟨g, hg⟩ := hy.live
  refine ⟨f y, h.reduces hy, ?_, ?_⟩
  · rw [h.cutOff_iff hg]
    exact fun hy => congrArg f (hplain hy)
  · rw [h.cutOff_iff hg]
    intro hy
    obtain ⟨hname, hgene⟩ := hwrapped hy
    exact ⟨h.name hname, h.gene hgene⟩

/-- What is faithful in a tree is so where the tree is found. -/
theorem faithful (h : t.Embeds u f) (ht : t.WellFormed) (hg : t.gene x = .ok g)
    (hx : r.Faithful t path x) : r.Faithful u path (f x) where
  distinct htrail := by
    obtain ⟨y, rfl, hy⟩ := h.trail ht hg htrail
    exact hx.distinct hy
  bounded htrail := by
    obtain ⟨y, rfl, hy⟩ := h.trail ht hg htrail
    exact hx.bounded hy
  objects htrail hgene := by
    obtain ⟨y, rfl, hy⟩ := h.trail ht hg htrail
    obtain ⟨k, hk⟩ := hy.live
    obtain ⟨fields, refType, rfl⟩ : ∃ fields refType, k = .object fields refType := by
      rw [h.gene hk, Except.ok.injEq] at hgene
      cases k <;> cases hgene
      exact ⟨_, _, rfl⟩
    rw [h.gene hk, Except.ok.injEq] at hgene
    cases hgene
    obtain ⟨typeName, schema, rfl, hschema, hshows⟩ := hx.objects hy hk
    refine ⟨typeName, schema, rfl, hschema, ?_⟩
    rw [List.forall₂_map_right_iff]
    exact hshows.imp fun _ _ => h.shows
  collections htrail hgene hc z hz := by
    obtain ⟨y, rfl, hy⟩ := h.trail ht hg htrail
    obtain ⟨k, hk⟩ := hy.live
    rw [h.gene hk, Except.ok.injEq] at hgene
    subst hgene
    rw [Gene.owned_rename] at hz
    obtain ⟨z, hmem, rfl⟩ := List.mem_map.mp hz
    obtain ⟨l, hl⟩ := ht.exists_gene hk hmem
    rw [h.cutOff_iff hl]
    exact hx.collections hy hk (by rwa [Gene.isCollection_rename] at hc) z hmem

end GeneTree.Embeds

end CallEvolution
