import CallEvolution.Action.Path
import CallEvolution.Gene.Randomize
import CallEvolution.Table

/-!
Actions: single steps of a test, such as a call or the insertion of a row. The values of an action are
the gene trees of its parameters.
-/

namespace CallEvolution

/-- Identifies an action within one individual; actions of a catalog have number zero. -/
structure ActionId where
  number : Nat
  deriving DecidableEq, Hashable

instance : ToString ActionId := ⟨fun id => "a" ++ toString id.number⟩

/-- Headers and cookies that authenticate a call. -/
structure Credentials where
  name : String
  headers : Table String
  cookies : Table String
  deriving DecidableEq

inductive HttpVerb where
  | get
  | post
  | put
  | patch
  | delete
  | head
  | options
  deriving DecidableEq

namespace HttpVerb

/-- All verbs with their names as data and as they stand in a request. -/
def spellings : List (HttpVerb × String × String) :=
  [(get, "Get", "GET"), (post, "Post", "POST"), (put, "Put", "PUT"), (patch, "Patch", "PATCH"),
    (delete, "Delete", "DELETE"), (head, "Head", "HEAD"), (options, "Options", "OPTIONS")]

def name (v : HttpVerb) : String := ((spellings.lookup v).map (·.1)).getD ""

def text (v : HttpVerb) : String := ((spellings.lookup v).map (·.2)).getD ""

end HttpVerb

inductive GraphQlOperation where
  | query
  | mutation
  deriving DecidableEq

/-- Where the value of a parameter goes. -/
inductive ParamRole where
  | path
  | query
  | body
  | header
  | form
  | dbColumn
  | result
  deriving DecidableEq

namespace ParamRole

/-- All roles with their names as data and in text. -/
def spellings : List (ParamRole × String × String) :=
  [(path, "Path", "path"), (query, "Query", "query"), (body, "Body", "body"),
    (header, "Header", "header"), (form, "Form", "form"), (dbColumn, "DbColumn", "db"),
    (result, "Return", "return")]

def name (r : ParamRole) : String := ((spellings.lookup r).map (·.1)).getD ""

def text (r : ParamRole) : String := ((spellings.lookup r).map (·.2)).getD ""

end ParamRole

structure Parameter where
  name : String
  role : ParamRole
  gene : GeneTree
  deriving DecidableEq

namespace Parameter

def body (gene : GeneTree) : Parameter := ⟨"body", .body, gene⟩

def isBody (p : Parameter) : Bool := p.role = .body

end Parameter

inductive ActionKind where
  | http (verb : HttpVerb) (path : PathTemplate) (auth : Option Credentials)
  | graphQl (operation : GraphQlOperation) (name : String) (auth : Option Credentials)
  | rpc (service method : String)
  /-- The insertion of a row, or a row that is there already. -/
  | db (table : String) (existing : Bool)
  /-- A prepared answer of a service that the tested system calls. -/
  | stub (service : String)
  deriving DecidableEq

structure Action where
  id : ActionId
  name : String
  kind : ActionKind
  params : List Parameter
  countsForFitness : Bool
  deriving DecidableEq

namespace Action

/-- An action of a catalog. -/
def template (name : String) (kind : ActionKind) (params : List Parameter)
    (countsForFitness : Bool) : Action :=
  { id := ⟨0⟩, name, kind, params, countsForFitness }

def http (verb : HttpVerb) (path : String) (params : List Parameter) : Action :=
  template (verb.text ++ ":" ++ path) (.http verb (.parse path) none) params true

def graphQl (operation : GraphQlOperation) (name : String) (params : List Parameter) : Action :=
  let start := match operation with
    | .query => "query:"
    | .mutation => "mutation:"
  template (start ++ name) (.graphQl operation name none) params true

def rpc (service method : String) (params : List Parameter) : Action :=
  template (service ++ "::" ++ method) (.rpc service method) params true

def db (table : String) (columns : List Parameter) : Action :=
  template table (.db table false) columns true

def stub (service : String) (params : List Parameter) : Action :=
  template ("stub:" ++ service) (.stub service) params false

/-- Marks a row as one that exists already. -/
def asExisting (a : Action) : Action :=
  match a.kind with
  | .db table _ => { a with kind := .db table true }
  | _ => a

def param? (a : Action) (i : Nat) : Option Parameter := a.params[i]?

/-- The position of the first parameter with a name and a role. -/
def paramCalled? (a : Action) (name : String) (role : ParamRole) : Option Nat :=
  a.params.findIdx? fun p => p.role = role && p.name = name

def path? (a : Action) : Option PathTemplate :=
  match a.kind with
  | .http _ path _ => some path
  | _ => none

def table? (a : Action) : Option String :=
  match a.kind with
  | .db table _ => some table
  | _ => none

/-- Does the action stand for a row that exists already? -/
def isExisting (a : Action) : Bool :=
  match a.kind with
  | .db _ existing => existing
  | _ => false

def isRequest (a : Action) : Bool :=
  match a.kind with
  | .http .. | .graphQl .. => true
  | _ => false

def auth? (a : Action) : Option Credentials :=
  match a.kind with
  | .http _ _ auth | .graphQl _ _ auth => auth
  | _ => none

/-- Attaches an authentication, or takes it away. -/
def withAuth (a : Action) (auth : Option Credentials) : Action :=
  match a.kind with
  | .http verb path _ => { a with kind := .http verb path auth }
  | .graphQl operation name _ => { a with kind := .graphQl operation name auth }
  | _ => a

/-- Gives a parameter another gene tree. -/
def setGene (a : Action) (param : Nat) (t : GeneTree) : Action :=
  { a with params := a.params.modify param fun p => { p with gene := t } }

/-- Can any of the genes change? -/
def canVary (a : Action) : Except GeneError Bool :=
  a.params.anyM fun p => p.gene.isMutable p.gene.root

end Action

variable {γ : Type} [RandomSource γ]

/-- Randomizes gene trees in order; after a failure the rest is left as it is. -/
def Parameter.randomizeAll : List Parameter → Draw γ (Except GeneError Unit × List Parameter)
  | [] => return (.ok (), [])
  | p :: rest => do
    let (result, gene) ← (RandomEdit.randomizeAll : RandomEdit γ Unit).run p.gene
    let p := { p with gene }
    match result with
    | .error e => return (.error e, p :: rest)
    | .ok () =>
      let (result, rest) ← randomizeAll rest
      return (result, p :: rest)

/-- Gives all genes random values. -/
def Action.randomize (a : Action) : Draw γ (Except GeneError Unit × Action) := do
  let (result, params) ← Parameter.randomizeAll a.params
  return (result, { a with params })

/-- Randomizes actions in order; after a failure the rest is left as it is. -/
def Action.randomizeAll : List Action → Draw γ (Except GeneError Unit × List Action)
  | [] => return (.ok (), [])
  | a :: rest => do
    let (result, a) ← a.randomize
    match result with
    | .error e => return (.error e, a :: rest)
    | .ok () =>
      let (result, rest) ← randomizeAll rest
      return (result, a :: rest)

end CallEvolution
