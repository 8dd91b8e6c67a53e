import Downlevel.Tree

/-! The scopes of a file and every name that it declares or mentions. Names made up later are
recorded here as well, so that no two of them meet. -/

namespace Downlevel

/-- A set of names. -/
structure NameSet where
  names : List String := []
deriving DecidableEq, Inhabited

namespace NameSet

/-- Puts a name into an ordered list unless it is there already. -/
def insertInto (name : String) : List String → List String
  | [] => [name]
  | first :: rest =>
    if name < first then name :: first :: rest
    else if name = first then first :: rest
    else first :: insertInto name rest

/-- The set with one more name. -/
def insert (set : NameSet) (name : String) : NameSet :=
  ⟨insertInto name set.names⟩

/-- The names of both sets. -/
def union (set more : NameSet) : NameSet :=
  more.names.foldl insert set

/-- Whether a name is in the set. -/
def contains (set : NameSet) (name : String) : Bool :=
  set.names.contains name

end NameSet

/-- What opened a scope. -/
inductive ScopeKind
  | module
  /-- Function bodies and static blocks, which own the variables declared inside them. -/
  | function
  | block
  | classBody
deriving DecidableEq

/-- Whether `var` declarations land in scopes of the kind. -/
def ScopeKind.ownsVars : ScopeKind → Bool
  | .module | .function => true
  | .block | .classBody => false

/-- Scopes are known by their position among all scopes of the file. -/
abbrev ScopeId := Nat

/-- One scope with the names declared right in it. -/
structure Scope where
  kind : ScopeKind
  parent : Option ScopeId
  declared : NameSet := {}
deriving DecidableEq

/-- All scopes of a file, the outermost first. -/
structure ScopeTree where
  scopes : Array Scope := #[⟨.module, none, {}⟩]
  /-- The node that opened each scope, the latest first. -/
  places : List (Span × ScopeKind × ScopeId) := []
  /-- Every name that is declared or mentioned. -/
  names : NameSet := {}
deriving DecidableEq, Inhabited

namespace ScopeTree

/-- The scope of the whole file. -/
def root : ScopeId := 0

/-- The number of scopes. -/
def size (tree : ScopeTree) : Nat :=
  tree.scopes.size

/-- Adds a scope that the node at the span opens. -/
def openScope (tree : ScopeTree) (parent : ScopeId) (kind : ScopeKind) (span : Span) : ScopeTree :=
  { tree with
    scopes := tree.scopes.push ⟨kind, some parent, {}⟩
    places := (span, kind, tree.size) :: tree.places }

/-- The scope that the node at the span opened; of several the latest. -/
def scopeAt? (tree : ScopeTree) (span : Span) (kind : ScopeKind) : Option ScopeId :=
  (tree.places.find? fun (found, foundKind, _) => found == span && foundKind == kind).map (·.2.2)

/-- Records a name without binding it. -/
def reserve (tree : ScopeTree) (name : String) : ScopeTree :=
  { tree with names := tree.names.insert name }

/-- Binds a name in a scope, if the file has that scope. -/
def declare? (tree : ScopeTree) (scope : ScopeId) (name : String) : Option ScopeTree :=
  if scope < tree.size then
    some { tree.reserve name with
      scopes := tree.scopes.modify scope fun data =>
        { data with declared := data.declared.insert name } }
  else none

/-- Whether the file declares or mentions a name. -/
def isUsed (tree : ScopeTree) (name : String) : Bool :=
  tree.names.contains name

/-- Whether any scope of the file binds a name. -/
def declares (tree : ScopeTree) (name : String) : Bool :=
  tree.scopes.any (·.declared.contains name)

/-- Whether a scope or one around it binds the name, looking at no more scopes than allowed. -/
def resolvesWithin (tree : ScopeTree) (name : String) : (fuel : Nat) → ScopeId → Bool
  | 0, _ => false
  | fuel + 1, scope =>
    match tree.scopes[scope]? with
    | none => false
    | some data =>
      data.declared.contains name
        || match data.parent with
          | some parent => resolvesWithin tree name fuel parent
          | none => false

/-- Whether a scope or one around it binds the name. -/
def resolves (tree : ScopeTree) (scope : ScopeId) (name : String) : Bool :=
  tree.resolvesWithin name tree.size scope

/-- The nearest scope that owns variables, looking at no more scopes than allowed. Nothing is found
once a scope is none of the file. -/
def varScopeWithin? (tree : ScopeTree) : (fuel : Nat) → ScopeId → Option ScopeId
  | 0, _ => none
  | fuel + 1, scope => do
    let data ← tree.scopes[scope]?
    if data.kind.ownsVars then return scope
    match data.parent with
    | some parent => varScopeWithin? tree fuel parent
    | none => return scope

/-- The nearest scope in which `var` declarations of the given one land. -/
def varScope? (tree : ScopeTree) (scope : ScopeId) : Option ScopeId :=
  tree.varScopeWithin? tree.size scope

/-- The same scope, or the given one if that is none of the file. -/
def varScope (tree : ScopeTree) (scope : ScopeId) : ScopeId :=
  (tree.varScope? scope).getD scope

end ScopeTree

end Downlevel
