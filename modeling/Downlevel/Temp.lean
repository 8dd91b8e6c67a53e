import Downlevel.NameSupply
import Downlevel.Scope
import Downlevel.Tree.Build

/-! Made-up names that hold intermediate values, so that what is needed twice is still evaluated
once. No such name meets a name of the file, one of a frame around, or one of a frame inside. -/

namespace Downlevel

/-- What a frame belongs to. -/
inductive FrameKind
  | module
  /-- A function body or a static block. -/
  | function
  /-- A parameter, whose names become parameters of a function around the value. -/
  | params
deriving DecidableEq

/-- A name that its frame has to declare. -/
structure Temp where
  owner : ScopeId
  name : String
  /-- Its place in the sequence of short names. -/
  seq : Nat
  init : Option Expr

/-- The names made up for one body. -/
structure Frame where
  kind : FrameKind
  owner : ScopeId
  nextSeq : Nat := 0
  /-- The names handed out here, which frames inside must not use. -/
  own : NameSet := {}
  /-- The names handed out by frames inside that have been closed. -/
  nested : NameSet := {}
  /-- What the frame has to declare, in the order of allocation. -/
  declared : List Temp := []

/-- Keeps the names of a closed frame from being used around it. -/
def Frame.absorb (frame closed : Frame) : Frame :=
  { frame with nested := (frame.nested.union closed.own).union closed.nested }

/-- All open frames. The frame of the module is never closed. -/
structure Temps where
  module : Frame := { kind := .module, owner := ScopeTree.root }
  /-- The frames inside the module, the innermost first. -/
  inner : List Frame := []
  handedOut : NameSet := {}

namespace Temps

/-- The open frames, the outermost first. -/
def frames (temps : Temps) : List Frame :=
  temps.module :: temps.inner.reverse

/-- The index of the innermost frame. -/
def current (temps : Temps) : Nat :=
  temps.inner.length

/-- The scope that declares the names of the innermost frame. -/
def owner (temps : Temps) : ScopeId :=
  match temps.inner with
  | frame :: _ => frame.owner
  | [] => temps.module.owner

/-- The frame with the index. -/
def frame? (temps : Temps) (index : Nat) : Option Frame :=
  temps.frames[index]?

/-- Changes the frame with the index. -/
def modifyFrame (temps : Temps) (index : Nat) (change : Frame → Frame) : Temps :=
  match index with
  | 0 => { temps with module := change temps.module }
  | below + 1 => { temps with inner := (temps.inner.reverse.modify below change).reverse }

/-- The index of the innermost frame that declares variables. -/
def nearestBody (temps : Temps) : Nat :=
  (temps.inner.dropWhile (·.kind = .params)).length

/-- Opens a frame. -/
def push (temps : Temps) (kind : FrameKind) (owner : ScopeId) : Temps :=
  { temps with inner := { kind, owner } :: temps.inner }

/-- Closes the innermost frame and gives what it has to declare. -/
def pop? (temps : Temps) : Option (List Temp × Temps) :=
  match temps.inner with
  | [] => none
  | [closed] =>
    some (closed.declared, { temps with module := temps.module.absorb closed, inner := [] })
  | closed :: parent :: rest =>
    some (closed.declared, { temps with inner := parent.absorb closed :: rest })

/-- Ends the names of one statement of the module. The sequence of names starts again, and the names
stay taken. -/
def finishGroup (temps : Temps) : List Temp × Temps :=
  (temps.module.declared,
    { temps with module := { temps.module with nextSeq := 0, declared := [] } })

/-- The names that cannot be handed out by a frame. Frames further inside are still open, so their
names count as well. -/
def taken (temps : Temps) (frame : Frame) (scopes : ScopeTree) : List String :=
  scopes.names.names ++ frame.nested.names ++ temps.frames.flatMap (·.own.names)

/-- Hands out a name of the frame with the index: one derived from the base, or else the next short
name. Only a declared name is declared by the frame; whoever asks for another one binds it. -/
def allocIn? (temps : Temps) (index : Nat) (scopes : ScopeTree) (base : Option String)
    (init : Option Expr) (declare : Bool) : Option (String × Temps) := do
  let frame ← temps.frame? index
  let name := freshName (temps.taken frame scopes) (base.getD ("_" ++ shortName frame.nextSeq))
  let temp : Temp := { owner := frame.owner, name, seq := frame.nextSeq, init }
  let temps := temps.modifyFrame index fun frame =>
    { frame with
      nextSeq := if base.isSome then frame.nextSeq else frame.nextSeq + 1
      own := frame.own.insert name
      declared := if declare then frame.declared ++ [temp] else frame.declared }
  return (name, { temps with handedOut := temps.handedOut.insert name })

/-- Whether the frame with the index declares the name. -/
def declares? (temps : Temps) (index : Nat) (name : String) : Option Bool :=
  (temps.frame? index).map fun frame => frame.declared.any (·.name = name)

end Temps

namespace Temp

/-- One statement that declares all the names. -/
def declaration (span : Span) (temps : List Temp) : Stmt :=
  ⟨span, .varDecl false .varDecl (temps.map fun temp => .ofName span temp.name temp.init)⟩

/-- Whether a statement belongs to the start of a body, in front of which nothing may be put. -/
def isPrologue (stmt : Stmt) : Bool :=
  stmt.isDirective
    || match stmt.shape with
      | .comment _ => true
      | _ => false

/-- Puts the declaration of the names behind the directives of a body. -/
def declareIn (span : Span) (temps : List Temp) (body : List Stmt) : List Stmt :=
  if temps.isEmpty then body
  else body.takeWhile isPrologue ++ declaration span temps :: body.dropWhile isPrologue

end Temp

end Downlevel
