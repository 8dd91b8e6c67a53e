import Downlevel.Lowering.Class.Slot

/-! Computed keys of a class are evaluated once and in order, also those of members that move away:
they are evaluated into made-up names by the next key that stays. -/

namespace Downlevel

namespace Lowering

/-- A member together with what becomes of its key. -/
structure KeyedSlot where
  slot : Slot
  /-- What has to be evaluated in place of the key, which does not stay. -/
  capture : Option Expr := none
  /-- The name that the last key that stays is kept in, because more keys come behind it. -/
  keptAs : Option String := none

/-- Literal keys need not be evaluated. -/
def isLiteralKey (key : Expr) : Bool :=
  match key.shape with
  | .str _ | .num _ => true
  | _ => false

/-- The computed key of a member that stays. -/
def Slot.keptKey? : Slot → Option Expr
  | .kept ⟨_, .computed key, _, _⟩ => some key
  | _ => none

/-- A member that stays, with another computed key. -/
def Slot.withKey (key : Expr) : Slot → Slot
  | .kept member => .kept { member with key := .computed key }
  | slot => slot

/-- Takes the key out of a member that moves, if it has to be evaluated in the class. -/
def captureKey (slot : Slot) : Lower KeyedSlot := do
  let intoName (key : Expr) (rebuild : Key → Slot) : Lower KeyedSlot := do
    if isLiteralKey key then return { slot }
    let name ← alloc
    return {
      slot := rebuild (.computed (.id key.span name))
      capture := some (.assign key.span (.id key.span name) key) }
  match slot with
  | .defined span isStatic (.computed key) init => intoName key (.defined span isStatic · init)
  | .assigned span isStatic (.computed key) init => intoName key (.assigned span isStatic · init)
  | .dropped (.computed key) =>
    return { slot, capture := if Purity.isRemovable key then none else some key }
  | slot => return { slot }

/-- Takes out all keys that have to be evaluated, from the last member to the first. The last key
that stays gets a name if any of them comes behind it. -/
def captureKeys : List Slot → Lower (List KeyedSlot)
  | [] => return []
  | slot :: rest => do
    let rest ← captureKeys rest
    let isLastKept := slot.keptKey?.isSome && !rest.any (·.slot.keptKey?.isSome)
    if isLastKept && rest.any (·.capture.isSome) then
      return { slot, keptAs := some (← alloc) } :: rest
    return (← captureKey slot) :: rest

/-- The expressions one after the other, in front of the last one. -/
def inSequence : List Expr → Expr → Expr
  | [], last => last
  | first :: rest, last => .sequence first (rest ++ [last])

/-- Puts the keys that were taken out in front of the next one that stays. Gives also those that
come behind all of them. -/
def chainKeys : (pending : List Expr) → List KeyedSlot → List Slot × List Expr
  | pending, [] => ([], pending)
  | pending, keyed :: rest =>
    match keyed.capture, keyed.slot.keptKey?, keyed.keptAs with
    | some key, _, _ =>
      let (slots, left) := chainKeys (pending ++ [key]) rest
      (keyed.slot :: slots, left)
    | none, none, _ =>
      let (slots, left) := chainKeys pending rest
      (keyed.slot :: slots, left)
    | none, some key, none =>
      let (slots, left) := chainKeys [] rest
      (keyed.slot.withKey (inSequence pending key) :: slots, left)
    | none, some key, some name =>
      -- All keys behind the last one that stays are evaluated along with it.
      let (slots, left) := chainKeys [] rest
      let kept := .assign key.span (.id key.span name) key
      let key := inSequence (pending ++ kept :: left) (.id ⟨0, 0⟩ name)
      (keyed.slot.withKey key :: slots, [])

/-- The members with their keys chained, and what has to be evaluated in front of the class. -/
def chainComputedKeys (slots : List Slot) : Lower (List Slot × List Expr) :=
  return chainKeys [] (← captureKeys slots)

end Lowering

end Downlevel
