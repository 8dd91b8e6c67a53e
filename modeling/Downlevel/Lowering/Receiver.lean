import Downlevel.Lowering.State

/-! The meaning of `this` and `arguments` across arrows that turn into functions. -/

namespace Downlevel

namespace Lowering

/-- Looks through the owners for what `this` means, and marks those it passes. A function declares
another name when an arrow inside it gets a `this` of its own. -/
def findThis (crossed : Bool) : List Owner → Lower (Option String × List Owner)
  | [] => return (none, [])
  | owner :: around => do
    let owner := { owner with usesThis := true }
    match owner.kind with
    | .arrow =>
      let (name, around) ← findThis (crossed || owner.losesArrow) around
      return (name, owner :: around)
    | .function =>
      if !crossed then return (none, owner :: around)
      if owner.thisAlias.isSome then return (owner.thisAlias, owner :: around)
      let name ← allocIn owner.frame (some "_this") (some (.this ⟨0, 0⟩)) true
      return (some name, { owner with thisAlias := some name } :: around)
    | .staticInit => return (owner.thisAlias, owner :: around)
    | .module | .fieldInit => return (none, owner :: around)

/-- The name to write instead of `this`, if there is one. -/
def resolveThis : Lower (Option String) := do
  let (name, owners) ← findThis false (← get).owners
  modify fun progress => { progress with owners }
  return name

/-- `this` as it is written here. -/
def thisValue (span : Span) : Lower Expr := do
  match ← resolveThis with
  | some name => return .id span name
  | none => return .this span

/-- Looks through the owners for what `arguments` means, and marks the function that has them. -/
def findArguments (crossed : Bool) : List Owner → Lower (Option String × List Owner)
  | [] => return (none, [])
  | owner :: around => do
    match owner.kind with
    | .arrow =>
      let (name, around) ←
        findArguments (crossed || owner.losesArrow || owner.isLifted) around
      return (name, owner :: around)
    | .function =>
      let owner := { owner with usesArguments := true }
      if !crossed then return (none, owner :: around)
      if owner.argumentsAlias.isSome then return (owner.argumentsAlias, owner :: around)
      let name ← allocIn owner.frame (some "_arguments") (some (.id ⟨0, 0⟩ "arguments")) true
      return (some name, { owner with argumentsAlias := some name } :: around)
    | .module | .fieldInit | .staticInit => return (none, owner :: around)

/-- The name to write instead of `arguments`, if there is one. -/
def resolveArguments : Lower (Option String) := do
  let (name, owners) ← findArguments false (← get).owners
  modify fun progress => { progress with owners }
  return name

end Lowering

end Downlevel
