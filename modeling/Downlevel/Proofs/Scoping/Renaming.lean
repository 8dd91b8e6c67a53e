import Downlevel.Proofs.Renaming
import Downlevel.Proofs.Scoping.Worlds

/-! Replacing a name in a tree: what the tree binds stays the same, and of what it needs around it,
only the new name takes the place of the old one. -/

namespace Downlevel

open Rename

variable {stem : String} (r : Renaming)

section Bound

/-- The names of two parts stay the same if those of each do. -/
theorem names_append {names renamed more renamedMore : List String} (first : renamed = names)
    (second : renamedMore = more) : renamed ++ renamedMore = names ++ more := by
  rw [first, second]

mutual

/-- Renaming leaves the names that a pattern binds. -/
theorem patternNames_rename :
    ∀ pattern : Pattern, patternNames (renamePattern r pattern) = patternNames pattern
  | .id .. => rfl
  | .array _ slots rest =>
    names_append (slotsNames_rename slots) (patternOptionNames_rename rest)
  | .object _ properties rest =>
    names_append (propertiesNames_rename properties) (patternOptionNames_rename rest)
  | .target .. => rfl

/-- Renaming leaves the names that a pattern that may be absent binds. -/
theorem patternOptionNames_rename :
    ∀ pattern : Option Pattern,
      patternOptionNames (renamePatternOption r pattern) = patternOptionNames pattern
  | none => rfl
  | some pattern => patternNames_rename pattern

/-- Renaming leaves the names that an element of an array pattern binds. -/
theorem slotNames_rename : ∀ slot : PatternSlot, slotNames (renameSlot r slot) = slotNames slot
  | .hole => rfl
  | .slot target _ => patternNames_rename target

/-- Renaming leaves the names that the elements of an array pattern bind. -/
theorem slotsNames_rename :
    ∀ slots : List PatternSlot, slotsNames (renameSlots r slots) = slotsNames slots
  | [] => rfl
  | slot :: rest => names_append (slotNames_rename slot) (slotsNames_rename rest)

/-- Renaming leaves the names that a property of an object pattern binds. -/
theorem propertyNames_rename :
    ∀ property : PatternProperty, propertyNames (renameProperty r property) = propertyNames property
  | ⟨_, _, target, _, _⟩ => patternNames_rename target

/-- Renaming leaves the names that the properties of an object pattern bind. -/
theorem propertiesNames_rename :
    ∀ properties : List PatternProperty,
      propertiesNames (renameProperties r properties) = propertiesNames properties
  | [] => rfl
  | property :: rest =>
    names_append (propertyNames_rename property) (propertiesNames_rename rest)

end

/-- Renaming leaves the names that declarators bind. -/
theorem declaratorsNames_rename (declarators : List Declarator) :
    declaratorsNames (renameDeclarators r declarators) = declaratorsNames declarators := by
  induction declarators with
  | nil => rfl
  | cons declarator rest ih =>
    obtain ⟨pattern, init⟩ := declarator
    simp [renameDeclarators, renameDeclarator, patternNames_rename, ih]

/-- Renaming leaves the names that parameters bind. -/
theorem paramsNames_rename (params : List Param) :
    paramsNames (renameParams r params) = paramsNames params := by
  induction params with
  | nil => rfl
  | cons param rest ih =>
    obtain ⟨span, isRest, pattern, default⟩ := param
    simp [renameParams, renameParam, patternNames_rename, ih]

mutual

/-- Renaming leaves the names that a statement binds. -/
theorem stmtNames_rename (isNested : Bool) :
    ∀ stmt : Stmt, stmtNames isNested (renameStmt r stmt) = stmtNames isNested stmt
  | ⟨_, shape⟩ => stmtShapeNames_rename isNested shape

/-- Renaming leaves the names that the shape of a statement binds. -/
theorem stmtShapeNames_rename (isNested : Bool) :
    ∀ shape : StmtShape,
      stmtShapeNames isNested (renameStmtShape r shape) = stmtShapeNames isNested shape
  | .block body => stmtsNames_rename true body
  | .doWhile _ body => stmtNames_rename true body
  | .forIn _ binding _ body =>
    names_append (by rw [patternNames_rename r binding]) (stmtNames_rename true body)
  | .forOf _ _ binding _ body =>
    names_append (by rw [patternNames_rename r binding]) (stmtNames_rename true body)
  | .forLoop _ _ _ body => stmtNames_rename true body
  | .forDecl _ _ declarators _ _ body =>
    names_append (by rw [declaratorsNames_rename r declarators]) (stmtNames_rename true body)
  | .ifThen _ consequent => stmtNames_rename true consequent
  | .ifElse _ consequent alternate =>
    names_append (stmtNames_rename true consequent) (stmtNames_rename true alternate)
  | .label _ body => stmtNames_rename isNested body
  | .switch _ branches => branchesNames_rename true branches
  | .tryCatch body _ handler =>
    names_append (blockNames_rename body) (blockNames_rename handler)
  | .tryFinally body finalizer =>
    names_append (blockNames_rename body) (blockNames_rename finalizer)
  | .tryCatchFinally body _ handler finalizer =>
    names_append
      (names_append (blockNames_rename body) (blockNames_rename handler))
      (blockNames_rename finalizer)
  | .while _ body => stmtNames_rename true body
  | .with _ body => stmtNames_rename true body
  | .varDecl _ keyword declarators =>
    congrArg (fun names => if isNested ∧ keyword ≠ .varDecl then [] else names)
      (declaratorsNames_rename r declarators)
  | .classDecl .. | .functionDecl .. | .importNames .. | .breakTo _ | .comment _ | .continueTo _
  | .debugger | .empty | .exportDefault _ | .exportNames .. | .expr _ | .return _ | .throw _ => rfl

/-- Renaming leaves the names that statements bind. -/
theorem stmtsNames_rename (isNested : Bool) :
    ∀ stmts : List Stmt, stmtsNames isNested (renameStmts r stmts) = stmtsNames isNested stmts
  | [] => rfl
  | stmt :: rest =>
    names_append (stmtNames_rename isNested stmt) (stmtsNames_rename isNested rest)

/-- Renaming leaves the names that statements in braces bind. -/
theorem blockNames_rename : ∀ block : Block, blockNames (renameBlock r block) = blockNames block
  | ⟨_, body⟩ => stmtsNames_rename true body

/-- Renaming leaves the names that a branch of a switch binds. -/
theorem branchNames_rename (isNested : Bool) :
    ∀ branch : SwitchBranch,
      branchNames isNested (renameBranch r branch) = branchNames isNested branch
  | ⟨_, _, body⟩ => stmtsNames_rename isNested body

/-- Renaming leaves the names that the branches of a switch bind. -/
theorem branchesNames_rename (isNested : Bool) :
    ∀ branches : List SwitchBranch,
      branchesNames isNested (renameBranches r branches) = branchesNames isNested branches
  | [] => rfl
  | branch :: rest =>
    names_append (branchNames_rename isNested branch) (branchesNames_rename isNested rest)

end

/-- Renaming leaves the names that the body of a function binds. -/
theorem bodyNames_rename (body : Body) : bodyNames (renameBody r body) = bodyNames body := by
  cases body with
  | block stmts => exact stmtsNames_rename r false stmts
  | value result => rfl

/-- What stands for `this` or `arguments` does so under any other names. -/
theorem aliases_rename (nodes : List Occurrence) : aliases (renameNodes r nodes) = aliases nodes := by
  -- Only a declarator of a single name can be an alias, and renaming keeps the names that are
  -- bound.
  have same (node : Node) : (node.rename r).alias? = node.alias? := by
    match node with
    | .declarator ⟨.id _ _, none⟩ => rfl
    | .declarator ⟨.id _ _, some ⟨_, shape⟩⟩ => cases shape <;> rfl
    | .declarator ⟨.array .., _⟩ | .declarator ⟨.object .., _⟩ | .declarator ⟨.target .., _⟩ => rfl
    | .origin _ | .shape _ | .func _ | .param _ | .pattern _ | .objectMember _ | .stmt _ => rfl
  simp only [aliases, renameNodes, List.filterMap_map]
  exact congrArg (nodes.filterMap ·) (funext fun found => same found.node)

/-- A static block stays one. -/
theorem isStaticBlock_rename (value : MemberValue) :
    (renameMemberValue r value).isStaticBlock = value.isStaticBlock := by
  cases value <;> rfl

end Bound

section Uses

/-- Worlds around a tree before and after a name is replaced: the new name has to be bound, and the
old one need not be if no tree can bind or assign it. -/
structure Replaces (stem : String) (r : Renaming) (wide world : World) : Prop where
  others : ∀ name, wide name → name ≠ r.old → world name
  old : wide r.old → world r.old ∨ ¬Writable stem r.old
  new : world r.new

/-- What a part of the tree binds around a smaller part does not matter. -/
theorem Replaces.plus {wide world : World} (replaces : Replaces stem r wide world)
    (names : List String) : Replaces stem r (wide.plus stem names) (world.plus stem names) where
  others
    | name, .inl around, isOther => .inl (replaces.others name around isOther)
    | _, .inr isBound, _ => .inr isBound
  old
    | .inl around => (replaces.old around).imp_left .inl
    | .inr isBound => .inl (.inr isBound)
  new := .inl replaces.new

/-- Whatever the uses before need around them, those after need with the name replaced. -/
def Carries (stem : String) (r : Renaming) (before after : List Use) : Prop :=
  ∀ wide world, Replaces stem r wide world → Meets stem wide before → Meets stem world after

/-- Uses of names that are not mentioned. -/
theorem carries_fixed {uses : List Use} (fixed : ∀ use ∈ uses, ∃ name, use = .fixed name) :
    Carries stem r uses uses := by
  intro wide world _ meets use mem
  obtain ⟨name, rfl⟩ := fixed use mem
  exact meets (.fixed name) mem

/-- A mentioned name is replaced if it is the old one. -/
theorem carries_free (name : String) : Carries stem r [.free name] [.free (r.apply name)] := by
  intro wide world replaces meets
  have around : wide name := by simpa using meets
  by_cases isOld : name = r.old
  · simpa [Renaming.apply, isOld] using replaces.new
  · simpa [Renaming.apply, isOld] using replaces.others name around isOld

/-- A name that is assigned as a pattern stays, but no placeholder is. -/
theorem carries_assigned (name : String) :
    Carries stem r [.free name, .fixed name] [.free name, .fixed name] := by
  intro wide world replaces meets
  obtain ⟨around, writable⟩ : wide name ∧ Writable stem name := by simpa using meets
  refine meets_cons.mpr ⟨?_, by simpa using writable⟩
  -- The old name is never assigned to: it is that of a class, which cannot be written.
  by_cases isOld : name = r.old
  · subst isOld
    exact (replaces.old around).resolve_right (not_not_intro writable)
  · exact replaces.others name around isOld

variable {r}

/-- Renaming carries over to uses that follow one another. -/
theorem carries_append {before after more moreAfter : List Use}
    (first : Carries stem r before after) (second : Carries stem r more moreAfter) :
    Carries stem r (before ++ more) (after ++ moreAfter) := by
  intro wide world replaces meets
  obtain ⟨inFirst, inSecond⟩ := meets_append.mp meets
  exact meets_append.mpr ⟨first wide world replaces inFirst, second wide world replaces inSecond⟩

/-- Renaming carries over to uses inside of a scope that binds the same names. -/
theorem carries_enclosed {names renamed : List String} {before after : List Use}
    (same : renamed = names) (inside : Carries stem r before after) :
    Carries stem r (enclosed names before) (enclosed renamed after) := by
  intro wide world replaces meets
  subst same
  exact meets_enclosed.mpr (inside _ _ (replaces.plus r renamed) (meets_enclosed.mp meets))

variable (r)

/-- Names of classes, functions and labels stay as they are. -/
theorem carries_nameUses (name : Option String) :
    Carries stem r (nameUses name) (nameUses name) :=
  carries_fixed r (by cases name <;> simp [nameUses])

/-- Nothing is used where nothing was. -/
theorem carries_nil : Carries stem r [] [] :=
  carries_fixed r nofun

/-- What is listed for export or import is not mentioned. -/
theorem ModuleName.fixed_uses (name : ModuleName) : ∀ use ∈ name.uses, ∃ own, use = .fixed own := by
  cases name <;> simp [ModuleName.uses]

/-- What an export lists keeps its names. -/
theorem fixed_exportUses (names : ExportNames) :
    ∀ use ∈ exportUses names, ∃ own, use = .fixed own := by
  cases names with
  | all => nofun
  | specific names =>
    intro use mem
    obtain ⟨entry, -, inEntry⟩ := List.mem_flatMap.mp mem
    exact entry.exportable.fixed_uses use inEntry

/-- So does what an import lists. -/
theorem fixed_importUses (names : Option ImportNames) :
    ∀ use ∈ importUses names, ∃ own, use = .fixed own := by
  -- What is imported is named by the other module, so no name of this one is mentioned.
  match names with
  | none => nofun
  | some (.all boundAs) => simp [importUses]
  | some (.specific names) =>
    intro use mem
    obtain ⟨entry, -, inEntry⟩ := List.mem_flatMap.mp mem
    rcases List.mem_append.mp inEntry with imported | isBound
    · exact entry.importable.fixed_uses use imported
    · exact ⟨entry.boundAs, List.mem_singleton.mp isBound⟩

/-- A statement by itself inside of another one. -/
theorem carries_lone (tree : Stmt)
    (inside : Carries stem r (stmtUses tree) (stmtUses (renameStmt r tree))) :
    Carries stem r (enclosed (stmtNames false tree) (stmtUses tree))
      (enclosed (stmtNames false (renameStmt r tree)) (stmtUses (renameStmt r tree))) :=
  carries_enclosed (stmtNames_rename r false tree) inside

mutual

/-- Renaming an expression renames what is used there, and nothing else. -/
theorem exprUses_rename :
    ∀ tree : Expr, Carries stem r (exprUses tree) (exprUses (renameExpr r tree))
  | ⟨_, shape⟩ => shapeUses_rename shape

/-- Renaming a shape renames what is used there, and nothing else. -/
theorem shapeUses_rename :
    ∀ tree : Shape, Carries stem r (shapeUses tree) (shapeUses (renameShape r tree))
  -- A class and a function enclose what is inside of them, and everything else is its parts in
  -- order.
  | .arrow func => funcUses_rename func
  | .binary _ left right => carries_append (exprUses_rename left) (exprUses_rename right)
  | .call _ _ callee args => carries_append (exprUses_rename callee) (argsUses_rename args)
  | .classExpr name heritage members =>
    carries_append (carries_nameUses r name) (carries_enclosed rfl
      (carries_append (optionUses_rename heritage) (classMembersUses_rename members)))
  | .computed _ object key => carries_append (exprUses_rename object) (exprUses_rename key)
  | .cond test consequent alternate =>
    carries_append (exprUses_rename test)
      (carries_append (exprUses_rename consequent) (exprUses_rename alternate))
  | .function name func =>
    carries_append (carries_nameUses r name) (carries_enclosed rfl (funcUses_rename func))
  | .id name => carries_free r name
  | .importCall module => exprUses_rename module
  | .member _ object _ => exprUses_rename object
  | .new callee args => carries_append (exprUses_rename callee) (argsUses_rename args)
  | .tagged tag _ spans => carries_append (exprUses_rename tag) (spansUses_rename spans)
  | .unary _ operand => exprUses_rename operand
  | .update _ operand => exprUses_rename operand
  | .yield _ operand => optionUses_rename operand
  | .array items => itemsUses_rename items
  | .object members => objectMembersUses_rename members
  | .template _ spans => spansUses_rename spans
  | .arrayPattern slots rest =>
    carries_append (slotsUses_rename false slots) (patternOptionUses_rename false rest)
  | .objectPattern properties rest =>
    carries_append (propertiesUses_rename false properties) (patternOptionUses_rename false rest)
  | .importMeta | .newTarget | .super | .this | .bigint _ | .bool _ | .null | .num _ | .regex _
  | .str _ => carries_nil r

/-- Renaming an expression that may be absent renames what is used there, and nothing else. -/
theorem optionUses_rename :
    ∀ tree : Option Expr, Carries stem r (optionUses tree) (optionUses (renameOption r tree))
  | none => carries_nil r
  | some e => exprUses_rename e

/-- Renaming an argument renames what is used there, and nothing else. -/
theorem argUses_rename :
    ∀ tree : Arg, Carries stem r (argUses tree) (argUses (renameArg r tree))
  | ⟨_, value⟩ => exprUses_rename value

/-- Renaming arguments renames what is used there, and nothing else. -/
theorem argsUses_rename :
    ∀ tree : List Arg, Carries stem r (argsUses tree) (argsUses (renameArgs r tree))
  | [] => carries_nil r
  | arg :: rest => carries_append (argUses_rename arg) (argsUses_rename rest)

/-- Renaming a substitution renames what is used there, and nothing else. -/
theorem spanUses_rename :
    ∀ tree : TemplateSpan, Carries stem r (spanUses tree) (spanUses (renameSpan r tree))
  | ⟨value, _⟩ => exprUses_rename value

/-- Renaming substitutions renames what is used there, and nothing else. -/
theorem spansUses_rename :
    ∀ tree : List TemplateSpan, Carries stem r (spansUses tree) (spansUses (renameSpans r tree))
  | [] => carries_nil r
  | span :: rest => carries_append (spanUses_rename span) (spansUses_rename rest)

/-- Renaming an element of an array literal renames what is used there, and nothing else. -/
theorem itemUses_rename :
    ∀ tree : ArrayItem, Carries stem r (itemUses tree) (itemUses (renameItem r tree))
  | .single value => exprUses_rename value
  | .spread value => exprUses_rename value
  | .hole => carries_nil r

/-- Renaming the elements of an array literal renames what is used there, and nothing else. -/
theorem itemsUses_rename :
    ∀ tree : List ArrayItem, Carries stem r (itemsUses tree) (itemsUses (renameItems r tree))
  | [] => carries_nil r
  | item :: rest => carries_append (itemUses_rename item) (itemsUses_rename rest)

/-- Renaming a key renames what is used there, and nothing else. -/
theorem keyUses_rename : ∀ tree : Key, Carries stem r (keyUses tree) (keyUses (renameKey r tree))
  | .direct _ => carries_nil r
  | .computed value => exprUses_rename value

/-- Renaming what a member holds renames what is used there, and nothing else. -/
theorem memberValueUses_rename :
    ∀ tree : MemberValue,
      Carries stem r (memberValueUses tree) (memberValueUses (renameMemberValue r tree))
  | .getter func => funcUses_rename func
  | .setter func => funcUses_rename func
  | .method func => funcUses_rename func
  | .field init => optionUses_rename init
  | .accessor init => optionUses_rename init
  | .staticBlock block => blockUses_rename block

/-- Renaming a member of an object literal renames what is used there, and nothing else. -/
theorem objectMemberUses_rename :
    ∀ tree : ObjectMember,
      Carries stem r (objectMemberUses tree) (objectMemberUses (renameObjectMember r tree))
  | .valued _ key value => by
    rw [renameObjectMember, objectMemberUses, objectMemberUses, isStaticBlock_rename]
    refine carries_append ?_ (carries_append (keyUses_rename key) (memberValueUses_rename value))
    split
    · intro wide world _ meets
      simp at meets
    · exact carries_nil r
  | .shorthand _ name => carries_free r name
  | .spread _ value => exprUses_rename value

/-- Renaming the members of an object literal renames what is used there, and nothing else. -/
theorem objectMembersUses_rename :
    ∀ tree : List ObjectMember,
      Carries stem r (objectMembersUses tree) (objectMembersUses (renameObjectMembers r tree))
  | [] => carries_nil r
  | member :: rest =>
    carries_append (objectMemberUses_rename member) (objectMembersUses_rename rest)

/-- Renaming a member of a class renames what is used there, and nothing else. -/
theorem classMemberUses_rename :
    ∀ tree : ClassMember,
      Carries stem r (classMemberUses tree) (classMemberUses (renameClassMember r tree))
  | ⟨_, key, _, value⟩ => carries_append (keyUses_rename key) (memberValueUses_rename value)

/-- Renaming the members of a class renames what is used there, and nothing else. -/
theorem classMembersUses_rename :
    ∀ tree : List ClassMember,
      Carries stem r (classMembersUses tree) (classMembersUses (renameClassMembers r tree))
  | [] => carries_nil r
  | member :: rest => carries_append (classMemberUses_rename member) (classMembersUses_rename rest)

/-- Renaming a function renames what is used there, and nothing else. -/
theorem funcUses_rename :
    ∀ tree : Func, Carries stem r (funcUses tree) (funcUses (renameFunc r tree))
  | ⟨_, _, _, _, params, body⟩ =>
    carries_append
      (carries_enclosed (by rw [bodyNodes_rename, aliases_rename]) (paramsUses_rename params))
      (carries_enclosed (by rw [paramsNames_rename, bodyNames_rename]) (bodyUses_rename body))

/-- Renaming the body of a function renames what is used there, and nothing else. -/
theorem bodyUses_rename :
    ∀ tree : Body, Carries stem r (bodyUses tree) (bodyUses (renameBody r tree))
  | .block stmts => stmtsUses_rename stmts
  | .value result => exprUses_rename result

/-- Renaming a parameter renames what is used there, and nothing else. -/
theorem paramUses_rename :
    ∀ tree : Param, Carries stem r (paramUses tree) (paramUses (renameParam r tree))
  | ⟨_, _, pattern, default⟩ =>
    carries_append (patternUses_rename true pattern) (optionUses_rename default)

/-- Renaming parameters renames what is used there, and nothing else. -/
theorem paramsUses_rename :
    ∀ tree : List Param, Carries stem r (paramsUses tree) (paramsUses (renameParams r tree))
  | [] => carries_nil r
  | param :: rest => carries_append (paramUses_rename param) (paramsUses_rename rest)

/-- Renaming a pattern renames what is used there, and nothing else. -/
theorem patternUses_rename (binds : Bool) :
    ∀ tree : Pattern,
      Carries stem r (patternUses binds tree) (patternUses binds (renamePattern r tree))
  | .id _ name => by
    -- A name that is bound stays as it is; one that is assigned to may be renamed.
    cases binds with
    | true => exact carries_fixed r (by simp [patternUses])
    | false => exact carries_assigned r name
  | .array _ slots rest =>
    carries_append (slotsUses_rename binds slots) (patternOptionUses_rename binds rest)
  | .object _ properties rest =>
    carries_append (propertiesUses_rename binds properties) (patternOptionUses_rename binds rest)
  | .target _ place => exprUses_rename place

/-- Renaming a pattern that may be absent renames what is used there, and nothing else. -/
theorem patternOptionUses_rename (binds : Bool) :
    ∀ tree : Option Pattern,
      Carries stem r (patternOptionUses binds tree)
        (patternOptionUses binds (renamePatternOption r tree))
  | none => carries_nil r
  | some pattern => patternUses_rename binds pattern

/-- Renaming an element of an array pattern renames what is used there, and nothing else. -/
theorem slotUses_rename (binds : Bool) :
    ∀ tree : PatternSlot, Carries stem r (slotUses binds tree) (slotUses binds (renameSlot r tree))
  | .hole => carries_nil r
  | .slot target default =>
    carries_append (patternUses_rename binds target) (optionUses_rename default)

/-- Renaming the elements of an array pattern renames what is used there, and nothing else. -/
theorem slotsUses_rename (binds : Bool) :
    ∀ tree : List PatternSlot,
      Carries stem r (slotsUses binds tree) (slotsUses binds (renameSlots r tree))
  | [] => carries_nil r
  | slot :: rest => carries_append (slotUses_rename binds slot) (slotsUses_rename binds rest)

/-- Renaming a property of an object pattern renames what is used there, and nothing else. -/
theorem propertyUses_rename (binds : Bool) :
    ∀ tree : PatternProperty,
      Carries stem r (propertyUses binds tree) (propertyUses binds (renameProperty r tree))
  | ⟨_, key, target, _, default⟩ =>
    carries_append (keyUses_rename key)
      (carries_append (patternUses_rename binds target) (optionUses_rename default))

/-- Renaming the properties of an object pattern renames what is used there, and nothing else. -/
theorem propertiesUses_rename (binds : Bool) :
    ∀ tree : List PatternProperty,
      Carries stem r (propertiesUses binds tree) (propertiesUses binds (renameProperties r tree))
  | [] => carries_nil r
  | property :: rest =>
    carries_append (propertyUses_rename binds property) (propertiesUses_rename binds rest)

/-- Renaming a declarator renames what is used there, and nothing else. -/
theorem declaratorUses_rename :
    ∀ tree : Declarator,
      Carries stem r (declaratorUses tree) (declaratorUses (renameDeclarator r tree))
  | ⟨pattern, init⟩ => carries_append (patternUses_rename true pattern) (optionUses_rename init)

/-- Renaming declarators renames what is used there, and nothing else. -/
theorem declaratorsUses_rename :
    ∀ tree : List Declarator,
      Carries stem r (declaratorsUses tree) (declaratorsUses (renameDeclarators r tree))
  | [] => carries_nil r
  | declarator :: rest =>
    carries_append (declaratorUses_rename declarator) (declaratorsUses_rename rest)

/-- Renaming statements in braces renames what is used there, and nothing else. -/
theorem blockUses_rename :
    ∀ tree : Block, Carries stem r (blockUses tree) (blockUses (renameBlock r tree))
  | ⟨_, body⟩ => carries_enclosed (stmtsNames_rename r false body) (stmtsUses_rename body)

/-- Renaming statements renames what is used there, and nothing else. -/
theorem stmtsUses_rename :
    ∀ tree : List Stmt, Carries stem r (stmtsUses tree) (stmtsUses (renameStmts r tree))
  | [] => carries_nil r
  | stmt :: rest => carries_append (stmtUses_rename stmt) (stmtsUses_rename rest)

/-- Renaming a branch of a switch renames what is used there, and nothing else. -/
theorem branchUses_rename :
    ∀ tree : SwitchBranch, Carries stem r (branchUses tree) (branchUses (renameBranch r tree))
  | ⟨_, test, body⟩ => carries_append (optionUses_rename test) (stmtsUses_rename body)

/-- Renaming the branches of a switch renames what is used there, and nothing else. -/
theorem branchesUses_rename :
    ∀ tree : List SwitchBranch,
      Carries stem r (branchesUses tree) (branchesUses (renameBranches r tree))
  | [] => carries_nil r
  | branch :: rest => carries_append (branchUses_rename branch) (branchesUses_rename rest)

/-- Renaming a statement renames what is used there, and nothing else. -/
theorem stmtUses_rename :
    ∀ tree : Stmt, Carries stem r (stmtUses tree) (stmtUses (renameStmt r tree))
  | ⟨_, shape⟩ => stmtShapeUses_rename shape

/-- Renaming the shape of a statement renames what is used there, and nothing else. -/
theorem stmtShapeUses_rename :
    ∀ tree : StmtShape,
      Carries stem r (stmtShapeUses tree) (stmtShapeUses (renameStmtShape r tree))
  -- Renaming binds no other names, so a block encloses what it did before.
  | .block body => carries_enclosed (stmtsNames_rename r false body) (stmtsUses_rename body)
  | .doWhile condition body =>
    carries_append (exprUses_rename condition) (carries_lone r body (stmtUses_rename body))
  | .exportDefault value => exprUses_rename value
  | .expr value => exprUses_rename value
  | .forIn keyword binding subject body =>
    carries_enclosed (by rw [patternNames_rename])
      (carries_append (patternUses_rename keyword.isSome binding)
        (carries_append (exprUses_rename subject) (carries_lone r body (stmtUses_rename body))))
  | .forOf _ keyword binding subject body =>
    carries_enclosed (by rw [patternNames_rename])
      (carries_append (patternUses_rename keyword.isSome binding)
        (carries_append (exprUses_rename subject) (carries_lone r body (stmtUses_rename body))))
  | .forLoop init condition post body =>
    carries_append (optionUses_rename init)
      (carries_append (optionUses_rename condition)
        (carries_append (optionUses_rename post) (carries_lone r body (stmtUses_rename body))))
  | .forDecl _ _ declarators condition post body =>
    carries_enclosed (declaratorsNames_rename r declarators)
      (carries_append (declaratorsUses_rename declarators)
        (carries_append (optionUses_rename condition)
          (carries_append (optionUses_rename post) (carries_lone r body (stmtUses_rename body)))))
  | .ifThen test consequent =>
    carries_append (exprUses_rename test) (carries_lone r consequent (stmtUses_rename consequent))
  | .ifElse test consequent alternate =>
    carries_append (exprUses_rename test)
      (carries_append (carries_lone r consequent (stmtUses_rename consequent))
        (carries_lone r alternate (stmtUses_rename alternate)))
  | .label name body =>
    carries_append (@carries_fixed stem r [.fixed name] (by simp))
      (carries_lone r body (stmtUses_rename body))
  | .return value => optionUses_rename value
  | .switch test branches =>
    carries_append (exprUses_rename test)
      (carries_enclosed (branchesNames_rename r false branches) (branchesUses_rename branches))
  | .throw value => exprUses_rename value
  | .tryCatch body param handler =>
    carries_append (blockUses_rename body)
      (carries_enclosed (patternOptionNames_rename r param)
        (carries_append (patternOptionUses_rename true param) (blockUses_rename handler)))
  | .tryFinally body finalizer =>
    carries_append (blockUses_rename body) (blockUses_rename finalizer)
  | .tryCatchFinally body param handler finalizer =>
    carries_append (blockUses_rename body)
      (carries_append
        (carries_enclosed (patternOptionNames_rename r param)
          (carries_append (patternOptionUses_rename true param) (blockUses_rename handler)))
        (blockUses_rename finalizer))
  | .while condition body =>
    carries_append (exprUses_rename condition) (carries_lone r body (stmtUses_rename body))
  | .with object body =>
    carries_append (exprUses_rename object) (carries_lone r body (stmtUses_rename body))
  | .classDecl _ name heritage members =>
    carries_append (carries_nameUses r name) (carries_enclosed rfl
      (carries_append (optionUses_rename heritage) (classMembersUses_rename members)))
  | .functionDecl _ name func => carries_append (carries_nameUses r name) (funcUses_rename func)
  | .varDecl _ _ declarators => declaratorsUses_rename declarators
  | .breakTo label | .continueTo label => carries_nameUses r label
  | .exportNames names _ => carries_fixed r (fixed_exportUses names)
  | .importNames default names _ =>
    carries_append (carries_nameUses r default) (carries_fixed r (fixed_importUses names))
  | .comment _ | .debugger | .empty => carries_nil r

end

end Uses

end Downlevel
