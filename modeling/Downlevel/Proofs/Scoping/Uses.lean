import Downlevel.Proofs.Nodes

/-! How a tree uses names: which it binds for the code around it, which it mentions without binding
them, which it mentions and binds, and which it writes down for another reason. -/

namespace Downlevel

section Patterns

mutual

/-- The names that a declared pattern binds. -/
def patternNames : Pattern → List String
  | .id _ name => [name]
  | .array _ slots rest => slotsNames slots ++ patternOptionNames rest
  | .object _ properties rest => propertiesNames properties ++ patternOptionNames rest
  | .target .. => []

/-- The names of a pattern that may be absent. -/
def patternOptionNames : Option Pattern → List String
  | none => []
  | some pattern => patternNames pattern

/-- The names of an element of an array pattern. -/
def slotNames : PatternSlot → List String
  | .hole => []
  | .slot target _ => patternNames target

/-- The names of the elements of an array pattern. -/
def slotsNames : List PatternSlot → List String
  | [] => []
  | slot :: rest => slotNames slot ++ slotsNames rest

/-- The names of a property of an object pattern. -/
def propertyNames : PatternProperty → List String
  | ⟨_, _, target, _, _⟩ => patternNames target

/-- The names of the properties of an object pattern. -/
def propertiesNames : List PatternProperty → List String
  | [] => []
  | property :: rest => propertyNames property ++ propertiesNames rest

end

/-- The names that declarators bind. -/
def declaratorsNames (declarators : List Declarator) : List String :=
  declarators.flatMap fun declarator => patternNames declarator.pattern

/-- The names that parameters bind. -/
def paramsNames (params : List Param) : List String :=
  params.flatMap fun param => patternNames param.pattern

end Patterns

section Statements

/-- The names that an import statement binds besides the default. -/
def importedNames : Option ImportNames → List String
  | none => []
  | some (.all boundAs) => [boundAs]
  | some (.specific names) => names.map (·.boundAs)

mutual

/-- The names that a statement binds for the whole list of statements that it belongs to. Of a nested
one only the variables count, since those belong to the function around. -/
def stmtNames (isNested : Bool) : Stmt → List String
  | ⟨_, shape⟩ => stmtShapeNames isNested shape

/-- The names that a statement of the shape binds around itself. -/
def stmtShapeNames (isNested : Bool) : StmtShape → List String
  | .block body => stmtsNames true body
  | .doWhile _ body => stmtNames true body
  | .forIn keyword binding _ body =>
    (if keyword = some .varDecl then patternNames binding else []) ++ stmtNames true body
  | .forOf _ keyword binding _ body =>
    (if keyword = some .varDecl then patternNames binding else []) ++ stmtNames true body
  | .forLoop _ _ _ body => stmtNames true body
  | .forDecl _ keyword declarators _ _ body =>
    (if keyword = .varDecl then declaratorsNames declarators else []) ++ stmtNames true body
  | .ifThen _ consequent => stmtNames true consequent
  | .ifElse _ consequent alternate => stmtNames true consequent ++ stmtNames true alternate
  | .importNames default names _ => default.toList ++ importedNames names
  | .label _ body => stmtNames isNested body
  | .switch _ branches => branchesNames true branches
  | .tryCatch body _ handler => blockNames body ++ blockNames handler
  | .tryFinally body finalizer => blockNames body ++ blockNames finalizer
  | .tryCatchFinally body _ handler finalizer =>
    blockNames body ++ blockNames handler ++ blockNames finalizer
  | .while _ body => stmtNames true body
  | .with _ body => stmtNames true body
  | .classDecl _ name _ _ => if isNested then [] else name.toList
  | .functionDecl _ name _ => if isNested then [] else name.toList
  | .varDecl _ keyword declarators =>
    if isNested ∧ keyword ≠ .varDecl then [] else declaratorsNames declarators
  | .breakTo _ | .comment _ | .continueTo _ | .debugger | .empty | .exportDefault _ | .exportNames ..
  | .expr _ | .return _ | .throw _ => []

/-- The names that any of the statements binds around itself. -/
def stmtsNames (isNested : Bool) : List Stmt → List String
  | [] => []
  | stmt :: rest => stmtNames isNested stmt ++ stmtsNames isNested rest

/-- The variables that statements in braces bind for the function around. -/
def blockNames : Block → List String
  | ⟨_, body⟩ => stmtsNames true body

/-- The names that the statements of a branch bind around themselves. -/
def branchNames (isNested : Bool) : SwitchBranch → List String
  | ⟨_, _, body⟩ => stmtsNames isNested body

/-- The names that the statements of any of the branches bind around themselves. -/
def branchesNames (isNested : Bool) : List SwitchBranch → List String
  | [] => []
  | branch :: rest => branchNames isNested branch ++ branchesNames isNested rest

end

/-- The names that a body binds for all that is in it. -/
def bodyNames : Body → List String
  | .block stmts => stmtsNames false stmts
  | .value _ => []

end Statements

/-- The names of statements are those of each, one after another. -/
theorem stmtsNames_eq (isNested : Bool) (stmts : List Stmt) :
    stmtsNames isNested stmts = stmts.flatMap (stmtNames isNested) :=
  flatMap_of_cons (by rw [stmtsNames]) (fun _ _ => by rw [stmtsNames]) stmts

/-- No statements bind nothing. -/
@[simp] theorem stmtsNames_nil (isNested : Bool) : stmtsNames isNested [] = [] := by
  rw [stmtsNames]

/-- The first statement binds its names in front of the others. -/
@[simp] theorem stmtsNames_cons (isNested : Bool) (stmt : Stmt) (rest : List Stmt) :
    stmtsNames isNested (stmt :: rest) = stmtNames isNested stmt ++ stmtsNames isNested rest := by
  rw [stmtsNames]

/-- Statements one behind the other bind what both lists do. -/
@[simp] theorem stmtsNames_append (isNested : Bool) (stmts more : List Stmt) :
    stmtsNames isNested (stmts ++ more)
      = stmtsNames isNested stmts ++ stmtsNames isNested more := by
  simp [stmtsNames_eq]

/-- No declarators bind nothing. -/
@[simp] theorem declaratorsNames_nil : declaratorsNames [] = [] :=
  rfl

/-- The first declarator binds its names in front of the others. -/
@[simp] theorem declaratorsNames_cons (declarator : Declarator) (rest : List Declarator) :
    declaratorsNames (declarator :: rest)
      = patternNames declarator.pattern ++ declaratorsNames rest :=
  List.flatMap_cons

/-- Declarators one behind the other bind what both lists do. -/
@[simp] theorem declaratorsNames_append (declarators more : List Declarator) :
    declaratorsNames (declarators ++ more)
      = declaratorsNames declarators ++ declaratorsNames more :=
  List.flatMap_append

/-- No parameters bind nothing. -/
@[simp] theorem paramsNames_nil : paramsNames [] = [] :=
  rfl

/-- The first parameter binds its names in front of the others. -/
@[simp] theorem paramsNames_cons (param : Param) (rest : List Param) :
    paramsNames (param :: rest) = patternNames param.pattern ++ paramsNames rest :=
  List.flatMap_cons

/-- Parameters one behind the other bind what both lists do. -/
@[simp] theorem paramsNames_append (params more : List Param) :
    paramsNames (params ++ more) = paramsNames params ++ paramsNames more :=
  List.flatMap_append

/-- A use of a name in a tree, or a part that only a class can hold. -/
inductive Use
  /-- A mention of a name that nothing in the tree binds. -/
  | free (name : String)
  /-- A mention of a name that the tree binds itself. -/
  | bound (name : String)
  /-- A name that is bound, or written down as a label or in a list of imports or exports. -/
  | fixed (name : String)
  /-- A static block outside of any class. -/
  | stray
deriving DecidableEq

namespace Use

/-- The name that is used. -/
def name? : Use → Option String
  | .free name | .bound name | .fixed name => some name
  | .stray => none

/-- The name that is mentioned without being bound. -/
def free? : Use → Option String
  | .free name => some name
  | _ => none

/-- The use in a tree around that binds the names. -/
def hide (names : List String) : Use → Use
  | .free name => if name ∈ names then .bound name else .free name
  | use => use

end Use

/-- The uses in a tree around that binds the names. -/
def enclosed (names : List String) (uses : List Use) : List Use :=
  uses.map (.hide names)

/-- The name that a declarator makes up to stand for `this` or `arguments`. -/
def Declarator.alias? : Declarator → Option String
  | ⟨.id _ name, some ⟨_, .this⟩⟩ =>
    if "_this".toList.isPrefixOf name.toList then some name else none
  | ⟨.id _ name, some ⟨_, .id _⟩⟩ =>
    if "_arguments".toList.isPrefixOf name.toList then some name else none
  | _ => none

/-- The name that a node makes up to stand for `this` or `arguments`. -/
def Node.alias? : Node → Option String
  | .declarator own => own.alias?
  | _ => none

/-- The names that the nodes make up to stand for `this` or `arguments`. -/
def aliases (nodes : List Occurrence) : List String :=
  nodes.filterMap (·.node.alias?)

/-- The uses of a name that may be absent. -/
def nameUses (name : Option String) : List Use :=
  name.toList.map .fixed

/-- The uses of a name in an import or export list, which may be a string. -/
def ModuleName.uses : ModuleName → List Use
  | .identifier name => [.fixed name]
  | .string _ => []

/-- The uses in an import statement besides the default. -/
def importUses : Option ImportNames → List Use
  | none => []
  | some (.all boundAs) => [.fixed boundAs]
  | some (.specific names) => names.flatMap fun entry => entry.importable.uses ++ [.fixed entry.boundAs]

/-- The uses in an export list. What is outside of the module is no name of it. -/
def exportUses : ExportNames → List Use
  | .all _ => []
  | .specific names => names.flatMap (·.exportable.uses)

/-- Whether a member value is a static block. -/
def MemberValue.isStaticBlock : MemberValue → Bool
  | .staticBlock _ => true
  | _ => false

mutual

/-- The uses of names in an expression. -/
def exprUses : Expr → List Use
  | ⟨_, shape⟩ => shapeUses shape

/-- The uses of names in a shape. -/
def shapeUses : Shape → List Use
  | .arrow func => funcUses func
  | .binary _ left right => exprUses left ++ exprUses right
  | .call _ _ callee args => exprUses callee ++ argsUses args
  | .classExpr name heritage members =>
    nameUses name ++ enclosed name.toList (optionUses heritage ++ classMembersUses members)
  | .computed _ object key => exprUses object ++ exprUses key
  | .cond test consequent alternate => exprUses test ++ (exprUses consequent ++ exprUses alternate)
  | .function name func => nameUses name ++ enclosed name.toList (funcUses func)
  | .id name => [.free name]
  | .importCall module => exprUses module
  | .member _ object _ => exprUses object
  | .new callee args => exprUses callee ++ argsUses args
  | .tagged tag _ spans => exprUses tag ++ spansUses spans
  | .unary _ operand => exprUses operand
  | .update _ operand => exprUses operand
  | .yield _ operand => optionUses operand
  | .array items => itemsUses items
  | .object members => objectMembersUses members
  | .template _ spans => spansUses spans
  | .arrayPattern slots rest => slotsUses false slots ++ patternOptionUses false rest
  | .objectPattern properties rest =>
    propertiesUses false properties ++ patternOptionUses false rest
  | .importMeta | .newTarget | .super | .this | .bigint _ | .bool _ | .null | .num _ | .regex _
  | .str _ => []

/-- The uses of names in an expression that may be absent. -/
def optionUses : Option Expr → List Use
  | none => []
  | some e => exprUses e

/-- The uses of names in an argument. -/
def argUses : Arg → List Use
  | ⟨_, value⟩ => exprUses value

/-- The uses of names in arguments. -/
def argsUses : List Arg → List Use
  | [] => []
  | arg :: rest => argUses arg ++ argsUses rest

/-- The uses of names in a substitution. -/
def spanUses : TemplateSpan → List Use
  | ⟨value, _⟩ => exprUses value

/-- The uses of names in substitutions. -/
def spansUses : List TemplateSpan → List Use
  | [] => []
  | span :: rest => spanUses span ++ spansUses rest

/-- The uses of names in an element of an array literal. -/
def itemUses : ArrayItem → List Use
  | .single value => exprUses value
  | .spread value => exprUses value
  | .hole => []

/-- The uses of names in the elements of an array literal. -/
def itemsUses : List ArrayItem → List Use
  | [] => []
  | item :: rest => itemUses item ++ itemsUses rest

/-- The uses of names in a key. -/
def keyUses : Key → List Use
  | .direct _ => []
  | .computed value => exprUses value

/-- The uses of names in what a member holds. -/
def memberValueUses : MemberValue → List Use
  | .getter func => funcUses func
  | .setter func => funcUses func
  | .method func => funcUses func
  | .field init => optionUses init
  | .accessor init => optionUses init
  | .staticBlock block => blockUses block

/-- The uses of names in a member of an object literal. -/
def objectMemberUses : ObjectMember → List Use
  | .valued _ key value =>
    (if value.isStaticBlock then [.stray] else []) ++ (keyUses key ++ memberValueUses value)
  | .shorthand _ name => [.free name]
  | .spread _ value => exprUses value

/-- The uses of names in the members of an object literal. -/
def objectMembersUses : List ObjectMember → List Use
  | [] => []
  | member :: rest => objectMemberUses member ++ objectMembersUses rest

/-- The uses of names in a member of a class. -/
def classMemberUses : ClassMember → List Use
  | ⟨_, key, _, value⟩ => keyUses key ++ memberValueUses value

/-- The uses of names in the members of a class. -/
def classMembersUses : List ClassMember → List Use
  | [] => []
  | member :: rest => classMemberUses member ++ classMembersUses rest

/-- The uses of names in a function. Its parameters see nothing of what the body binds, except for
what stands for `this` or `arguments`. What they bind themselves is hidden from the body only. -/
def funcUses : Func → List Use
  | ⟨_, _, _, _, params, body⟩ =>
    enclosed (aliases (bodyNodes body)) (paramsUses params)
      ++ enclosed (paramsNames params ++ bodyNames body) (bodyUses body)

/-- The uses of names in the body of a function. -/
def bodyUses : Body → List Use
  | .block stmts => stmtsUses stmts
  | .value result => exprUses result

/-- The uses of names in a parameter. -/
def paramUses : Param → List Use
  | ⟨_, _, pattern, default⟩ => patternUses true pattern ++ optionUses default

/-- The uses of names in parameters. -/
def paramsUses : List Param → List Use
  | [] => []
  | param :: rest => paramUses param ++ paramsUses rest

/-- The uses of names in a pattern, which mentions names unless it binds them. -/
def patternUses (binds : Bool) : Pattern → List Use
  | .id _ name => if binds then [.fixed name] else [.free name, .fixed name]
  | .array _ slots rest => slotsUses binds slots ++ patternOptionUses binds rest
  | .object _ properties rest => propertiesUses binds properties ++ patternOptionUses binds rest
  | .target _ place => exprUses place

/-- The uses of names in a pattern that may be absent. -/
def patternOptionUses (binds : Bool) : Option Pattern → List Use
  | none => []
  | some pattern => patternUses binds pattern

/-- The uses of names in an element of an array pattern. -/
def slotUses (binds : Bool) : PatternSlot → List Use
  | .hole => []
  | .slot target default => patternUses binds target ++ optionUses default

/-- The uses of names in the elements of an array pattern. -/
def slotsUses (binds : Bool) : List PatternSlot → List Use
  | [] => []
  | slot :: rest => slotUses binds slot ++ slotsUses binds rest

/-- The uses of names in a property of an object pattern. -/
def propertyUses (binds : Bool) : PatternProperty → List Use
  | ⟨_, key, target, _, default⟩ => keyUses key ++ (patternUses binds target ++ optionUses default)

/-- The uses of names in the properties of an object pattern. -/
def propertiesUses (binds : Bool) : List PatternProperty → List Use
  | [] => []
  | property :: rest => propertyUses binds property ++ propertiesUses binds rest

/-- The uses of names in a declarator. -/
def declaratorUses : Declarator → List Use
  | ⟨pattern, init⟩ => patternUses true pattern ++ optionUses init

/-- The uses of names in declarators. -/
def declaratorsUses : List Declarator → List Use
  | [] => []
  | declarator :: rest => declaratorUses declarator ++ declaratorsUses rest

/-- The uses of names in statements in braces. -/
def blockUses : Block → List Use
  | ⟨_, body⟩ => enclosed (stmtsNames false body) (stmtsUses body)

/-- The uses of names in statements. -/
def stmtsUses : List Stmt → List Use
  | [] => []
  | stmt :: rest => stmtUses stmt ++ stmtsUses rest

/-- The uses of names in a branch of a switch. -/
def branchUses : SwitchBranch → List Use
  | ⟨_, test, body⟩ => optionUses test ++ stmtsUses body

/-- The uses of names in the branches of a switch. -/
def branchesUses : List SwitchBranch → List Use
  | [] => []
  | branch :: rest => branchUses branch ++ branchesUses rest

/-- The uses of names in a statement. -/
def stmtUses : Stmt → List Use
  | ⟨_, shape⟩ => stmtShapeUses shape

/-- The uses of names in the shape of a statement. A lone statement is as good as a block. -/
def stmtShapeUses : StmtShape → List Use
  | .block body => enclosed (stmtsNames false body) (stmtsUses body)
  | .doWhile condition body => exprUses condition ++ enclosed (stmtNames false body) (stmtUses body)
  | .exportDefault value => exprUses value
  | .expr value => exprUses value
  | .forIn keyword binding subject body =>
    enclosed (if keyword.isSome then patternNames binding else [])
      (patternUses keyword.isSome binding
        ++ (exprUses subject ++ enclosed (stmtNames false body) (stmtUses body)))
  | .forOf _ keyword binding subject body =>
    enclosed (if keyword.isSome then patternNames binding else [])
      (patternUses keyword.isSome binding
        ++ (exprUses subject ++ enclosed (stmtNames false body) (stmtUses body)))
  | .forLoop init condition post body =>
    optionUses init ++ (optionUses condition
      ++ (optionUses post ++ enclosed (stmtNames false body) (stmtUses body)))
  | .forDecl _ _ declarators condition post body =>
    enclosed (declaratorsNames declarators)
      (declaratorsUses declarators ++ (optionUses condition
        ++ (optionUses post ++ enclosed (stmtNames false body) (stmtUses body))))
  | .ifThen test consequent =>
    exprUses test ++ enclosed (stmtNames false consequent) (stmtUses consequent)
  | .ifElse test consequent alternate =>
    exprUses test ++ (enclosed (stmtNames false consequent) (stmtUses consequent)
      ++ enclosed (stmtNames false alternate) (stmtUses alternate))
  | .label name body => .fixed name :: enclosed (stmtNames false body) (stmtUses body)
  | .return value => optionUses value
  | .switch test branches =>
    exprUses test ++ enclosed (branchesNames false branches) (branchesUses branches)
  | .throw value => exprUses value
  | .tryCatch body param handler =>
    blockUses body
      ++ enclosed (patternOptionNames param) (patternOptionUses true param ++ blockUses handler)
  | .tryFinally body finalizer => blockUses body ++ blockUses finalizer
  | .tryCatchFinally body param handler finalizer =>
    blockUses body
      ++ (enclosed (patternOptionNames param) (patternOptionUses true param ++ blockUses handler)
        ++ blockUses finalizer)
  | .while condition body => exprUses condition ++ enclosed (stmtNames false body) (stmtUses body)
  | .with object body => exprUses object ++ enclosed (stmtNames false body) (stmtUses body)
  | .classDecl _ name heritage members =>
    nameUses name ++ enclosed name.toList (optionUses heritage ++ classMembersUses members)
  | .functionDecl _ name func => nameUses name ++ funcUses func
  | .varDecl _ _ declarators => declaratorsUses declarators
  | .breakTo label | .continueTo label => nameUses label
  | .exportNames names _ => exportUses names
  | .importNames default names _ => nameUses default ++ importUses names
  | .comment _ | .debugger | .empty => []

end

namespace Program

/-- The uses of names in a program. -/
def uses (program : Program) : List Use :=
  enclosed (stmtsNames false program.body) (stmtsUses program.body)

/-- All the identifiers that a program is written with. -/
def identifiers (program : Program) : List String :=
  program.uses.filterMap Use.name?

/-- The names that a program mentions where nothing in it binds them. -/
def unbound (program : Program) : List String :=
  program.uses.filterMap Use.free?

end Program

attribute [simp] shapeUses stmtShapeUses memberValueUses

/-- The uses of arguments are those of each, one after another. -/
theorem argsUses_eq (args : List Arg) : argsUses args = args.flatMap argUses :=
  flatMap_of_cons (by rw [argsUses]) (fun _ _ => by rw [argsUses]) args

/-- The uses of substitutions are those of each, one after another. -/
theorem spansUses_eq (spans : List TemplateSpan) : spansUses spans = spans.flatMap spanUses :=
  flatMap_of_cons (by rw [spansUses]) (fun _ _ => by rw [spansUses]) spans

/-- The uses of the elements of an array literal are those of each, one after another. -/
theorem itemsUses_eq (items : List ArrayItem) : itemsUses items = items.flatMap itemUses :=
  flatMap_of_cons (by rw [itemsUses]) (fun _ _ => by rw [itemsUses]) items

/-- The uses of the members of an object literal are those of each, one after another. -/
theorem objectMembersUses_eq (members : List ObjectMember) :
    objectMembersUses members = members.flatMap objectMemberUses :=
  flatMap_of_cons (by rw [objectMembersUses]) (fun _ _ => by rw [objectMembersUses]) members

/-- The uses of the members of a class are those of each, one after another. -/
theorem classMembersUses_eq (members : List ClassMember) :
    classMembersUses members = members.flatMap classMemberUses :=
  flatMap_of_cons (by rw [classMembersUses]) (fun _ _ => by rw [classMembersUses]) members

/-- The uses of parameters are those of each, one after another. -/
theorem paramsUses_eq (params : List Param) : paramsUses params = params.flatMap paramUses :=
  flatMap_of_cons (by rw [paramsUses]) (fun _ _ => by rw [paramsUses]) params

/-- The uses of declarators are those of each, one after another. -/
theorem declaratorsUses_eq (declarators : List Declarator) :
    declaratorsUses declarators = declarators.flatMap declaratorUses :=
  flatMap_of_cons (by rw [declaratorsUses]) (fun _ _ => by rw [declaratorsUses]) declarators

/-- The uses of statements are those of each, one after another. -/
theorem stmtsUses_eq (stmts : List Stmt) : stmtsUses stmts = stmts.flatMap stmtUses :=
  flatMap_of_cons (by rw [stmtsUses]) (fun _ _ => by rw [stmtsUses]) stmts

end Downlevel
