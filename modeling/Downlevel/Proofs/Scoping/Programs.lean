import Downlevel.Proofs.Reading.Programs
import Downlevel.Proofs.Remaining.Programs
import Downlevel.Proofs.Scoping.Survey
import Downlevel.Proofs.Scoping.Walk

/-! A whole program is lowered without a fault if the source is free of clashes, and what comes out
mentions nothing but names of the source, names that lowered code expects, and names that it binds. A
program that was read has names that can be written, and all of them are recorded. -/

namespace Downlevel

open Lowering

namespace Lowering

/-- The lowering is between two statements of the module: nothing is left to be declared. -/
structure Progress.IsBetween (progress : Progress) : Prop where
  current : progress.temps.current = 0
  declared : progress.temps.module.declared = []
  owners : ∃ owner, progress.owners = [owner] ∧ owner.kind = .module

namespace Progress.IsBetween

variable {progress after : Progress} {stem : String}

/-- The module is all that there is. -/
theorem declaredAt (between : progress.IsBetween) (index : Nat) :
    progress.temps.declaredAt index = [] := by
  cases index with
  | zero => exact between.declared
  | succ below => exact Temps.declaredAt_outside (by rw [between.current]; omega)

/-- Between two statements the names are in order. -/
theorem isSound (between : progress.IsBetween) : progress.IsSound stem := by
  obtain ⟨owner, isOwner, isModule⟩ := between.owners
  refine ⟨fun index temp mem => ?_, ?_, ?_⟩
  · rw [between.declaredAt index] at mem
    cases mem
  · simp [isOwner]
  · rw [isOwner]
    refine List.forall_mem_singleton.mpr fun isFunction => ?_
    rw [isModule] at isFunction
    cases isFunction

/-- A run starts in front of the first statement. -/
theorem start : Progress.IsBetween {} :=
  ⟨rfl, rfl, _, rfl, rfl⟩

end Progress.IsBetween

/-- After a statement, the lowering still is inside of the module alone. -/
theorem Progress.Goes.stays_outside {stem : String} {before after : Progress}
    (between : before.IsBetween) (goes : before.Goes stem false after) :
    after.temps.current = 0 ∧ ∃ owner, after.owners = [owner] ∧ owner.kind = .module := by
  obtain ⟨owner, isOwner, isModule⟩ := between.owners
  have same := goes.owners
  rw [isOwner, List.map_singleton, List.map_eq_singleton_iff] at same
  obtain ⟨still, isStill, identity⟩ := same
  refine ⟨goes.current.trans between.current, still, isStill, ?_⟩
  exact (congrArg Prod.fst identity).trans isModule

/-- Ending a group leaves nothing to be declared. -/
theorem isBetween_finishGroup {progress : Progress} (current : progress.temps.current = 0)
    (owners : ∃ owner, progress.owners = [owner] ∧ owner.kind = .module) :
    Progress.IsBetween { progress with temps := progress.temps.finishGroup.2 } :=
  ⟨current, rfl, owners⟩

end Lowering

namespace Realm

variable {realm : Realm} {setting : Setting} {before : Progress}

/-- The setting of the module, outside of any class. -/
structure InModule (realm : Realm) (setting : Setting) : Prop where
  stem : setting.options.fileStem = realm.stem
  known : ∀ name, ¬realm.known name
  classes : setting.classes = []
  inParams : setting.inParams = false

/-- Between two statements nothing has to be known. -/
theorem InModule.fits (inModule : realm.InModule setting) (between : before.IsBetween) :
    realm.Fits false setting before where
  stem := inModule.stem
  known name isKnown := absurd isKnown (inModule.known name)
  classes := by
    rw [inModule.classes]
    exact List.forall_mem_nil _
  params inParams := by
    rw [inModule.inParams] at inParams
    cases inParams
  sound := between.isSound

/-- After a statement, all that code may mention is of the source, expected, or to be declared in
front of the statement. -/
theorem covers_group {after : Progress} {world : World} (grounds : realm.Grounds world)
    (sound : after.IsSound realm.stem) (current : after.temps.current = 0)
    (owners : ∃ owner, after.owners = [owner] ∧ owner.kind = .module) :
    realm.Covers after (world.plus realm.stem (after.temps.module.declared.map (·.name))) := by
  intro name sees
  -- Outside every function there is one frame, and its owner is the module, which has no
  -- placeholder.
  cases sees with
  | given holds => exact .inl (grounds.given name holds)
  | runtime mem => exact .inl (grounds.runtime name mem)
  | declared index temp mem isName =>
    cases index with
    | zero => exact .inr ⟨isName ▸ List.mem_map_of_mem mem, isName ▸ (sound.temps 0 temp mem).writable⟩
    | succ below =>
      rw [Temps.declaredAt_outside (by omega)] at mem
      cases mem
  | placeholder owner mem isStatic isAlias =>
    obtain ⟨own, isOwn, isModule⟩ := owners
    rw [isOwn] at mem
    obtain rfl := List.mem_singleton.mp mem
    rw [isModule] at isStatic
    cases isStatic

/-- A module is lowered statement by statement. -/
theorem moduleStep_cons_run (stmt : Stmt) (rest : List Stmt) :
    moduleStep (stmt :: rest) setting before
      = ((stmtForms stmt).stmts setting before >>= fun (stmts, middle) =>
        moduleStep rest setting { middle with temps := middle.temps.finishGroup.2 } >>=
          fun (others, after) => .ok ((if middle.temps.module.declared.isEmpty then [] else
            [Temp.declaration stmt.span middle.temps.module.declared]) ++ stmts ++ others, after)) := by
  rw [moduleStep_cons]
  rfl

/-- The statements of a module work: between any two of them nothing is left to be declared. -/
theorem works_module (stmts : List Stmt) (given : realm.Given (stmtsNodes stmts))
    (inModule : realm.InModule setting) (between : before.IsBetween) :
    (∀ fault, moduleStep stmts setting before = .error fault → ¬realm.isClean)
      ∧ ∀ lowered after, moduleStep stmts setting before = .ok (lowered, after) →
        ∀ world, realm.Grounds world →
          Meets realm.stem (world.plus realm.stem (stmtsNames false lowered)) (stmtsUses lowered) := by
  induction stmts generalizing before with
  | nil =>
    refine ⟨by rintro _ ⟨⟩, ?_⟩
    rintro _ _ ⟨⟩
    exact fun _ _ => by simp
  | cons stmt rest ih =>
    -- Statement by statement. What a statement of the module declares stands in front of it, so the
    -- names of its group are bound for it and for nothing before it.
    obtain ⟨inStmt, inRest⟩ := given_append.mp given
    rw [moduleStep_cons_run]
    obtain ⟨fails, ends⟩ := (works_stmt stmt inStmt).stmts setting before (inModule.fits between)
    cases begun : (stmtForms stmt).stmts setting before with
    | error fault => exact ⟨fun _ _ => fails fault begun, by rintro _ _ ⟨⟩⟩
    | ok pair =>
      obtain ⟨stmts, middle⟩ := pair
      obtain ⟨goes, shown⟩ := ends stmts middle begun
      rw [inModule.inParams] at goes
      obtain ⟨current, owners⟩ := goes.stays_outside between
      have sound := goes.sound between.isSound
      obtain ⟨fails', ends'⟩ := ih inRest (isBetween_finishGroup current owners)
      show (∀ fault, (moduleStep rest setting _ >>= _) = .error fault → _) ∧ ∀ lowered after,
        (moduleStep rest setting _ >>= _) = .ok (lowered, after) → _
      cases ended : moduleStep rest setting { middle with temps := middle.temps.finishGroup.2 } with
      | error fault => exact ⟨fun _ _ => fails' fault ended, by rintro _ _ ⟨⟩⟩
      | ok last =>
        obtain ⟨others, after⟩ := last
        refine ⟨by rintro _ ⟨⟩, ?_⟩
        rintro _ _ ⟨⟩ world grounds
        have inOthers := ends' others after ended world grounds
        have inStmts : Meets realm.stem ((world.plus realm.stem
            (middle.temps.module.declared.map (·.name))).plus realm.stem (stmtsNames false stmts))
            (stmtsUses stmts) :=
          shown _ (covers_group grounds sound current owners)
        rw [World.plus_append] at inStmts
        simp only [stmtsUses_append, stmtsNames_append, meets_append]
        -- The declaration of the group, the statement itself, and the statements after it.
        refine ⟨⟨?_, ?_⟩, ?_⟩
        · split
          · simp
          · have inDeclaration : Meets realm.stem world
                (stmtUses (Temp.declaration stmt.span middle.temps.module.declared)) :=
              meets_declaration (grounds.runtime "arguments" (by decide)) (sound.temps 0)
            simpa using inDeclaration.plus
        · refine Meets.mono inStmts (World.plus_mono (fun _ => id) fun name mem => ?_)
          rcases List.mem_append.mp mem with isDeclared | isOwn
          · apply List.mem_append_left
            apply List.mem_append_left
            rw [if_neg]
            · simpa [names_declaration] using isDeclared
            · intro isEmpty
              rw [List.isEmpty_iff.mp isEmpty] at isDeclared
              cases isDeclared
          · exact List.mem_append_left _ (List.mem_append_right _ isOwn)
        · exact Meets.mono inOthers (World.plus_mono (fun _ => id) fun _ => List.mem_append_right _)

end Realm

section Whole

variable {realm : Realm} {program : Program} {options : Options} {scopes : ScopeTree}

/-- A program without clashes is lowered, and what comes out mentions nothing but names of the
source, names that lowered code expects, and names that it binds. -/
theorem Program.lower_works (given : realm.Given program.nodes) (stem : options.fileStem = realm.stem)
    (unknown : ∀ name, ¬realm.known name) :
    (∀ fault, program.lower options scopes = .error fault → ¬realm.isClean)
      ∧ ∀ lowered, program.lower options scopes = .ok lowered →
        ∀ world, realm.Grounds world → Meets realm.stem world lowered.program.uses := by
  have inModule : realm.InModule { options, scopes } := ⟨stem, unknown, rfl, rfl⟩
  obtain ⟨fails, ends⟩ := Realm.works_module program.body given inModule .start
  constructor
  · intro fault run
    -- The module step runs to a result, or the program has none.
    cases ran : moduleStep program.body { options, scopes } {} with
    | error other => exact fails other ran
    | ok ended =>
      rw [Program.lower_of_ok ran] at run
      cases run
  · intro lowered run world grounds
    obtain ⟨progress, ran, -, -⟩ := Program.lower_eq run
    rw [Program.uses, meets_enclosed]
    exact ends _ _ ran world grounds

end Whole

/-- A node of a program without clashes: no private name is declared by members of two kinds, and
nothing goes on with a chain right behind a template. -/
def Node.Clean : Node → Prop
  | .shape (.classExpr _ _ members) | .stmt (.classDecl _ _ _ members) => OneKindEach members
  | .shape (.call link _ object _) | .shape (.computed link object _) | .shape (.member link object _) =>
    link = .continues → object.isTagged = false
  | _ => True

/-- A program without clashes. -/
def Program.IsClean (program : Program) : Prop :=
  ∀ found ∈ program.nodes, found.node.Clean

section Names

variable {stem name : String}

/-- What a source can hold can be written. -/
theorem IsSpelled.writable (spelled : IsSpelled name) : Writable stem name := by
  obtain ⟨c, rest, letters, noPlaceholder⟩ := spelled
  exact writable_of_head (by rw [letters]; rfl) noPlaceholder

/-- Behind its number sign, a private name of a source does not look like a placeholder. -/
theorem IsPrivatelySpelled.plain (spelled : IsPrivatelySpelled name) : PlainPrivate name := by
  obtain ⟨c, rest, letters, noMark, noPlaceholder⟩ := spelled
  rw [PlainPrivate, dropLeading, letters, String.toList_ofList]
  simp [noMark, noPlaceholder]

/-- A member that is formed fits its class. -/
theorem ClassMember.Formed.fits {member : ClassMember} (formed : member.Formed) : member.Fits :=
  ⟨fun name isPrivate => (formed.isPrivate name isPrivate).plain, formed.isMethod⟩

/-- What an export list writes down can be written. -/
theorem meets_exportUses {names : ExportNames} {module : Option String}
    (formed : (Node.stmt (.exportNames names module)).Formed) {world : World} :
    Meets stem world (exportUses names) := by
  -- Of the exported entries only an identifier is a name of the file, and the parser read it as
  -- one.
  cases names with
  | all outer => exact meets_nil
  | specific entries =>
    refine meets_flatMap.mpr fun entry mem => ?_
    have isRead := formed entry mem
    cases own : entry.exportable with
    | identifier name =>
      rw [own] at isRead
      exact meets_cons.mpr ⟨isRead.writable, meets_nil⟩
    | string text => exact meets_nil

/-- So can what an import list does. -/
theorem meets_importUses {names : Option ImportNames} (isRead : ∀ list ∈ names, list.IsRead)
    {world : World} : Meets stem world (importUses names) := by
  -- Nothing, one name, or a list; each name was read by the parser, so it is writable.
  rcases names with _ | _ | entries
  · exact meets_nil
  · exact meets_cons.mpr ⟨(isRead _ rfl).writable, meets_nil⟩
  · refine meets_flatMap.mpr fun entry mem => ?_
    obtain ⟨inName, bound⟩ := isRead _ rfl entry mem
    refine meets_append.mpr ⟨?_, meets_cons.mpr ⟨bound.writable, meets_nil⟩⟩
    cases own : entry.importable with
    | identifier name =>
      rw [own] at inName
      exact meets_cons.mpr ⟨inName.writable, meets_nil⟩
    | string text => exact meets_nil

end Names

/-- The realm of a program: what it mentions is what its scopes record. -/
def Program.realm (program : Program) (options : Options) (scopes : ScopeTree) : Realm where
  stem := options.fileStem
  given name := name ∈ scopes.names.names ∧ IsSpelled name
  isClean := program.IsClean

section Programs

variable {program : Program} {options : Options} {scopes : ScopeTree} {node : Node}

/-- A node that was read, whose name is recorded, and that does not clash if nothing does. -/
theorem admits_of_formed (formed : node.Formed) (known : ∀ name ∈ node.name?, name ∈ scopes.names.names)
    (clean : program.IsClean → node.Clean) : (program.realm options scopes).AdmitsNode node := by
  -- A link follows a chain where no template is in front of it.
  have goesOn {link : ChainLink} {object : Expr} (follows : link.Follows object)
      (noTag : program.IsClean → link = .continues → object.isTagged = false) :
      (program.realm options scopes).GoesOn link object := by
    intro continues isClean
    exact (follows continues).resolve_right (by simp [noTag isClean continues])
  have inClass {name : Option String} {members : List ClassMember} (formed : ClassFormed name members)
      (agree : program.IsClean → OneKindEach members) :
      (program.realm options scopes).AdmitsClass name members :=
    ⟨fun own isOwn => (formed.name own isOwn).writable, fun member mem => (formed.members member mem).fits,
      agree⟩
  cases node with
  | shape shape =>
    cases shape with
    | id name => exact ⟨known name rfl, formed⟩
    | function name func => exact fun own isOwn => (formed own isOwn).writable
    | classExpr name heritage members => exact inClass formed clean
    | call link isPure object args => exact goesOn formed clean
    | computed link object key => exact goesOn formed clean
    | member link object name => exact goesOn formed clean
    | _ => trivial
  | param param => exact formed
  | pattern pattern =>
    cases pattern with
    | id span name => exact ⟨⟨known name rfl, formed⟩, formed.writable⟩
    | _ => trivial
  | objectMember member =>
    cases member with
    | valued span key value => exact formed
    | shorthand span name => exact ⟨known name rfl, formed⟩
    | spread span value => trivial
  | stmt shape =>
    cases shape with
    | label name body => exact formed.writable
    | breakTo label => exact fun own isOwn => (formed own isOwn).writable
    | continueTo label => exact fun own isOwn => (formed own isOwn).writable
    | classDecl exported name heritage members => exact inClass formed clean
    | functionDecl exported name func => exact fun own isOwn => (formed own isOwn).writable
    | exportNames names module => exact meets_exportUses formed
    | importNames default names module =>
      exact meets_append.mpr ⟨meets_nameUses.mpr fun own isOwn => (formed.1 own isOwn).writable,
        meets_importUses formed.2⟩
    | _ => trivial
  | _ => trivial

/-- A program that was read is as the lowering expects it. -/
theorem given_of_formed (formed : AreFormed program.nodes)
    (knows : Survey.Knows scopes program.nodes) :
    (program.realm options scopes).Given program.nodes :=
  fun found mem => admits_of_formed (formed found mem) (knows found mem) fun clean => clean found mem

end Programs

end Downlevel
