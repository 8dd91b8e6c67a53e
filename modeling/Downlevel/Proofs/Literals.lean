import Downlevel.Lowering.Literal
import Downlevel.Lowering.Walk
import Downlevel.Proofs.StateSteps

/-! An object literal with spreads becomes a nest of calls that adds all of its members again. -/

namespace Downlevel

/-- What one member adds to an object; of a spread only the value counts. -/
inductive Addition
  | own (member : ObjectMember)
  | allOf (value : Expr)

/-- What a member adds to an object. -/
def ObjectMember.addition : ObjectMember → Addition
  | .spread _ value => .allOf value
  | member => .own member

/-- What a nest of calls adds to the new object that it starts from. Only a nest that ends in an
object literal adds something, and of the calls around it only those with something to add do. -/
def Expr.additions? : Expr → Option (List Addition)
  | ⟨_, .object members⟩ => some (members.map .own)
  | ⟨_, .call .plain false ⟨_, .id name⟩ [⟨false, sofar⟩, ⟨false, added⟩]⟩ => do
    let before ← sofar.additions?
    if name = "__spreadValues" then return before ++ [.allOf added]
    match name, added with
    | "__spreadProps", ⟨_, .object (member :: more)⟩ =>
      return before ++ (member :: more).map .own
    | _, _ => none
  | _ => none
termination_by structural e => e

/-- What was added so far; without a nest that is nothing. -/
def additionsSoFar? : Option Expr → Option (List Addition)
  | some nest => nest.additions?
  | none => some []

/-- What was added so far is what the nest adds. -/
@[simp] theorem additionsSoFar?_some (nest : Expr) :
    additionsSoFar? (some nest) = nest.additions? :=
  rfl

namespace Lowering

variable {span : Span} {before : List Addition}

/-- A member that is no spread is added as it is. -/
theorem addition_of_own {member : ObjectMember} (isOwn : isSpread member = false) :
    member.addition = .own member := by
  cases member with
  | spread => cases isOwn
  | valued | shorthand => rfl

/-- A spread adds its value. -/
theorem additions?_spreadValues {nest : Expr} (added : nest.additions? = some before)
    (span : Span) (value : Expr) :
    (Expr.helper span "__spreadValues" [nest, value]).additions?
      = some (before ++ [.allOf value]) := by
  simp [Expr.helper, Expr.call, Expr.of, Expr.id, Expr.additions?, added]

/-- Collected members are those of the new object, or are added to what was made so far. -/
theorem additions?_addMembers {sofar : Option Expr} (added : additionsSoFar? sofar = some before)
    {collected : List ObjectMember} (isSome : sofar.isSome → collected ≠ []) :
    (addMembers span sofar collected).additions? = some (before ++ collected.map .own) := by
  cases sofar with
  | none =>
    obtain rfl : [] = before := Option.some.inj added
    simp [addMembers, Expr.of, Expr.additions?]
  | some nest =>
    have added : nest.additions? = some before := added
    obtain ⟨member, more, rfl⟩ := List.exists_cons_of_ne_nil (isSome rfl)
    simp [addMembers, Expr.helper, Expr.call, Expr.of, Expr.id, Expr.additions?, added]

/-- What comes next is added behind the collected members, and these behind what was made so far. -/
theorem additions?_spreadMembers {sofar : Option Expr}
    (added : additionsSoFar? sofar = some before) (collected members : List ObjectMember) :
    (spreadMembers span sofar collected members).additions?
      = some (before ++ collected.map .own ++ members.map ObjectMember.addition) := by
  -- By induction on the members to come: a spread makes a nest of all that is collected, every
  -- other member is collected as well.
  induction members generalizing sofar before collected with
  | nil =>
    rw [List.map_nil, List.append_nil]
    cases sofar with
    | none => exact additions?_addMembers added nofun
    | some nest =>
      cases collected with
      | nil => simpa [spreadMembers] using added
      | cons member more => exact additions?_addMembers added fun _ => List.cons_ne_nil member more
  | cons member rest ih =>
    have collects (isOwn : isSpread member = false) :
        (spreadMembers span sofar (collected ++ [member]) rest).additions?
          = some (before ++ collected.map .own ++ (member :: rest).map ObjectMember.addition) := by
      rw [ih added, List.map_cons, addition_of_own isOwn]
      simp
    -- Two spreads in a row have no call for members between them.
    have spreads (base value : Expr)
        (isBase : base.additions? = some (before ++ collected.map .own)) :
        (spreadMembers span (some (.helper span "__spreadValues" [base, value])) [] rest).additions?
          = some (before ++ collected.map .own
              ++ .allOf value :: rest.map ObjectMember.addition) := by
      have added : additionsSoFar? (some (.helper span "__spreadValues" [base, value]))
          = some (before ++ collected.map .own ++ [.allOf value]) :=
        additions?_spreadValues isBase span value
      rw [ih added]
      simp
    cases member with
    | valued => exact collects rfl
    | shorthand => exact collects rfl
    | spread at_ value =>
      unfold spreadMembers
      refine spreads _ value ?_
      cases sofar with
      | none => exact additions?_addMembers added nofun
      | some nest =>
        cases collected with
        | nil => simpa using added
        | cons member more =>
          exact additions?_addMembers added fun _ => List.cons_ne_nil member more

/-- At the start nothing is made and nothing collected. -/
theorem additions?_nest (members : List ObjectMember) :
    (spreadMembers span none [] members).additions? = some (members.map ObjectMember.addition) := by
  have nothing : additionsSoFar? none = some [] := rfl
  exact additions?_spreadMembers nothing [] members

/-- With a spread that the target lacks, nothing but the members decides what becomes of a
literal. -/
theorem objectLiteral_run {origin : Origin} {members : List ObjectMember} {setting : Setting}
    {progress : Progress} (hasSpread : members.any isSpread = true)
    (lacking : setting.options.target.supports .objectRestSpread = false) :
    objectLiteral origin members setting progress
      = .ok (spreadMembers origin.span none [] members, progress) := by
  have lacks : (!setting.options.target.supports .objectRestSpread) = true := by rw [lacking]; rfl
  have asked : objectLiteral origin members setting progress
      = (if members.any isSpread ∧ !setting.options.target.supports .objectRestSpread then
          pure (spreadMembers origin.span none [] members)
        else pure ⟨origin, .object members⟩ : Lower Expr) setting progress := rfl
  rw [asked, if_pos ⟨hasSpread, lacks⟩]
  rfl

/-- A member is lowered to one member, and to a spread if it is one. -/
theorem ensures_objectMemberStep (member : ObjectMember) :
    Ensures (objectMemberStep member) fun lowered => isSpread lowered = isSpread member := by
  cases member with
  | valued span key value =>
    rw [objectMemberStep]
    exact .next fun _ => .next fun _ => .done rfl
  | spread span value =>
    rw [objectMemberStep]
    exact .next fun _ => .done rfl
  | shorthand span name =>
    -- Another name for the arguments makes it a member with a key.
    rw [objectMemberStep, shorthandMember]
    split
    · refine .next fun other => ?_
      split
      · exact .done rfl
      · exact .done rfl
    · exact .done rfl

/-- Lowering members keeps which of them are spread. -/
theorem ensures_objectMembersStep (members : List ObjectMember) :
    Ensures (objectMembersStep members)
      (List.Forall₂ (fun source lowered => isSpread lowered = isSpread source) members) := by
  induction members with
  | nil => exact .done .nil
  | cons member rest ih =>
    rw [objectMembersStep]
    exact (ensures_objectMemberStep member).bind fun _ same => ih.bind fun _ others =>
      .done (.cons same others)

/-- A literal with a spread still has one once its members are lowered. -/
theorem any_isSpread_of_forall₂ {members lowered : List ObjectMember}
    (same : List.Forall₂ (fun source lowered => isSpread lowered = isSpread source) members
      lowered) :
    lowered.any isSpread = members.any isSpread := by
  induction same with
  | nil => rfl
  | cons first _ ih => rw [List.any_cons, List.any_cons, first, ih]

end Lowering

open Lowering

/-- An object literal with a spread, for a target without them, becomes a nest of calls that adds
each of its members once and in order, to an object literal and only where there is something to
add. -/
theorem spreads_added {origin : Origin} {members : List ObjectMember} {setting : Setting}
    {progress : Progress} (hasSpread : members.any isSpread = true)
    (lacking : setting.options.target.supports .objectRestSpread = false) :
    ∃ nest, objectLiteral origin members setting progress = .ok (nest, progress)
      ∧ nest.additions? = some (members.map ObjectMember.addition) := by
  exact ⟨_, objectLiteral_run hasSpread lacking, additions?_nest members⟩

/-- A spread in front, two in a row, and members before, between and behind them. -/
theorem spreads_added_mixed :
    let name (text : String) : Expr := .id ⟨0, 0⟩ text
    let members : List ObjectMember := [.spread ⟨0, 0⟩ (name "a"), .shorthand ⟨0, 0⟩ "b",
      .spread ⟨0, 0⟩ (name "c"), .spread ⟨0, 0⟩ (name "d"), .shorthand ⟨0, 0⟩ "e"]
    let setting : Setting := { options := { target := { edition := .es2017 } }, scopes := {} }
    members.any isSpread = true
      ∧ setting.options.target.supports .objectRestSpread = false
      ∧ ∃ nest, objectLiteral ⟨⟨0, 0⟩, false⟩ members setting {} = .ok (nest, {})
        ∧ nest.additions? = some [.allOf (name "a"), .own (.shorthand ⟨0, 0⟩ "b"),
          .allOf (name "c"), .allOf (name "d"), .own (.shorthand ⟨0, 0⟩ "e")] := by
  intro name members setting
  have hasSpread : members.any isSpread = true := rfl
  have lacking : setting.options.target.supports .objectRestSpread = false := by decide
  exact ⟨hasSpread, lacking, spreads_added hasSpread lacking⟩

/-- Wherever a literal with a spread is lowered, there is one addition for each of its members. -/
theorem additions_of_lowered {origin : Origin} {members : List ObjectMember} {setting : Setting}
    {before after : Progress} {nest : Expr} (hasSpread : members.any isSpread = true)
    (lacking : setting.options.target.supports .objectRestSpread = false)
    (run : (exprForms ⟨origin, .object members⟩).value setting before = .ok (nest, after)) :
    ∃ lowered : List ObjectMember,
      List.Forall₂ (fun source lowered => isSpread lowered = isSpread source) members lowered
        ∧ nest.additions? = some (lowered.map ObjectMember.addition) := by
  have both : (exprForms ⟨origin, .object members⟩).value setting before
      = (objectMembersStep members setting before >>= fun pair =>
        objectLiteral origin pair.1 setting pair.2) := rfl
  rw [both] at run
  cases ran : objectMembersStep members setting before with
  | error fault =>
    rw [ran] at run
    cases run
  | ok pair =>
    obtain ⟨lowered, progress⟩ := pair
    have same := ensures_objectMembersStep members setting before lowered progress ran
    have stillHas : lowered.any isSpread = true := any_isSpread_of_forall₂ same ▸ hasSpread
    rw [ran] at run
    have run : objectLiteral origin lowered setting progress = .ok (nest, after) := run
    rw [objectLiteral_run stillHas lacking] at run
    cases run
    exact ⟨lowered, same, additions?_nest lowered⟩

/-- A name in front of a spread. -/
theorem additions_of_lowered_example :
    let members : List ObjectMember :=
      [.shorthand ⟨1, 2⟩ "a", .spread ⟨4, 8⟩ (.id ⟨7, 8⟩ "b")]
    let setting : Setting := { options := { target := { edition := .es2017 } }, scopes := {} }
    ∃ nest after, (exprForms (.of ⟨0, 9⟩ (.object members))).value setting {} = .ok (nest, after)
      ∧ ∃ lowered : List ObjectMember,
        List.Forall₂ (fun source lowered => isSpread lowered = isSpread source) members lowered
          ∧ nest.additions? = some (lowered.map ObjectMember.addition) := by
  intro members setting
  have hasSpread : members.any isSpread = true := rfl
  have lacking : setting.options.target.supports .objectRestSpread = false := by decide
  have run : (exprForms (.of ⟨0, 9⟩ (.object members))).value setting {} = .ok (_, _) := rfl
  exact ⟨_, _, run, additions_of_lowered hasSpread lacking run⟩

end Downlevel
