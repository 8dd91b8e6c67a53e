import Downlevel.Lowering.Class.Keys
import Downlevel.Proofs.Meaning.Steps
import Mathlib.Data.List.Nodup

/-! Keys are taken out into new names, one for each field that moves and one for the last key that
stays if others come behind it. -/

namespace Downlevel

open Lowering

namespace Lowering

/-- The computed key of a field that moves, unless it is a literal. -/
def Slot.movedKey? : Slot → Option Expr
  | .defined _ _ (.computed key) _ | .assigned _ _ (.computed key) _ =>
    if isLiteralKey key then none else some key
  | _ => none

/-- The computed key of a field that is dropped, unless nobody can tell whether it is evaluated. -/
def Slot.droppedKey? : Slot → Option Expr
  | .dropped (.computed key) => if Purity.isRemovable key then none else some key
  | _ => none

/-- The key that has to be evaluated for a member. -/
def Slot.ownKey? (slot : Slot) : Option Expr :=
  slot.keptKey? <|> slot.movedKey? <|> slot.droppedKey?

/-- A field that moves, with another key. -/
def Slot.withFieldKey (key : Key) : Slot → Slot
  | .defined span isStatic _ init => .defined span isStatic key init
  | .assigned span isStatic _ init => .assigned span isStatic key init
  | slot => slot

/-- A member whose key is taken out into the name. The last one that stays has its key kept in the
name instead. -/
def KeyedSlot.of (slot : Slot) (name : Option String) : KeyedSlot :=
  match slot.keptKey?, slot.movedKey?, name with
  | some _, _, _ => { slot, keptAs := name }
  | none, some key, some temp => {
      slot := slot.withFieldKey (.computed (.id key.span temp))
      capture := some (.assign key.span (.id key.span temp) key) }
  | none, _, _ => { slot, capture := slot.droppedKey? }

/-- Whether a member in front of others needs a name: a field that moves, and the last member that
stays if any other key is evaluated behind it. -/
def Slot.needsName (slot : Slot) (rest : List Slot) : Bool :=
  if slot.keptKey?.isSome then
    !rest.any (·.keptKey?.isSome) && rest.any (·.ownKey?.isSome)
  else slot.movedKey?.isSome

section

variable {slot : Slot} {name : Option String}

/-- A member that stays is none that moves. -/
theorem Slot.ownKey?_of_keptKey? {key : Expr} (isKept : slot.keptKey? = some key) :
    slot.ownKey? = some key := by
  simp [ownKey?, isKept]

/-- Another key of a field does not make it stay. -/
@[simp] theorem Slot.keptKey?_withFieldKey (key : Key) :
    (slot.withFieldKey key).keptKey? = slot.keptKey? := by
  cases slot <;> rfl

/-- Another key of a member that stays takes the place of its own one. -/
theorem Slot.keptKey?_withKey {own key : Expr} (isKept : slot.keptKey? = some own) :
    (slot.withKey key).keptKey? = some key := by
  cases slot <;> first | rfl | cases isKept

/-- Taking a key out does not change which members stay. -/
@[simp] theorem KeyedSlot.keptKey?_of : (KeyedSlot.of slot name).slot.keptKey? = slot.keptKey? := by
  unfold of
  split <;> simp

/-- A key that stays in the class is kept there under its name. -/
theorem KeyedSlot.of_kept {key : Expr} (isKept : slot.keptKey? = some key) :
    KeyedSlot.of slot name = { slot, keptAs := name } := by
  simp [of, isKept]

end

end Lowering

namespace Meaning

/-- Members in the order of the source, each with the name that the value of its key is kept in. -/
abbrev NamedSlots :=
  List (Slot × Option String)

/-- The names that values are kept in. -/
def NamedSlots.names (members : NamedSlots) : List String :=
  members.filterMap (·.2)

/-- The members that need a name have one, and no others. -/
def NamedSlots.Fit : NamedSlots → Prop
  | [] => True
  | (slot, name) :: rest => name.isSome = slot.needsName (rest.map (·.1)) ∧ Fit rest

/-- The members with their keys taken out. -/
def NamedSlots.keyed (members : NamedSlots) : List KeyedSlot :=
  members.map fun (slot, name) => .of slot name

/-- What is evaluated in place of keys that are taken out. -/
def NamedSlots.captures (members : NamedSlots) : List Expr :=
  members.keyed.filterMap (·.capture)

/-- No member with a computed key stays. -/
def NamedSlots.NoneStays (members : NamedSlots) : Prop :=
  ∀ member ∈ members, member.1.keptKey? = none

section

variable {slot : Slot} {name : Option String} {rest : NamedSlots}

/-- The key of the first slot is captured in front of the others. -/
theorem NamedSlots.captures_cons :
    captures ((slot, name) :: rest) = (KeyedSlot.of slot name).capture.toList ++ captures rest := by
  simp only [captures, keyed, List.map_cons, List.filterMap_cons]
  cases (KeyedSlot.of slot name).capture <;> rfl

/-- Without a key to evaluate there is nothing to take out. -/
theorem KeyedSlot.capture_of (noKey : slot.ownKey? = none) :
    (KeyedSlot.of slot name).capture = none := by
  -- A member that stays has nothing taken out either, but it would have a key of its own.
  obtain ⟨-, noMoved, noDropped⟩ : slot.keptKey? = none ∧ slot.movedKey? = none
      ∧ slot.droppedKey? = none := by simpa [Slot.ownKey?, Option.or_eq_none_iff] using noKey
  unfold KeyedSlot.of
  split <;> simp_all

/-- A member with no computed key that stays has a name if it is a field that moves. -/
theorem NamedSlots.Fit.name_of_moves (fit : Fit ((slot, name) :: rest))
    (moves : slot.keptKey? = none) : name.isSome = slot.movedKey?.isSome := by
  simpa [Slot.needsName, moves] using fit.1

/-- No key stays in the class if no slot has one. -/
theorem NamedSlots.noneStays_iff :
    rest.NoneStays ↔ (rest.map (·.1)).any (·.keptKey?.isSome) = false := by
  simp [NoneStays]

/-- A member that stays and has a name is the last one that stays. -/
theorem NamedSlots.Fit.noneStays {temp : String} (fit : Fit ((slot, some temp) :: rest))
    (isKept : slot.keptKey?.isSome = true) : NoneStays rest := by
  -- Of the members that stay only the last one is ever given a name.
  have needed : slot.needsName (rest.map (·.1)) = true := fit.1.symm
  rw [Slot.needsName, if_pos isKept, Bool.and_eq_true, Bool.not_eq_true'] at needed
  exact noneStays_iff.mpr needed.1

/-- A last member that stays without a name has no key to evaluate behind it. -/
theorem NamedSlots.Fit.captures_eq_nil (fit : Fit ((slot, none) :: rest))
    (isKept : slot.keptKey?.isSome = true) (noneStays : rest.NoneStays) : captures rest = [] := by
  -- It would have a name if there were such a key.
  have needless : slot.needsName (rest.map (·.1)) = false := fit.1.symm
  rw [Slot.needsName, if_pos isKept, noneStays_iff.mp noneStays] at needless
  have noKey : ∀ member ∈ rest, member.1.ownKey? = none := by simpa using needless
  simp only [captures, keyed, List.filterMap_map, List.filterMap_eq_nil_iff]
  exact fun member mem => KeyedSlot.capture_of (noKey member mem)

end

/-- New names are handed out between two moments, each of them once. -/
structure HandsOut (scopes : ScopeTree) (before : Progress) (names : List String)
    (after : Progress) : Prop where
  knows : ∀ name, Knows scopes before name → Knows scopes after name
  distinct : names.Nodup
  unknown : ∀ name ∈ names, ¬Knows scopes before name
  known : ∀ name ∈ names, Knows scopes after name

namespace HandsOut

variable {scopes : ScopeTree} {before middle after : Progress} {names more : List String}

/-- Nothing is handed out where nothing happens. -/
theorem nothing : HandsOut scopes before [] before where
  knows _ := id
  distinct := List.nodup_nil
  unknown := List.forall_mem_nil _
  known := List.forall_mem_nil _

/-- Names that are handed out later differ from those that are handed out already. -/
theorem next (first : HandsOut scopes before names middle)
    (second : HandsOut scopes middle more after) :
    HandsOut scopes before (more ++ names) after where
  knows name isKnown := second.knows name (first.knows name isKnown)
  -- The second run's names are unknown after the first, which knows its own.
  distinct := second.distinct.append first.distinct fun name isMore isName =>
    second.unknown name isMore (first.known name isName)
  unknown name mem := by
    rcases List.mem_append.mp mem with isMore | isName
    · exact fun isKnown => second.unknown name isMore (first.knows name isKnown)
    · exact first.unknown name isName
  known name mem := by
    rcases List.mem_append.mp mem with isMore | isName
    · exact second.known name isMore
    · exact second.knows name (first.known name isName)

end HandsOut

/-- The innermost frame hands out a new name. -/
theorem alloc_eq (setting : Setting) (before : Progress) :
    ∃ name after, alloc setting before = .ok (name, after)
      ∧ HandsOut setting.scopes before [name] after := by
  obtain ⟨name, temps, given, unknown, -, knows⟩ :=
    @allocIn_eq setting before _ none none true (Nat.le_refl _) (by simp)
  refine ⟨name, _, given, fun other known => (knows other).2 (.inr known), List.nodup_singleton name,
    ?_, ?_⟩
  · simpa using unknown
  · simpa using (knows name).2 (.inl rfl)

/-- What is built from a new name. -/
theorem alloc_map {α : Type} (build : String → α) (setting : Setting) (before : Progress) :
    ∃ name after, (build <$> alloc) setting before = .ok (build name, after)
      ∧ HandsOut setting.scopes before [name] after := by
  obtain ⟨name, after, given, hands⟩ := alloc_eq setting before
  refine ⟨name, after, ?_, hands⟩
  have both : (build <$> alloc) setting before
      = (alloc setting before >>= fun pair => .ok (build pair.1, pair.2)) := rfl
  rw [both, given]
  rfl

/-- The key of a field that moves is taken out into a new name. -/
theorem captureKey_moved {slot : Slot} {key : Expr} (isMoved : slot.movedKey? = some key) :
    captureKey slot = (fun name => .of slot (some name)) <$> alloc := by
  -- Only the two kinds of fields that move have such a key, and both are treated alike.
  cases slot with
  | defined span isStatic own init | assigned span isStatic own init =>
    cases own with
    | computed own =>
      have noLiteral : isLiteralKey own = false := by
        by_contra isLiteral
        simp [Slot.movedKey?, isLiteral] at isMoved
      obtain rfl : own = key := by simpa [Slot.movedKey?, noLiteral] using isMoved
      simp [captureKey, noLiteral, KeyedSlot.of, Slot.keptKey?, Slot.movedKey?, Slot.withFieldKey]
    | _ => cases isMoved
  | _ => cases isMoved

/-- No other key gets a name of its own. -/
theorem captureKey_of_none {slot : Slot} (isMoved : slot.movedKey? = none) :
    captureKey slot = pure (.of slot none) := by
  -- A field that moves is left with a literal key, or with one that is not computed.
  cases slot with
  | defined span isStatic own init | assigned span isStatic own init =>
    cases own with
    | computed own =>
      have isLiteral : isLiteralKey own = true := by
        by_contra noLiteral
        simp [Slot.movedKey?, noLiteral] at isMoved
      simp [captureKey, isLiteral, KeyedSlot.of, Slot.keptKey?, Slot.movedKey?, Slot.droppedKey?]
    | _ => rfl
  | kept member =>
    obtain ⟨span, key, isStatic, value⟩ := member
    cases key <;> rfl
  | dropped key => cases key <;> rfl
  | _ => rfl

namespace NamedSlots

/-- The name of the first slot comes in front of the others. -/
theorem names_cons {slot : Slot} {name : Option String} {rest : NamedSlots} :
    names ((slot, name) :: rest) = name.toList ++ names rest := by
  cases name <;> rfl

/-- Where no member with a computed key stays, keys are taken out wherever there are any. -/
theorem any_capture {members : NamedSlots} (noneStays : members.NoneStays) (fit : members.Fit) :
    members.keyed.any (·.capture.isSome) = (members.map (·.1)).any (·.ownKey?.isSome) := by
  -- Member by member: without a key that stays, what is taken out is the key itself.
  induction members with
  | nil => rfl
  | cons member rest ih =>
    obtain ⟨slot, name⟩ := member
    obtain ⟨moves, others⟩ := List.forall_mem_cons.mp noneStays
    have moves : slot.keptKey? = none := moves
    have same : (KeyedSlot.of slot name).capture.isSome = slot.ownKey?.isSome := by
      have fits := fit.name_of_moves moves
      cases isMoved : slot.movedKey? with
      | none => simp [KeyedSlot.of, Slot.ownKey?, moves, isMoved]
      | some key =>
        rw [isMoved] at fits
        obtain ⟨temp, rfl⟩ := Option.isSome_iff_exists.mp fits
        simp [KeyedSlot.of, Slot.ownKey?, moves, isMoved]
    simpa [keyed, same] using congrArg (slot.ownKey?.isSome || ·) (ih others fit.2)

/-- A member that stays is asked to keep its key in a name if it needs one. -/
theorem Fit.asks {rest : NamedSlots} (fit : rest.Fit) (slot : Slot) :
    (slot.keptKey?.isSome && !rest.keyed.any (·.slot.keptKey?.isSome)
        && rest.keyed.any (·.capture.isSome))
      = (slot.keptKey?.isSome && slot.needsName (rest.map (·.1))) := by
  -- The lowering looks at what it took out, the statement at the members as they were.
  have same : rest.keyed.any (·.slot.keptKey?.isSome) = (rest.map (·.1)).any (·.keptKey?.isSome) := by
    simp [keyed, Function.comp_def]
  cases isKept : slot.keptKey?.isSome with
  | false => rfl
  | true =>
    rw [same, Slot.needsName, isKept, if_pos rfl, Bool.true_and]
    cases others : (rest.map (·.1)).any (·.keptKey?.isSome) with
    | true => rfl
    | false => rw [any_capture (noneStays_iff.mpr others) fit]; rfl

end NamedSlots

/-- What becomes of a member once all others behind it have their names. -/
def keyFirst (slot : Slot) (isKeptAs : Bool) : Lower KeyedSlot :=
  if isKeptAs then (fun name => { slot, keptAs := some name }) <$> alloc else captureKey slot

/-- The keys behind the first slot are looked at before its own. -/
theorem captureKeys_cons (slot : Slot) (rest : List Slot) :
    captureKeys (slot :: rest) = (do
      let rest ← captureKeys rest
      let first ← keyFirst slot (slot.keptKey?.isSome && !rest.any (·.slot.keptKey?.isSome)
        && rest.any (·.capture.isSome))
      return first :: rest) := by
  -- Both ways to go on put what they give in front of the same members.
  rw [captureKeys]
  refine bind_congr fun rest => ?_
  dsimp only
  generalize (slot.keptKey?.isSome && !rest.any (·.slot.keptKey?.isSome)
    && rest.any (·.capture.isSome)) = isKeptAs
  cases isKeptAs <;> simp [keyFirst]

/-- A member gets a name if it needs one. -/
theorem keyFirst_eq (slot : Slot) (others : List Slot) (setting : Setting) (before : Progress) :
    ∃ name after,
      keyFirst slot (slot.keptKey?.isSome && slot.needsName others) setting before
          = .ok (.of slot name, after)
        ∧ name.isSome = slot.needsName others
        ∧ HandsOut setting.scopes before name.toList after := by
  -- A member that stays is asked for a name here, a field that moves asks for one itself.
  cases isKept : slot.keptKey? with
  | none =>
    have needs : slot.needsName others = slot.movedKey?.isSome := by simp [Slot.needsName, isKept]
    rw [needs, Option.isSome_none, Bool.false_and, keyFirst, if_neg (by simp)]
    cases isMoved : slot.movedKey? with
    | none =>
      rw [captureKey_of_none isMoved]
      exact ⟨none, before, rfl, rfl, .nothing⟩
    | some key =>
      rw [captureKey_moved isMoved]
      obtain ⟨name, after, given, hands⟩ :=
        alloc_map (fun name => KeyedSlot.of slot (some name)) setting before
      exact ⟨some name, after, given, rfl, hands⟩
  | some key =>
    rw [Option.isSome_some, Bool.true_and]
    cases slot.needsName others with
    | true =>
      obtain ⟨name, after, given, hands⟩ :=
        alloc_map (fun name => KeyedSlot.mk slot none (some name)) setting before
      refine ⟨some name, after, ?_, rfl, hands⟩
      rw [KeyedSlot.of_kept isKept]
      exact given
    | false =>
      have staysHere : slot.movedKey? = none := by
        cases slot <;> first | rfl | cases isKept
      rw [keyFirst, if_neg (by simp), captureKey_of_none staysHere]
      exact ⟨none, before, rfl, rfl, .nothing⟩

/-- Taking out the keys hands out new names where they are needed. -/
theorem captureKeys_eq (slots : List Slot) (setting : Setting) (before : Progress) :
    ∃ (members : NamedSlots) (after : Progress),
      captureKeys slots setting before = .ok (members.keyed, after)
        ∧ members.map (·.1) = slots ∧ members.Fit
        ∧ HandsOut setting.scopes before members.names after := by
  -- The names are handed out from the last member to the first, as the list is taken apart.
  induction slots with
  | nil => exact ⟨[], before, rfl, rfl, trivial, .nothing⟩
  | cons slot slots ih =>
    obtain ⟨rest, middle, ran, same, fit, hands⟩ := ih
    subst same
    obtain ⟨name, after, given, fits, handsMore⟩ :=
      keyFirst_eq slot (rest.map (·.1)) setting middle
    refine ⟨(slot, name) :: rest, after, ?_, rfl, ⟨fits, fit⟩, ?_⟩
    · have both : captureKeys (slot :: rest.map (·.1)) setting before
          = (captureKeys (rest.map (·.1)) setting before >>= fun pair =>
            keyFirst slot (slot.keptKey?.isSome && !pair.1.any (·.slot.keptKey?.isSome)
                && pair.1.any (·.capture.isSome)) setting pair.2 >>= fun first =>
              .ok (first.1 :: pair.1, first.2)) := by
        rw [captureKeys_cons]
        rfl
      rw [both, ran]
      change (keyFirst slot _ setting middle >>= _) = _
      rw [fit.asks slot, given]
      rfl
    · rw [NamedSlots.names_cons]
      exact hands.next handsMore

end Meaning

end Downlevel
