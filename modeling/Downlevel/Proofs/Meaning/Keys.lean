import Downlevel.Proofs.Meaning.KeyCaptures

/-! Computed keys of a class are evaluated once and in order, wherever the members go that they
belong to. -/

namespace Downlevel

open Lowering

namespace Meaning

/-- Values, variables, and what evaluating an expression does. It may throw. -/
structure KeyWorld where
  Value : Type
  State : Type
  read : (name : String) → State → Except Value Value
  write : (name : String) → Value → State → Except Value Unit × State
  /-- What is no name, no assignment to a name and no comma may do as it likes. -/
  evaluate : Expr → State → Except Value Value × State
  read_write : ∀ name value state after,
    write name value state = (.ok (), after) → read name after = .ok value
  read_write_of_ne : ∀ name other value state,
    other ≠ name → read other (write name value state).2 = read other state

namespace KeyWorld

variable (W : KeyWorld)

/-- An evaluation. What it did to the state stays when it throws. -/
abbrev Run (α : Type) : Type :=
  ExceptT W.Value (StateM W.State) α

/-- Reads a variable. -/
def look (name : String) : W.Run W.Value :=
  fun state => (W.read name state, state)

/-- Writes a variable. -/
def assign (name : String) (value : W.Value) : W.Run Unit :=
  W.write name value

mutual

/-- Evaluates an expression. -/
def eval : Expr → W.Run W.Value
  | ⟨origin, shape⟩ => evalShape origin shape

/-- Evaluates the expression of the origin and the shape. -/
def evalShape (origin : Origin) : Shape → W.Run W.Value
  | .id name => W.look name
  | .binary op left right =>
    match op, left.shape with
    | .comma, _ => do
      let _ ← eval left
      eval right
    | .assignment, .id name => do
      let value ← eval right
      W.assign name value
      return value
    | _, _ => W.evaluate ⟨origin, .binary op left right⟩
  | shape => W.evaluate ⟨origin, shape⟩

end

/-- Evaluates expressions one after the other for what they do. -/
def evalAll : List Expr → W.Run Unit
  | [] => return ()
  | e :: rest => do
    let _ ← W.eval e
    evalAll rest

/-- Evaluates the keys of a class whose members are rearranged: first what is put in front of the
class, then the computed keys of the members that stay. Gives the values of the latter. -/
def runChained (front : List Expr) (members : List Slot) : W.Run (List W.Value) := do
  W.evalAll front
  (members.filterMap Slot.keptKey?).mapM W.eval

/-- Keeps a value in a name, if there is one. -/
def keep (name : Option String) (value : W.Value) : W.Run Unit :=
  match name with
  | some name => W.assign name value
  | none => return ()

/-- Evaluates the keys of all members in the order of the source, each of them once. Gives the values
of the computed keys of those that stay. -/
def runInOrder : NamedSlots → W.Run (List W.Value)
  | [] => return []
  | (slot, name) :: rest =>
    match slot.ownKey? with
    | none => runInOrder rest
    | some key => do
      let value ← W.eval key
      W.keep name value
      let others ← runInOrder rest
      return if slot.keptKey?.isSome then value :: others else others

/-- The evaluation does not change what a variable holds. -/
def Leaves {α : Type} (name : String) (run : W.Run α) : Prop :=
  ∀ state, W.read name (run state).2 = W.read name state

variable {W} {name : String} {value : W.Value}

/-- What one evaluation after another does. -/
theorem run_bind {α β : Type} (run : W.Run α) (rest : α → W.Run β) (state : W.State) :
    (run >>= rest) state = match run state with
      | (.ok result, after) => rest result after
      | (.error error, after) => (.error error, after) := by
  -- Both transformers are opened; what remains depends on how the first evaluation ends.
  rcases ran : run state with ⟨_ | _, after⟩
  all_goals simp only [Bind.bind, ExceptT.bind, ExceptT.mk, ExceptT.bindCont, StateT.bind, ran]
  rfl

/-- Going on after an evaluation leaves a variable alone if both parts do. -/
theorem Leaves.bind {α β : Type} {run : W.Run α} {rest : α → W.Run β} (first : W.Leaves name run)
    (second : ∀ result, W.Leaves name (rest result)) : W.Leaves name (run >>= rest) := by
  -- If the first part throws, the second one never runs.
  intro state
  have kept := first state
  rw [run_bind]
  rcases ran : run state with ⟨error | result, after⟩
  · rwa [ran] at kept
  · rw [ran] at kept
    exact (second result after).trans kept

/-- A result that is given leaves every name its value. -/
theorem leaves_pure {α : Type} (result : α) : W.Leaves name (pure result : W.Run α) :=
  fun _ => rfl

/-- An assignment leaves all other names their values. -/
theorem leaves_assign {other : String} (differs : name ≠ other) :
    W.Leaves name (W.assign other value) :=
  fun state => W.read_write_of_ne other name value state differs

/-- What was written is read again as long as nothing in between changes it. -/
theorem assign_look {v : W.Value} {run : W.Run Unit} (leaves : W.Leaves name run) :
    (do W.assign name v; run; W.look name) = (do W.assign name v; run; return v) := by
  -- Either side may throw in the write or in between, and then it does so on both.
  funext state
  rw [run_bind, run_bind]
  dsimp only [assign]
  rcases written : W.write name v state with ⟨error | _, middle⟩
  · rfl
  · dsimp only
    have kept := leaves middle
    rw [W.read_write _ _ _ _ written] at kept
    rw [run_bind, run_bind]
    rcases ran : run middle with ⟨error | result, after⟩
    · rfl
    · rw [ran] at kept
      exact congrArg (fun found => (found, after)) kept

/-- A name has the value that it is bound to. -/
@[simp] theorem eval_id (span : Span) : W.eval (.id span name) = W.look name :=
  rfl

/-- An assignment gives the value that it assigns. -/
@[simp] theorem eval_assign (span own : Span) (e : Expr) :
    W.eval (.assign span (.id own name) e) = (do
      let value ← W.eval e
      W.assign name value
      return value) :=
  rfl

/-- A comma evaluates both operands, and gives the second. -/
@[simp] theorem eval_andThen (first second : Expr) :
    W.eval (first.andThen second) = (do
      let _ ← W.eval first
      W.eval second) :=
  rfl

/-- Evaluating nothing does nothing. -/
@[simp] theorem evalAll_nil : W.evalAll [] = pure () :=
  rfl

/-- Expressions are evaluated one after another. -/
@[simp] theorem evalAll_cons (e : Expr) (rest : List Expr) :
    W.evalAll (e :: rest) = (do
      let _ ← W.eval e
      W.evalAll rest) :=
  rfl

/-- Two lists of expressions are evaluated one behind the other. -/
@[simp] theorem evalAll_append (exprs more : List Expr) :
    W.evalAll (exprs ++ more) = (do W.evalAll exprs; W.evalAll more) := by
  -- By induction on what comes first.
  induction exprs with
  | nil => simp
  | cons e exprs ih => simp [ih]

/-- A sequence evaluates all that it is made of, whatever comes after it. -/
theorem eval_foldl_andThen {α : Type} (first : Expr) (rest : List Expr) (run : W.Run α) :
    (do let _ ← W.eval (rest.foldl Expr.andThen first); run)
      = (do W.evalAll (first :: rest); run) := by
  -- The sequence leans to the left, so the first expression takes the next one along.
  induction rest generalizing first with
  | nil => simp
  | cons next rest ih => simp [ih]

/-- Expressions in front of another one are evaluated before it. -/
theorem eval_inSequence (exprs : List Expr) (last : Expr) :
    W.eval (inSequence exprs last) = (do W.evalAll exprs; W.eval last) := by
  cases exprs with
  | nil => simp [inSequence]
  | cons first rest =>
    rw [inSequence, Expr.sequence, List.foldl_append, List.foldl_cons, List.foldl_nil, eval_andThen]
    exact eval_foldl_andThen first rest (W.eval last)

end KeyWorld

end Meaning

namespace Lowering

/-- What becomes of a member: one that stays may get another computed key, the key of a field that
moves is read from a name, and all else stays as it is. -/
def Slot.Rekeyed (slot : Slot) (name : Option String) (after : Slot) : Prop :=
  match slot.keptKey?, slot.movedKey? with
  | some _, _ => ∃ key, after = slot.withKey key
  | none, some key => ∃ temp, name = some temp
      ∧ after = slot.withFieldKey (.computed (.id key.span temp))
  | none, none => name = none ∧ after = slot

end Lowering

namespace Meaning

section

variable {slot : Slot} {key : Expr} {name : Option String} {pending : List Expr} {rest : NamedSlots}

/-- The key of a member that moves waits for the next one that stays. -/
theorem chainKeys_moves (moves : slot.keptKey? = none) :
    chainKeys pending (NamedSlots.keyed ((slot, name) :: rest))
      = ((KeyedSlot.of slot name).slot
          :: (chainKeys (pending ++ (KeyedSlot.of slot name).capture.toList) rest.keyed).1,
        (chainKeys (pending ++ (KeyedSlot.of slot name).capture.toList) rest.keyed).2) := by
  have moves' : (KeyedSlot.of slot name).slot.keptKey? = none := by simpa using moves
  simp only [NamedSlots.keyed, List.map_cons, chainKeys, moves']
  cases (KeyedSlot.of slot name).capture <;> simp

/-- A key that stays takes along all that waits for it. -/
theorem chainKeys_stays (isKept : slot.keptKey? = some key) :
    chainKeys pending (NamedSlots.keyed ((slot, none) :: rest))
      = (slot.withKey (inSequence pending key) :: (chainKeys [] rest.keyed).1,
        (chainKeys [] rest.keyed).2) := by
  simp only [NamedSlots.keyed, List.map_cons, KeyedSlot.of_kept isKept, chainKeys, isKept]

/-- A key that stays and is kept in a name also takes along all that comes behind it. -/
theorem chainKeys_keeps {temp : String} (isKept : slot.keptKey? = some key) :
    chainKeys pending (NamedSlots.keyed ((slot, some temp) :: rest))
      = (slot.withKey (inSequence (pending ++ .assign key.span (.id key.span temp) key
            :: (chainKeys [] rest.keyed).2) (.id ⟨0, 0⟩ temp)) :: (chainKeys [] rest.keyed).1, []) := by
  simp only [NamedSlots.keyed, List.map_cons, KeyedSlot.of_kept isKept, chainKeys, isKept]

end

/-- Where no member with a computed key stays, all that was taken out is left over. -/
theorem chainKeys_of_noneStays (pending : List Expr) {members : NamedSlots}
    (noneStays : members.NoneStays) :
    (chainKeys pending members.keyed).1.filterMap Slot.keptKey? = []
      ∧ (chainKeys pending members.keyed).2 = pending ++ members.captures := by
  -- What waits grows by what each member has taken out, and nobody takes it along.
  induction members generalizing pending with
  | nil => simp [NamedSlots.keyed, NamedSlots.captures, chainKeys]
  | cons member rest ih =>
    obtain ⟨slot, name⟩ := member
    obtain ⟨moves, others⟩ := List.forall_mem_cons.mp noneStays
    have moves' : (KeyedSlot.of slot name).slot.keptKey? = none := by simpa using moves
    rw [chainKeys_moves moves, NamedSlots.captures_cons, List.filterMap_cons, moves',
      ← List.append_assoc]
    exact ih _ others

namespace KeyWorld

variable {W : KeyWorld}

/-- What is evaluated in place of a key does what the key does, and keeps its value in the name. -/
theorem evalAll_capture {slot : Slot} {name : Option String} (moves : slot.keptKey? = none)
    (fits : name.isSome = slot.movedKey?.isSome) :
    W.evalAll (KeyedSlot.of slot name).capture.toList = (match slot.ownKey? with
      | some key => do
        let value ← W.eval key
        W.keep name value
      | none => pure ()) := by
  -- The key of a field that moves is assigned to its name; other fields have no name to keep it in.
  cases isMoved : slot.movedKey? with
  | some key =>
    rw [isMoved] at fits
    obtain ⟨temp, rfl⟩ := Option.isSome_iff_exists.mp fits
    simp [KeyedSlot.of, Slot.ownKey?, moves, isMoved, keep]
  | none =>
    rw [isMoved] at fits
    obtain rfl : name = none := by simpa using fits
    cases isDropped : slot.droppedKey? <;>
      simp [KeyedSlot.of, Slot.ownKey?, moves, isMoved, isDropped, keep]

/-- Where no member with a computed key stays, evaluating what was taken out is evaluating all keys in
order. -/
theorem evalAll_captures {members : NamedSlots} (noneStays : members.NoneStays) (fit : members.Fit) :
    (do W.evalAll members.captures; return []) = W.runInOrder members := by
  induction members with
  | nil => rfl
  | cons member rest ih =>
    obtain ⟨slot, name⟩ := member
    obtain ⟨moves, others⟩ := List.forall_mem_cons.mp noneStays
    have moves : slot.keptKey? = none := moves
    rw [NamedSlots.captures_cons, evalAll_append, evalAll_capture moves (fit.name_of_moves moves),
      bind_assoc, ih others fit.2, runInOrder]
    -- A member without a key to evaluate adds nothing on either side.
    cases slot.ownKey? with
    | none => simp
    | some key => simp [moves]

/-- Keeping a value leaves all other names theirs. -/
theorem leaves_keep {name : String} {value : W.Value} {own : Option String} (other : name ∉ own) :
    W.Leaves name (W.keep own value) := by
  cases own with
  | none => exact leaves_pure ()
  | some own => exact leaves_assign fun same => other (by rw [same]; rfl)

/-- What was taken out leaves a name alone that no key changes and no value is kept in. -/
theorem leaves_captures {members : NamedSlots} {name : String} (noneStays : members.NoneStays)
    (fit : members.Fit) (other : ∀ member ∈ members, name ∉ member.2)
    (spared : ∀ member ∈ members, ∀ key ∈ member.1.ownKey?, W.Leaves name (W.eval key)) :
    W.Leaves name (W.evalAll members.captures) := by
  -- Every part of it is a key, which spares the name, or a write to another name.
  induction members with
  | nil => exact leaves_pure ()
  | cons member rest ih =>
    obtain ⟨slot, own⟩ := member
    obtain ⟨moves, noOther⟩ := List.forall_mem_cons.mp noneStays
    obtain ⟨differs, others⟩ := List.forall_mem_cons.mp other
    obtain ⟨first, later⟩ := List.forall_mem_cons.mp spared
    rw [NamedSlots.captures_cons, evalAll_append, evalAll_capture moves (fit.name_of_moves moves)]
    apply Leaves.bind _ fun _ => ih noOther fit.2 others later
    cases isOwn : slot.ownKey? with
    | none => exact leaves_pure ()
    | some key => exact (first key isOwn).bind fun _ => leaves_keep differs

/-- The keys that stay evaluate all keys in order, with what is evaluated in front of them. -/
theorem mapM_chainKeys (pending : List Expr) {members : NamedSlots}
    (stays : ¬members.NoneStays) (fit : members.Fit) (distinct : members.names.Nodup)
    (spared : ∀ name ∈ members.names, ∀ member ∈ members, ∀ key ∈ member.1.ownKey?,
      W.Leaves name (W.eval key)) :
    (chainKeys pending members.keyed).2 = []
      ∧ ((chainKeys pending members.keyed).1.filterMap Slot.keptKey?).mapM W.eval
        = (do W.evalAll pending; W.runInOrder members) := by
  -- The induction follows the chaining: what waits is evaluated with the next key that stays.
  induction members generalizing pending with
  | nil => exact absurd (List.forall_mem_nil _) stays
  | cons member rest ih =>
    obtain ⟨slot, name⟩ := member
    have restDistinct : (NamedSlots.names rest).Nodup :=
      distinct.sublist ((List.sublist_cons_self _ rest).filterMap _)
    have restSpared : ∀ own ∈ NamedSlots.names rest, ∀ member ∈ rest, ∀ key ∈ member.1.ownKey?,
        W.Leaves own (W.eval key) := fun own isName member mem =>
      spared own (((List.sublist_cons_self _ rest).filterMap _).subset isName) member
        (List.mem_cons_of_mem _ mem)
    cases isKept : slot.keptKey? with
    | none =>
      -- What was taken out of this member waits for one of the members behind it.
      have restStays : ¬NamedSlots.NoneStays rest := fun noneStays =>
        stays (List.forall_mem_cons.mpr ⟨isKept, noneStays⟩)
      have moves : (KeyedSlot.of slot name).slot.keptKey? = none := by simpa using isKept
      obtain ⟨noneLeft, evaluates⟩ := ih (pending ++ (KeyedSlot.of slot name).capture.toList)
        restStays fit.2 restDistinct restSpared
      rw [chainKeys_moves isKept]
      refine ⟨noneLeft, ?_⟩
      rw [List.filterMap_cons, moves]
      dsimp only
      rw [evaluates, evalAll_append, evalAll_capture isKept (fit.name_of_moves isKept), runInOrder]
      cases slot.ownKey? <;> simp [isKept]
    | some key =>
      have own := Slot.ownKey?_of_keptKey? isKept
      cases name with
      | none =>
        -- If no other key stays behind this one, there is nothing left to evaluate either.
        have restRuns : (chainKeys [] (NamedSlots.keyed rest)).2 = []
            ∧ ((chainKeys [] (NamedSlots.keyed rest)).1.filterMap Slot.keptKey?).mapM W.eval
              = W.runInOrder rest := by
          by_cases restNone : NamedSlots.NoneStays rest
          · obtain ⟨noKept, left⟩ := chainKeys_of_noneStays [] restNone
            have empty := fit.captures_eq_nil (by simp [isKept]) restNone
            rw [noKept, left, ← evalAll_captures restNone fit.2, empty]
            exact ⟨rfl, rfl⟩
          · simpa using ih [] restNone fit.2 restDistinct restSpared
        rw [chainKeys_stays isKept, List.filterMap_cons, Slot.keptKey?_withKey isKept]
        refine ⟨restRuns.1, ?_⟩
        dsimp only
        rw [List.mapM_cons, restRuns.2, eval_inSequence, runInOrder, own]
        simp [isKept, keep]
      | some temp =>
        -- This is the last key that stays. All that comes behind it is evaluated before its value is
        -- read from the name again, so nothing of that may change the name.
        have restNone := fit.noneStays (by simp [isKept])
        obtain ⟨noKept, left⟩ := chainKeys_of_noneStays [] restNone
        rw [chainKeys_keeps isKept, List.filterMap_cons, Slot.keptKey?_withKey isKept]
        refine ⟨rfl, ?_⟩
        dsimp only
        rw [noKept, left, List.mapM_cons, List.mapM_nil, eval_inSequence, runInOrder, own,
          ← evalAll_captures restNone fit.2]
        have leaves : W.Leaves temp (W.evalAll (NamedSlots.captures rest)) := by
          have notAgain : temp ∉ NamedSlots.names rest := (List.nodup_cons.mp distinct).1
          apply leaves_captures restNone fit.2
          · exact fun member mem isName => notAgain (List.mem_filterMap.mpr ⟨member, mem, isName⟩)
          · exact fun member mem => spared temp (by simp [NamedSlots.names]) member
              (List.mem_cons_of_mem _ mem)
        have reads (value : W.Value) :=
          congrArg (fun run => (fun found => [found]) <$> run) (assign_look (v := value) leaves)
        simp only [map_bind, map_pure] at reads
        simp [isKept, keep, reads]

end KeyWorld

/-- A member whose key is taken out is one that stays as it is, or a field that reads its key from the
name. -/
theorem rekeyed_of {slot : Slot} {name : Option String} (moves : slot.keptKey? = none)
    (fits : name.isSome = slot.movedKey?.isSome) :
    slot.Rekeyed name (KeyedSlot.of slot name).slot := by
  -- The field has a name exactly if its key is one that moves.
  unfold Slot.Rekeyed
  rw [moves]
  cases isMoved : slot.movedKey? with
  | none =>
    rw [isMoved] at fits
    obtain rfl : name = none := by simpa using fits
    simp [KeyedSlot.of, moves, isMoved]
  | some key =>
    rw [isMoved] at fits
    obtain ⟨temp, rfl⟩ := Option.isSome_iff_exists.mp fits
    simp [KeyedSlot.of, moves, isMoved]

/-- Chaining the keys changes the members in their keys only. -/
theorem rekeyed_chainKeys {members : NamedSlots} {pending : List Expr} (fit : members.Fit) :
    List.Forall₂ (fun member after => member.1.Rekeyed member.2 after) members
      (chainKeys pending members.keyed).1 := by
  -- Whatever waits only ends up in the key of a member that stays.
  induction members generalizing pending with
  | nil => exact .nil
  | cons member rest ih =>
    obtain ⟨slot, name⟩ := member
    cases isKept : slot.keptKey? with
    | none =>
      rw [chainKeys_moves isKept]
      exact .cons (rekeyed_of isKept (fit.name_of_moves isKept)) (ih fit.2)
    | some key =>
      have stays (other : Expr) : slot.Rekeyed name (slot.withKey other) := by
        simp only [Slot.Rekeyed, isKept]
        exact ⟨other, rfl⟩
      cases name with
      | none =>
        rw [chainKeys_stays isKept]
        exact .cons (stays _) (ih fit.2)
      | some temp =>
        rw [chainKeys_keeps isKept]
        exact .cons (stays _) (ih fit.2)

/-- Chaining computed keys has them all evaluated once and in order. What is put in front of a class and
the keys of the members that stay do together what all keys do one after the other, in the order of
the source, each of them once: the keys that stay have the values of their own, and the key of a field
that moves is kept in a new name, which the field takes it from. The keys themselves must not change
what is kept in these names. -/
theorem computedKeys_in_order (slots : List Slot) (setting : Setting) (before : Progress) :
    ∃ (chained : List Slot) (front : List Expr) (members : NamedSlots) (after : Progress),
      chainComputedKeys slots setting before = .ok ((chained, front), after)
        ∧ members.map (·.1) = slots
        ∧ List.Forall₂ (fun member after => member.1.Rekeyed member.2 after) members chained
        ∧ HandsOut setting.scopes before members.names after
        ∧ ∀ W : KeyWorld,
          (∀ name ∈ members.names, ∀ slot ∈ slots, ∀ key ∈ slot.ownKey?,
            W.Leaves name (W.eval key)) →
          W.runChained front chained = W.runInOrder members := by
  obtain ⟨members, after, captured, same, fit, hands⟩ := captureKeys_eq slots setting before
  have ran : chainComputedKeys slots setting before
      = .ok (chainKeys [] members.keyed, after) := by
    have both : chainComputedKeys slots setting before
        = (captureKeys slots setting before >>= fun pair => .ok (chainKeys [] pair.1, pair.2)) := rfl
    rw [both, captured]
    rfl
  -- The run is that of the captured members; what is left is the order the keys are evaluated in.
  refine ⟨_, _, members, after, ran, same, rekeyed_chainKeys fit, hands, fun W spared => ?_⟩
  rw [KeyWorld.runChained]
  by_cases noneStays : members.NoneStays
  · -- Without a key that stays there is nothing to chain to, so all of them go in front.
    obtain ⟨noKept, left⟩ := chainKeys_of_noneStays [] noneStays
    rw [noKept, left, List.nil_append, List.mapM_nil]
    exact KeyWorld.evalAll_captures noneStays fit
  · obtain ⟨noneLeft, evaluates⟩ := KeyWorld.mapM_chainKeys [] noneStays fit
      hands.distinct fun name isName member mem key isKey =>
        spared name isName member.1 (same ▸ List.mem_map_of_mem mem) key isKey
    rw [noneLeft, evaluates]
    simp

/-- The key `name()`. -/
def callKey (name : String) : Key :=
  .computed (.call ⟨0, 0⟩ (.id ⟨0, 0⟩ name) [])

/-- Fields of all kinds. Those with the keys `a()` and `d()` stay, the one with the key `c()` is dropped,
and all others move. -/
def mixedSlots : List Slot :=
  [.kept ⟨⟨0, 0⟩, callKey "a", false, .field none⟩,
    .defined ⟨0, 0⟩ false (callKey "b") none,
    .dropped (callKey "c"),
    .kept ⟨⟨0, 0⟩, callKey "d", false, .field none⟩,
    .assigned ⟨0, 0⟩ true (.computed (.str ⟨0, 0⟩ "e")) (.id ⟨0, 0⟩ "x"),
    .assigned ⟨0, 0⟩ true (callKey "f") (.id ⟨0, 0⟩ "x")]

/-- A world in which calls are recorded and give the name of what is called. -/
def recordingWorld : KeyWorld where
  Value := String
  State := List String × (String → String)
  read name state := .ok (state.2 name)
  write name value state := (.ok (), state.1, Function.update state.2 name value)
  evaluate e state :=
    match e.shape with
    | .call _ _ ⟨_, .id name⟩ _ => (.ok name, state.1 ++ [name], state.2)
    | _ => (.ok "", state)
  read_write := by
    rintro name value state after ⟨⟩
    simp
  read_write_of_ne name other value state differs := by simp [differs]

/-- All keys of the fields but the literal one are evaluated in order once they are chained. -/
theorem computedKeys_in_order_mixed :
    ∃ chained front members after,
      chainComputedKeys mixedSlots { options := {}, scopes := {} } {} = .ok ((chained, front), after)
        ∧ members.map (·.1) = mixedSlots
        ∧ (∀ name ∈ members.names, ∀ slot ∈ mixedSlots, ∀ key ∈ slot.ownKey?,
          recordingWorld.Leaves name (recordingWorld.eval key))
        ∧ recordingWorld.runChained front chained = recordingWorld.runInOrder members
        ∧ (recordingWorld.runChained front chained ([], fun _ => "")).2.1
          = ["a", "b", "c", "d", "f"] := by
  obtain ⟨chained, front, members, after, ran, same, -, -, runs⟩ :=
    computedKeys_in_order mixedSlots { options := {}, scopes := {} } {}
  have spared : ∀ name ∈ members.names, ∀ slot ∈ mixedSlots, ∀ key ∈ slot.ownKey?,
      recordingWorld.Leaves name (recordingWorld.eval key) := by
    intro name _ slot mem key isKey
    simp only [mixedSlots, List.mem_cons, List.not_mem_nil, or_false] at mem
    -- A literal key is none that is evaluated, and calls only record.
    rcases mem with rfl | rfl | rfl | rfl | rfl | rfl <;> cases isKey <;> exact fun _ => rfl
  have recorded : (chainComputedKeys mixedSlots { options := {}, scopes := {} } {}).map (fun result =>
      (recordingWorld.runChained result.1.2 result.1.1 ([], fun _ => "")).2.1)
        = .ok ["a", "b", "c", "d", "f"] := rfl
  rw [ran] at recorded
  exact ⟨chained, front, members, after, ran, same, spared, runs recordingWorld spared,
    Except.ok.inj recorded⟩

end Meaning

end Downlevel
