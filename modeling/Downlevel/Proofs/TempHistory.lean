import Downlevel.Proofs.MadeUpNames

/-! Made-up names over whole runs: whatever is asked of the frames, in any order, the names that they
hand out never meet where they could be mixed up. -/

namespace Downlevel

/-- What can be asked of the frames. -/
inductive TempRequest
  | push (kind : FrameKind) (owner : ScopeId)
  | pop
  /-- A name of the frame with the index, or else of the innermost frame. -/
  | alloc (index : Option Nat) (base : Option String) (init : Option Expr) (declare : Bool)
  | finishGroup

/-- What the frames answer. -/
inductive TempAnswer
  | done
  | name (name : String)
  | declared (temps : List Temp)

/-- How many frames are open inside the module after a request. It must not close the module, nor ask
for a name of a frame that is not open. -/
def TempRequest.depth? (depth : Nat) : TempRequest → Option Nat
  | .push .. => some (depth + 1)
  | .pop => if depth = 0 then none else some (depth - 1)
  | .alloc index .. => if index.getD depth ≤ depth then some depth else none
  | .finishGroup => some depth

/-- Requests that can be made one after the other when so many frames are open inside the module. -/
def Proper (depth : Nat) (requests : List TempRequest) : Prop :=
  (requests.foldlM TempRequest.depth? depth).isSome

namespace Temps

/-- The answer to a request. -/
def answer? (temps : Temps) (scopes : ScopeTree) : TempRequest → Option (TempAnswer × Temps)
  | .push kind owner => some (.done, temps.push kind owner)
  | .pop => temps.pop?.map fun (declared, after) => (.declared declared, after)
  | .alloc index base init declare =>
    (temps.allocIn? (index.getD temps.current) scopes base init declare).map
      fun (name, after) => (.name name, after)
  | .finishGroup => some (.declared temps.finishGroup.1, temps.finishGroup.2)

end Temps

/-- A frame as it is seen from outside. Frames are numbered in the order in which they are opened, so
that frames inside an open frame are those with a greater number. -/
structure OpenFrame where
  serial : Nat
  owner : ScopeId

/-- A name that was handed out. -/
structure Handed where
  /-- The number of the frame. -/
  frame : Nat
  /-- How many groups the frame had finished. -/
  group : Nat
  /-- No frame was open inside of the frame. -/
  isInnermost : Bool
  isDeclared : Bool
  owner : ScopeId
  name : String
  init : Option Expr

/-- What came back when a frame was closed or when a group of the module ended, and the names that
there were to declare. -/
structure Returned where
  temps : List Temp
  due : List Handed

/-- What was asked of the frames so far, and what they answered. -/
structure TempHistory where
  /-- How many frames have been opened; the module counts as the first. -/
  opened : Nat := 1
  /-- The frames that are open, the outermost first. -/
  frames : List OpenFrame := [⟨0, ScopeTree.root⟩]
  /-- How many groups of the module have ended. -/
  groups : Nat := 0
  /-- All the names, in the order in which they were handed out. -/
  handed : List Handed := []
  returned : List Returned := []

namespace TempHistory

/-- How many groups a frame has finished. Only the module has groups. -/
def groupOf (history : TempHistory) (serial : Nat) : Nat :=
  if serial = 0 then history.groups else 0

/-- What a frame was asked to declare since it was opened, or since its last group ended. -/
def due (history : TempHistory) (serial : Nat) : List Handed :=
  history.handed.filter fun handed =>
    handed.frame = serial && handed.group = history.groupOf serial && handed.isDeclared

/-- The open frame with the index, from inside and from outside. -/
def Opens (history : TempHistory) (temps : Temps) (index : Nat) (frame : Frame)
    (opened : OpenFrame) : Prop :=
  temps.frames[index]? = some frame ∧ history.frames[index]? = some opened

/-- The history with one more name that was handed out. -/
abbrev hand (history : TempHistory) (handed : Handed) : TempHistory :=
  { history with handed := history.handed ++ [handed] }

/-- The history with one more request and its answer. -/
def record (history : TempHistory) : TempRequest → TempAnswer → TempHistory
  | .push _ owner, .done =>
    { history with
      opened := history.opened + 1
      frames := history.frames ++ [⟨history.opened, owner⟩] }
  | .pop, .declared temps =>
    { history with
      frames := history.frames.dropLast
      returned := history.returned
        ++ history.frames.getLast?.toList.map fun frame => ⟨temps, history.due frame.serial⟩ }
  | .alloc index _ init declare, .name name =>
    let place := index.getD (history.frames.length - 1)
    { history with
      handed := history.handed ++ history.frames[place]?.toList.map fun frame =>
        { frame := frame.serial
          group := history.groupOf frame.serial
          isInnermost := place + 1 = history.frames.length
          isDeclared := declare
          owner := frame.owner
          name
          init } }
  | .finishGroup, .declared temps =>
    { history with
      groups := history.groups + 1
      returned := history.returned ++ [⟨temps, history.due 0⟩] }
  | _, _ => history

end TempHistory

/-- All answers to requests that are made one after the other. -/
def Temps.answerAll? (scopes : ScopeTree) :
    List TempRequest → Temps × TempHistory → Option (Temps × TempHistory)
  | [], reached => some reached
  | request :: rest, (temps, history) => do
    let (answer, temps) ← temps.answer? scopes request
    answerAll? scopes rest (temps, history.record request answer)

/-- Two sets have no name in common. -/
def NameSet.Disjoint (set other : NameSet) : Prop :=
  ∀ name ∈ set.names, name ∉ other.names

/-- Names that were handed out are exactly those to be declared, in the same order. -/
def Declares (temps : List Temp) (handed : List Handed) : Prop :=
  temps.map (fun temp => (temp.owner, temp.name, temp.init))
    = handed.map fun one => (one.owner, one.name, one.init)

/-- Two names that were handed out one after the other must differ: they belong to one frame, whatever
its groups, or the later one was handed out when the frame of the earlier one had been opened and
closed inside of its own frame. -/
def Handed.Meets (earlier later : Handed) : Prop :=
  later.frame = earlier.frame ∨ later.isInnermost = true ∧ later.frame < earlier.frame

/-- The names of the open frames do not meet, and the answers so far were right. -/
structure Hygienic (scopes : ScopeTree) (temps : Temps) (history : TempHistory) : Prop where
  /-- No two open frames have a name in common. -/
  apart : (temps.frames.map (·.own)).Pairwise NameSet.Disjoint
  /-- No open frame has a name that the scopes record. -/
  unrecorded : ∀ frame ∈ temps.frames, ∀ name ∈ frame.own.names, name ∉ scopes.names.names
  /-- The names of an open frame are those that it handed out. -/
  owned : ∀ {index frame opened}, history.Opens temps index frame opened →
    ∀ name, name ∈ frame.own.names
      ↔ ∃ handed ∈ history.handed, handed.frame = opened.serial ∧ handed.name = name
  /-- All names that were handed out are known at the end. -/
  handedOut : ∀ name, name ∈ temps.handedOut.names ↔ ∃ handed ∈ history.handed, handed.name = name
  /-- Names that meet are different. -/
  fresh : history.handed.Pairwise fun earlier later =>
    earlier.Meets later → later.name ≠ earlier.name
  /-- What came back is what had to be declared, and no name twice. -/
  returned : ∀ answer ∈ history.returned,
    Declares answer.temps answer.due ∧ (answer.temps.map (·.name)).Nodup

/-- Both sets together hold the names that one of them holds. -/
@[simp]
theorem NameSet.mem_union {set more : NameSet} {name : String} :
    name ∈ (set.union more).names ↔ name ∈ set.names ∨ name ∈ more.names := by
  have folded (names : List String) (set : NameSet) :
      name ∈ (names.foldl insert set).names ↔ name ∈ set.names ∨ name ∈ names := by
    induction names generalizing set with
    | nil => simp
    | cons first rest ih => rw [List.foldl_cons, ih, mem_insert, List.mem_cons, or_assoc, or_left_comm]
  exact folded more.names set

namespace Temps

/-- A new frame is the innermost one. -/
theorem frames_push (temps : Temps) (kind : FrameKind) (owner : ScopeId) :
    (temps.push kind owner).frames = temps.frames ++ [({ kind, owner } : Frame)] := by
  simp [frames, push]

/-- Closing the innermost frame adds its names to those nested in the frame around it. -/
theorem pop?_spec {temps : Temps} (inside : temps.current ≠ 0) :
    ∃ outer parent closed after, temps.pop? = some (closed.declared, after)
      ∧ temps.frames = outer ++ [parent, closed]
      ∧ after.frames = outer ++ [parent.absorb closed]
      ∧ after.handedOut = temps.handedOut := by
  -- There are at least two frames, and the one below the innermost may be that of the module.
  rcases shape : temps.inner with _ | ⟨closed, _ | ⟨parent, rest⟩⟩
  · simp [current, shape] at inside
  · exact ⟨[], temps.module, closed, { temps with module := temps.module.absorb closed, inner := [] },
      by simp [pop?, shape], by simp [frames, shape], rfl, rfl⟩
  · exact ⟨temps.module :: rest.reverse, parent, closed,
      { temps with inner := parent.absorb closed :: rest }, by simp [pop?, shape],
      by simp [frames, shape], by simp [frames], rfl⟩

/-- Ending a group changes nothing but what the module has to declare, and where its names go on. -/
theorem frames_finishGroup (temps : Temps) :
    temps.finishGroup.2.frames
      = temps.frames.modify 0 fun frame => { frame with nextSeq := 0, declared := [] } :=
  rfl

/-- The frame after it has handed out a name. -/
def handOut (frame : Frame) (handed : Handed) (next : Nat) : Frame :=
  { frame with
    nextSeq := next
    own := frame.own.insert handed.name
    declared := if handed.isDeclared
      then frame.declared ++ [⟨frame.owner, handed.name, frame.nextSeq, handed.init⟩]
      else frame.declared }

/-- An open frame hands out a name that the scopes do not record, that no open frame has, and that no
frame inside has handed out before it was closed. -/
theorem allocIn?_free {temps : Temps} {index : Nat} {frame : Frame}
    (found : temps.frames[index]? = some frame) (scopes : ScopeTree) (base : Option String)
    (init : Option Expr) (declare : Bool) :
    ∃ name after, temps.allocIn? index scopes base init declare = some (name, after)
      ∧ name ∉ scopes.names.names ∧ name ∉ frame.nested.names
      ∧ (∀ other ∈ temps.frames, name ∉ other.own.names)
      ∧ after.handedOut = temps.handedOut.insert name
      ∧ ∀ handed : Handed, handed.name = name → handed.init = init → handed.isDeclared = declare →
        ∃ next, after.frames = temps.frames.set index (handOut frame handed next) := by
  -- The name is new among all that is taken, whatever it is derived from.
  let start := base.getD ("_" ++ shortName frame.nextSeq)
  let name := freshName (temps.taken frame scopes) start
  have free : name ∉ temps.taken frame scopes := freshName_not_mem _ _
  simp only [taken, List.mem_append, List.mem_flatMap, not_or, not_exists, not_and] at free
  have found' : temps.frame? index = some frame := found
  refine ⟨name, _, by rw [allocIn?, found']; rfl, free.1.1, free.1.2, free.2, ?_, ?_⟩
  · cases index <;> rfl
  -- Only the frame that is asked changes, and what it records is what the history notes down.
  rintro handed isName rfl rfl
  refine ⟨if base.isSome then frame.nextSeq else frame.nextSeq + 1, ?_⟩
  obtain ⟨inside, rfl⟩ := List.getElem?_eq_some_iff.mp found
  show (modifyFrame ..).frames = _
  rw [frames_modifyFrame, handOut, isName]
  refine List.ext_getElem? fun other => ?_
  rw [List.getElem?_modify, List.getElem?_set]
  -- Either the place is the one that changes, or its frame stays as it is.
  split
  · rename_i same
    subst same
    rw [List.getElem?_eq_getElem inside]
    rfl
  · exact id_map _

end Temps

/-- What is known at every moment of a run, so that the next answer is right as well. -/
structure Recorded (scopes : ScopeTree) (temps : Temps) (history : TempHistory) : Prop where
  length : history.frames.length = temps.frames.length
  /-- Frames further inside were opened later. -/
  ordered : history.frames.Pairwise (·.serial < ·.serial)
  module : history.frames.head? = some ⟨0, ScopeTree.root⟩
  openBefore : ∀ opened ∈ history.frames, opened.serial < history.opened
  handedBefore : ∀ handed ∈ history.handed, handed.frame < history.opened
  grouped : ∀ handed ∈ history.handed, handed.group ≤ history.groupOf handed.frame
  owner : ∀ {index frame opened}, history.Opens temps index frame opened →
    frame.owner = opened.owner
  owned : ∀ {index frame opened}, history.Opens temps index frame opened →
    ∀ name, name ∈ frame.own.names
      ↔ ∃ handed ∈ history.handed, handed.frame = opened.serial ∧ handed.name = name
  declared : ∀ {index frame opened}, history.Opens temps index frame opened →
    Declares frame.declared (history.due opened.serial)
  /-- The names of frames inside, whether open or closed, are those of open frames inside and those
  nested in them or in the frame itself. -/
  covered : ∀ {index frame opened}, history.Opens temps index frame opened →
    ∀ handed ∈ history.handed, opened.serial < handed.frame →
      handed.name ∈ frame.nested.names ∨ ∃ inner ∈ temps.frames.drop (index + 1),
        handed.name ∈ inner.own.names ∨ handed.name ∈ inner.nested.names
  apart : (temps.frames.map (·.own)).Pairwise NameSet.Disjoint
  unrecorded : ∀ handed ∈ history.handed, handed.name ∉ scopes.names.names
  handedOut : ∀ name, name ∈ temps.handedOut.names ↔ ∃ handed ∈ history.handed, handed.name = name
  fresh : history.handed.Pairwise fun earlier later =>
    earlier.Meets later → later.name ≠ earlier.name
  returned : ∀ answer ∈ history.returned,
    Declares answer.temps answer.due ∧ (answer.temps.map (·.name)).Nodup

namespace Recorded

variable {scopes : ScopeTree} {temps : Temps} {history : TempHistory}

/-- A run starts with the module alone, which has no names. -/
theorem start : Recorded scopes {} {} where
  length := rfl
  ordered := by simp
  module := rfl
  openBefore := by simp
  handedBefore := nofun
  grouped := nofun
  owner := by
    -- There is one frame, that of the module, at the start.
    rintro (_ | _) frame opened ⟨⟨⟩, ⟨⟩⟩
    rfl
  owned := by
    rintro (_ | _) frame opened ⟨⟨⟩, ⟨⟩⟩
    simp
  declared := by
    rintro (_ | _) frame opened ⟨⟨⟩, ⟨⟩⟩
    rfl
  covered := nofun
  apart := by simp [Temps.frames]
  unrecorded := nofun
  handedOut := by simp
  fresh := .nil
  returned := nofun

/-- Two frames with one number are the same. -/
theorem index_unique (recorded : Recorded scopes temps history) {index other : Nat}
    {opened opened' : OpenFrame} (found : history.frames[index]? = some opened)
    (found' : history.frames[other]? = some opened') (same : opened.serial = opened'.serial) :
    index = other := by
  -- The serials of open frames increase, so a serial stands at one place only.
  have increasing := List.pairwise_iff_getElem.mp recorded.ordered
  obtain ⟨inside, rfl⟩ := List.getElem?_eq_some_iff.mp found
  obtain ⟨inside', rfl⟩ := List.getElem?_eq_some_iff.mp found'
  rcases Nat.lt_trichotomy index other with less | equal | greater
  · have := increasing index other inside inside' less
    omega
  · exact equal
  · have := increasing other index inside' inside greater
    omega

/-- Frames further inside have greater numbers. -/
theorem index_lt (recorded : Recorded scopes temps history) {index other : Nat}
    {opened opened' : OpenFrame} (found : history.frames[index]? = some opened)
    (found' : history.frames[other]? = some opened') (less : opened.serial < opened'.serial) :
    index < other := by
  -- The serials of open frames increase along with their places.
  have increasing := List.pairwise_iff_getElem.mp recorded.ordered
  obtain ⟨inside, rfl⟩ := List.getElem?_eq_some_iff.mp found
  obtain ⟨inside', rfl⟩ := List.getElem?_eq_some_iff.mp found'
  rcases Nat.lt_trichotomy index other with smaller | rfl | greater
  · exact smaller
  · omega
  · have := increasing other index inside' inside greater
    omega

section Push

variable {kind : FrameKind} {owner : ScopeId} {index : Nat} {frame : Frame} {opened : OpenFrame}

/-- Once a frame is opened, an open frame is one of those from before, or the new one, which has
handed out nothing. -/
theorem opens_push (recorded : Recorded scopes temps history)
    (found : (history.record (.push kind owner) .done).Opens (temps.push kind owner) index frame
      opened) :
    history.Opens temps index frame opened
      ∨ frame = ({ kind, owner } : Frame) ∧ opened = ⟨history.opened, owner⟩ := by
  obtain ⟨inFrames, inHistory⟩ := found
  rw [temps.frames_push, List.getElem?_append] at inFrames
  simp only [TempHistory.record, List.getElem?_append, recorded.length] at inHistory
  -- Both lists have grown by one frame at the end, so the same places are old on both sides.
  split at inFrames
  · rename_i old
    rw [if_pos old] at inHistory
    exact .inl ⟨inFrames, inHistory⟩
  · rename_i new
    rw [if_neg new] at inHistory
    rcases gap : index - temps.frames.length with _ | _
    · simp only [gap] at inFrames inHistory
      simp_all
    · rw [gap] at inFrames
      simp at inFrames

/-- The next frame to be opened has handed out nothing so far. -/
theorem frame_ne_opened (recorded : Recorded scopes temps history) :
    ∀ handed ∈ history.handed, handed.frame ≠ history.opened :=
  fun handed mem => Nat.ne_of_lt (recorded.handedBefore handed mem)

/-- The next frame to be opened has nothing to declare. -/
theorem due_opened (recorded : Recorded scopes temps history) :
    history.due history.opened = [] := by
  simp only [TempHistory.due, List.filter_eq_nil_iff]
  intro handed mem
  simp [recorded.frame_ne_opened handed mem]

/-- Frames that were opened earlier have smaller numbers, also than the new one. -/
theorem openBefore_push (recorded : Recorded scopes temps history) :
    ∀ opened ∈ (history.record (.push kind owner) .done).frames,
      opened.serial < history.opened + 1 := by
  intro opened mem
  rcases List.mem_append.mp mem with old | new
  · exact Nat.lt_succ_of_lt (recorded.openBefore opened old)
  · rw [List.mem_singleton.mp new]
    exact Nat.lt_succ_self _

/-- The new frame has no names, and the others have those that they had. -/
theorem owned_push (recorded : Recorded scopes temps history)
    (found : (history.record (.push kind owner) .done).Opens (temps.push kind owner) index frame
      opened) (name : String) :
    name ∈ frame.own.names
      ↔ ∃ handed ∈ history.handed, handed.frame = opened.serial ∧ handed.name = name := by
  obtain old | ⟨rfl, rfl⟩ := recorded.opens_push found
  · exact recorded.owned old name
  · simp only [List.not_mem_nil, false_iff, not_exists, not_and]
    exact fun handed mem same => absurd same (recorded.frame_ne_opened handed mem)

/-- The new frame has nothing to declare. -/
theorem declared_push (recorded : Recorded scopes temps history)
    (found : (history.record (.push kind owner) .done).Opens (temps.push kind owner) index frame
      opened) :
    Declares frame.declared (history.due opened.serial) := by
  obtain old | ⟨rfl, rfl⟩ := recorded.opens_push found
  · exact recorded.declared old
  · show Declares [] (history.due history.opened)
    rw [recorded.due_opened]
    rfl

/-- Nothing was handed out inside of the new frame; what was handed out inside of others is still
covered, since no frame went away. -/
theorem covered_push (recorded : Recorded scopes temps history)
    (found : (history.record (.push kind owner) .done).Opens (temps.push kind owner) index frame
      opened) :
    ∀ handed ∈ history.handed, opened.serial < handed.frame →
      handed.name ∈ frame.nested.names
        ∨ ∃ inner ∈ (temps.push kind owner).frames.drop (index + 1),
          handed.name ∈ inner.own.names ∨ handed.name ∈ inner.nested.names := by
  intro handed mem inside
  -- The new frame is the innermost, and nothing was handed out inside of it yet.
  obtain old | ⟨rfl, rfl⟩ := recorded.opens_push found
  · refine (recorded.covered old handed mem inside).imp_right ?_
    rintro ⟨inner, isInside, held⟩
    refine ⟨inner, ?_, held⟩
    rw [temps.frames_push, List.drop_append]
    exact List.mem_append_left _ isInside
  · exact absurd (recorded.handedBefore handed mem) (Nat.lt_asymm inside)

/-- Opening a frame. -/
theorem push (recorded : Recorded scopes temps history) (kind : FrameKind) (owner : ScopeId) :
    Recorded scopes (temps.push kind owner) (history.record (.push kind owner) .done) where
  -- The new frame owns nothing and stands inside all others, so only what speaks of openness
  -- changes.
  length := by simp [TempHistory.record, temps.frames_push, recorded.length]
  ordered := by
    refine List.pairwise_append.mpr ⟨recorded.ordered, by simp, ?_⟩
    simpa using recorded.openBefore
  module := by simp [TempHistory.record, List.head?_append, recorded.module]
  openBefore := recorded.openBefore_push
  handedBefore handed mem := Nat.lt_succ_of_lt (recorded.handedBefore handed mem)
  grouped := recorded.grouped
  owner := by
    intro index frame opened found
    obtain old | ⟨rfl, rfl⟩ := recorded.opens_push found
    · exact recorded.owner old
    · rfl
  owned := recorded.owned_push
  declared := recorded.declared_push
  covered := recorded.covered_push
  apart := by
    rw [temps.frames_push, List.map_append]
    exact List.pairwise_append.mpr ⟨recorded.apart, by simp, by simp [NameSet.Disjoint]⟩
  unrecorded := recorded.unrecorded
  handedOut := recorded.handedOut
  fresh := recorded.fresh
  returned := recorded.returned

end Push

section HandOut

/-- The frame at the place hands out a name that is free for it, and nothing else changes. -/
structure HandsOut (scopes : ScopeTree) (temps : Temps) (history : TempHistory) (place next : Nat)
    (frame : Frame) (opened : OpenFrame) (handed : Handed) (after : Temps) : Prop where
  found : history.Opens temps place frame opened
  ofFrame : handed.frame = opened.serial
  ofGroup : handed.group = history.groupOf opened.serial
  ofOwner : handed.owner = opened.owner
  innermost : handed.isInnermost = true → place + 1 = temps.frames.length
  unused : handed.name ∉ scopes.names.names
  notNested : handed.name ∉ frame.nested.names
  notOwned : ∀ other ∈ temps.frames, handed.name ∉ other.own.names
  frames : after.frames = temps.frames.set place (Temps.handOut frame handed next)
  handedOut : after.handedOut = temps.handedOut.insert handed.name

variable {place next index : Nat} {frame frame' : Frame} {opened opened' : OpenFrame}
  {handed : Handed} {after : Temps}

/-- The frame that handed out the name has it now; all others are as before. -/
theorem opens_hand (recorded : Recorded scopes temps history)
    (hands : HandsOut scopes temps history place next frame opened handed after)
    (now : (history.hand handed).Opens after index frame' opened') :
    place = index ∧ opened' = opened ∧ frame' = Temps.handOut frame handed next
      ∨ history.Opens temps index frame' opened' ∧ opened.serial ≠ opened'.serial := by
  have inFrames : place < temps.frames.length := (List.getElem?_eq_some_iff.mp hands.found.1).1
  obtain ⟨now, now'⟩ := now
  -- The one frame that grew is at `place`; every other frame is the one from before.
  rw [hands.frames, List.getElem?_set] at now
  split at now
  · rename_i same
    subst same
    refine .inl ⟨rfl, ?_, ?_⟩
    · exact Option.some.inj (now'.symm.trans hands.found.2)
    · simpa [inFrames] using now.symm
  · refine .inr ⟨⟨now, now'⟩, fun same => ‹place ≠ index› ?_⟩
    exact recorded.index_unique hands.found.2 now' same

/-- Only the frame that handed out the name may have to declare it. -/
theorem due_hand (hands : HandsOut scopes temps history place next frame opened handed after)
    (serial : Nat) :
    (history.hand handed).due serial
      = history.due serial
        ++ if opened.serial = serial ∧ handed.isDeclared then [handed] else [] := by
  simp only [TempHistory.due, List.filter_append]
  congr 1
  by_cases same : opened.serial = serial
  · subst same
    cases declared : handed.isDeclared <;>
      simp [hands.ofFrame, hands.ofGroup, declared, TempHistory.groupOf]
  · simp [hands.ofFrame, same]

/-- Names are handed out by frames that have been opened. -/
theorem handedBefore_hand (recorded : Recorded scopes temps history)
    (hands : HandsOut scopes temps history place next frame opened handed after) :
    ∀ other ∈ history.handed ++ [handed], other.frame < history.opened := by
  intro other mem
  rcases List.mem_append.mp mem with old | new
  · exact recorded.handedBefore other old
  · rw [List.mem_singleton.mp new, hands.ofFrame]
    exact recorded.openBefore opened (List.mem_of_getElem? hands.found.2)

/-- A name belongs to the group that its frame is in, or to one before. -/
theorem grouped_hand (recorded : Recorded scopes temps history)
    (hands : HandsOut scopes temps history place next frame opened handed after) :
    ∀ other ∈ history.handed ++ [handed], other.group ≤ history.groupOf other.frame := by
  intro other mem
  rcases List.mem_append.mp mem with old | new
  · exact recorded.grouped other old
  · rw [List.mem_singleton.mp new, hands.ofFrame]
    exact Nat.le_of_eq hands.ofGroup

/-- Every open frame still has exactly the names that it handed out. -/
theorem owned_hand (recorded : Recorded scopes temps history)
    (hands : HandsOut scopes temps history place next frame opened handed after)
    (now : (history.hand handed).Opens after index frame' opened') (name : String) :
    name ∈ frame'.own.names
      ↔ ∃ other ∈ history.handed ++ [handed], other.frame = opened'.serial ∧ other.name = name := by
  obtain ⟨rfl, rfl, rfl⟩ | ⟨old, other⟩ := recorded.opens_hand hands now
  · rw [Temps.handOut, NameSet.mem_insert, recorded.owned hands.found]
    simp only [List.mem_append, List.mem_singleton, or_and_right, exists_or, exists_eq_left,
      hands.ofFrame, true_and]
    rw [or_comm, @eq_comm _ name]
  · simp [recorded.owned old, hands.ofFrame, other, or_and_right, exists_or]

/-- A frame declares the new name if it was asked to, behind those from before. -/
theorem declared_hand (recorded : Recorded scopes temps history)
    (hands : HandsOut scopes temps history place next frame opened handed after)
    (now : (history.hand handed).Opens after index frame' opened') :
    Declares frame'.declared ((history.hand handed).due opened'.serial) := by
  rw [due_hand hands]
  obtain ⟨rfl, rfl, rfl⟩ | ⟨old, other⟩ := recorded.opens_hand hands now
  · have before := recorded.declared hands.found
    cases declared : handed.isDeclared
    · simpa [Temps.handOut, declared] using before
    · have owner := recorded.owner hands.found
      have ofOwner := hands.ofOwner
      simp_all [Temps.handOut, Declares]
  · simpa [other] using recorded.declared old

/-- A name keeps its place: frames only get more names, and keep those nested in them. -/
theorem held_hand (hands : HandsOut scopes temps history place next frame opened handed after)
    {inner : Frame} {name : String} (isInside : inner ∈ temps.frames.drop (index + 1))
    (held : name ∈ inner.own.names ∨ name ∈ inner.nested.names) :
    ∃ inner ∈ after.frames.drop (index + 1),
      name ∈ inner.own.names ∨ name ∈ inner.nested.names := by
  have inFrames : place < temps.frames.length := (List.getElem?_eq_some_iff.mp hands.found.1).1
  obtain ⟨offset, isThere⟩ := List.mem_iff_getElem?.mp isInside
  rw [List.getElem?_drop] at isThere
  -- A frame never loses a name, also the one that was handed the new one.
  by_cases same : place = index + 1 + offset
  · subst same
    obtain rfl := Option.some.inj (isThere.symm.trans hands.found.1)
    refine ⟨Temps.handOut inner handed next, List.mem_iff_getElem?.mpr ⟨offset, ?_⟩, ?_⟩
    · rw [List.getElem?_drop, hands.frames, List.getElem?_set_self inFrames]
    · exact held.imp_left fun held => NameSet.mem_insert.mpr (.inr held)
  · refine ⟨inner, List.mem_iff_getElem?.mpr ⟨offset, ?_⟩, held⟩
    rw [List.getElem?_drop, hands.frames, List.getElem?_set_ne same, isThere]

/-- The new name is one of a frame further inside, for every frame around the one that has it. -/
theorem covered_hand (recorded : Recorded scopes temps history)
    (hands : HandsOut scopes temps history place next frame opened handed after)
    (now : (history.hand handed).Opens after index frame' opened') :
    ∀ other ∈ history.handed ++ [handed], opened'.serial < other.frame →
      other.name ∈ frame'.nested.names ∨ ∃ inner ∈ after.frames.drop (index + 1),
        other.name ∈ inner.own.names ∨ other.name ∈ inner.nested.names := by
  intro other mem inside
  have inFrames : place < temps.frames.length := (List.getElem?_eq_some_iff.mp hands.found.1).1
  rcases List.mem_append.mp mem with known | new
  · -- A name from before is covered as it was.
    obtain ⟨rfl, rfl, rfl⟩ | ⟨old, -⟩ := recorded.opens_hand hands now
    · refine (recorded.covered hands.found other known inside).imp_right ?_
      rintro ⟨inner, isInside, held⟩
      exact held_hand hands isInside held
    · refine (recorded.covered old other known inside).imp_right ?_
      rintro ⟨inner, isInside, held⟩
      exact held_hand hands isInside held
  · -- The frame that got the name is one further inside.
    obtain rfl := List.mem_singleton.mp new
    rw [hands.ofFrame] at inside
    have further := recorded.index_lt now.2 hands.found.2 inside
    refine .inr ⟨Temps.handOut frame other next, List.mem_iff_getElem?.mpr
      ⟨place - (index + 1), ?_⟩, .inl (NameSet.mem_insert.mpr (.inl rfl))⟩
    rw [List.getElem?_drop, hands.frames, show index + 1 + (place - (index + 1)) = place by omega,
      List.getElem?_set_self inFrames]

/-- The new name is one that no open frame had, so open frames still have no name in common. -/
theorem apart_hand (recorded : Recorded scopes temps history)
    (hands : HandsOut scopes temps history place next frame opened handed after) :
    (after.frames.map (·.own)).Pairwise NameSet.Disjoint := by
  obtain ⟨inFrames, known⟩ := List.getElem?_eq_some_iff.mp hands.found.1
  have before := List.pairwise_iff_getElem.mp (List.pairwise_map.mp recorded.apart)
  rw [hands.frames, List.pairwise_map]
  refine List.pairwise_iff_getElem.mpr fun outer inner outerIn innerIn less name held => ?_
  simp only [List.length_set] at outerIn innerIn
  rw [List.getElem_set] at held ⊢
  -- The frame with the new name is the outer one, the inner one, or neither.
  split at held
  · rename_i isOuter
    subst isOuter
    rw [if_neg (Nat.ne_of_lt less)]
    rcases NameSet.mem_insert.mp held with rfl | old
    · exact hands.notOwned _ (List.getElem_mem innerIn)
    · exact before place inner inFrames innerIn less name (known ▸ old)
  · split
    · rename_i isInner
      subst isInner
      intro held'
      rcases NameSet.mem_insert.mp held' with rfl | old
      · exact hands.notOwned _ (List.getElem_mem outerIn) held
      · exact before outer place outerIn inFrames less name held (known ▸ old)
    · exact before outer inner outerIn innerIn less name held

/-- The new name differs from all that it meets: its own frame has them, or covers them. -/
theorem fresh_hand (recorded : Recorded scopes temps history)
    (hands : HandsOut scopes temps history place next frame opened handed after) :
    (history.handed ++ [handed]).Pairwise fun earlier later =>
      earlier.Meets later → later.name ≠ earlier.name := by
  refine List.pairwise_append.mpr ⟨recorded.fresh, by simp, ?_⟩
  intro earlier mem later new meets same
  obtain rfl := List.mem_singleton.mp new
  -- Two names meet in one frame, or the later one stands outside of the earlier one's.
  rcases meets with sameFrame | ⟨isInnermost, inside⟩
  · refine hands.notOwned frame (List.mem_of_getElem? hands.found.1)
      ((recorded.owned hands.found _).mpr ?_)
    exact ⟨earlier, mem, sameFrame.symm.trans hands.ofFrame, same.symm⟩
  · rcases recorded.covered hands.found earlier mem (hands.ofFrame ▸ inside) with
      nested | ⟨inner, further, -⟩
    · exact hands.notNested (same ▸ nested)
    · rw [hands.innermost isInnermost, List.drop_length] at further
      cases further

/-- Handing out a name that is free for its frame. -/
theorem hand (recorded : Recorded scopes temps history)
    (hands : HandsOut scopes temps history place next frame opened handed after) :
    Recorded scopes after (history.hand handed) where
  -- One field per invariant; only the frame at `place` and the list of names have changed.
  length := by simp [hands.frames, recorded.length]
  ordered := recorded.ordered
  module := recorded.module
  openBefore := recorded.openBefore
  handedBefore := recorded.handedBefore_hand hands
  grouped := recorded.grouped_hand hands
  owner := by
    intro index frame' opened' now
    obtain ⟨rfl, rfl, rfl⟩ | ⟨old, -⟩ := recorded.opens_hand hands now
    · exact (recorded.owner hands.found :)
    · exact recorded.owner old
  owned := recorded.owned_hand hands
  declared := recorded.declared_hand hands
  covered := recorded.covered_hand hands
  apart := recorded.apart_hand hands
  unrecorded := by
    intro other mem
    rcases List.mem_append.mp mem with old | new
    · exact recorded.unrecorded other old
    · rw [List.mem_singleton.mp new]
      exact hands.unused
  handedOut name := by
    simp [hands.handedOut, recorded.handedOut, or_and_right, exists_or, or_comm, eq_comm]
  fresh := recorded.fresh_hand hands
  returned := recorded.returned

end HandOut

/-- Asking an open frame for a name. -/
theorem alloc (recorded : Recorded scopes temps history) {index : Option Nat}
    (isOpen : index.getD temps.current ≤ temps.current) (base : Option String)
    (init : Option Expr) (declare : Bool) :
    ∃ name after, temps.allocIn? (index.getD temps.current) scopes base init declare
        = some (name, after)
      ∧ Recorded scopes after (history.record (.alloc index base init declare) (.name name)) := by
  -- A request without a place means the innermost frame, which both sides have in the same place.
  have last : history.frames.length - 1 = temps.current := by rw [recorded.length]; simp
  have inFrames : index.getD temps.current < temps.frames.length := by simp; omega
  have inHistory : index.getD temps.current < history.frames.length := by
    rw [recorded.length]
    exact inFrames
  obtain ⟨frame, found⟩ : ∃ frame, temps.frames[index.getD temps.current]? = some frame :=
    ⟨_, List.getElem?_eq_getElem inFrames⟩
  obtain ⟨opened, found'⟩ : ∃ opened, history.frames[index.getD temps.current]? = some opened :=
    ⟨_, List.getElem?_eq_getElem inHistory⟩
  obtain ⟨name, after, given, unused, notNested, notOwned, handedOut, frames⟩ :=
    Temps.allocIn?_free found scopes base init declare
  -- What the history notes down about the name.
  let handed : Handed :=
    { frame := opened.serial
      group := history.groupOf opened.serial
      isInnermost := index.getD temps.current + 1 = history.frames.length
      isDeclared := declare
      owner := opened.owner
      name
      init }
  have record : history.record (.alloc index base init declare) (.name name)
      = history.hand handed := by
    simp [TempHistory.record, last, found', handed]
  -- The frame that was asked has recorded the name in the same way.
  obtain ⟨next, frames⟩ := frames handed rfl rfl rfl
  refine ⟨name, after, given, ?_⟩
  rw [record]
  refine recorded.hand
    { found := ⟨found, found'⟩, ofFrame := rfl, ofGroup := rfl, ofOwner := rfl, innermost := ?_,
      unused, notNested, notOwned, frames, handedOut }
  rw [← recorded.length]
  exact of_decide_eq_true

/-- A frame is not asked to declare a name twice. -/
theorem nodup_due (recorded : Recorded scopes temps history) (serial : Nat) :
    ((history.due serial).map (·.name)).Nodup := by
  have ofFrame {handed : Handed} (mem : handed ∈ history.due serial) : handed.frame = serial := by
    simp only [TempHistory.due, List.mem_filter, Bool.and_eq_true, decide_eq_true_eq] at mem
    exact mem.2.1.1
  rw [List.Nodup, List.pairwise_map]
  refine (recorded.fresh.filter _).imp_of_mem fun isEarlier isLater differ same => ?_
  exact differ (.inl ((ofFrame isLater).trans (ofFrame isEarlier).symm)) same.symm

/-- What a frame has to declare is what it was asked to, and no name twice. -/
theorem declares (recorded : Recorded scopes temps history) {index : Nat} {frame : Frame}
    {opened : OpenFrame} (found : history.Opens temps index frame opened) :
    Declares frame.declared (history.due opened.serial)
      ∧ (frame.declared.map (·.name)).Nodup := by
  have declared := recorded.declared found
  have names := congrArg (List.map (·.2.1)) declared
  simp only [List.map_map] at names
  refine ⟨declared, ?_⟩
  rw [show frame.declared.map (·.name) = (history.due opened.serial).map (·.name) from names]
  exact recorded.nodup_due opened.serial

section Close

/-- The innermost frame is closed, and the frame around it takes its names over. -/
structure Closes (temps : Temps) (history : TempHistory) (outer : List Frame)
    (parent closed : Frame) (outer' : List OpenFrame) (parent' closed' : OpenFrame)
    (after : Temps) : Prop where
  frames : temps.frames = outer ++ [parent, closed]
  frames' : history.frames = outer' ++ [parent', closed']
  sameLength : outer'.length = outer.length
  nowFrames : after.frames = outer ++ [parent.absorb closed]
  nowHandedOut : after.handedOut = temps.handedOut

variable {outer : List Frame} {parent closed frame : Frame} {outer' : List OpenFrame}
  {parent' closed' opened : OpenFrame} {after : Temps} {index : Nat}

/-- The frame that is closed was the innermost one. -/
theorem Closes.opens (closes : Closes temps history outer parent closed outer' parent' closed' after) :
    history.Opens temps (outer.length + 1) closed closed' := by
  simp [TempHistory.Opens, closes.frames, closes.frames', ← closes.sameLength]

/-- What is open afterwards was open before. -/
theorem Closes.kept (closes : Closes temps history outer parent closed outer' parent' closed' after) :
    (outer' ++ [parent']).Sublist history.frames := by
  rw [closes.frames']
  exact List.Sublist.append_left (by simp) _

/-- A frame is one of those around from before, or the one that takes the names over. -/
theorem Closes.cases
    (closes : Closes temps history outer parent closed outer' parent' closed' after)
    (now : after.frames[index]? = some frame) (now' : (outer' ++ [parent'])[index]? = some opened) :
    ∃ frame', history.Opens temps index frame' opened
      ∧ (frame = frame' ∧ index < outer.length
        ∨ index = outer.length ∧ frame' = parent ∧ frame = parent.absorb closed) := by
  rw [closes.nowFrames, List.getElem?_append] at now
  rw [List.getElem?_append, closes.sameLength] at now'
  simp only [TempHistory.Opens, closes.frames, closes.frames', List.getElem?_append,
    closes.sameLength]
  -- Only the last frame left takes anything over from the one that was closed.
  by_cases further : index < outer.length
  · simp only [further, if_true] at now now' ⊢
    exact ⟨frame, ⟨now, now'⟩, .inl ⟨rfl, trivial⟩⟩
  · simp only [further, if_false] at now now' ⊢
    rcases beyond : index - outer.length with _ | _
    · simp only [beyond, List.getElem?_cons_zero, Option.some.injEq] at now now'
      exact ⟨parent, ⟨rfl, congrArg some now'⟩, .inr ⟨by omega, rfl, now.symm⟩⟩
    · rw [beyond] at now
      simp at now

/-- What the closed frame covered, the frame around it covers now. -/
theorem Closes.covered (recorded : Recorded scopes temps history)
    (closes : Closes temps history outer parent closed outer' parent' closed' after)
    (now : after.frames[index]? = some frame) (now' : (outer' ++ [parent'])[index]? = some opened) :
    ∀ handed ∈ history.handed, opened.serial < handed.frame →
      handed.name ∈ frame.nested.names ∨ ∃ inner ∈ after.frames.drop (index + 1),
        handed.name ∈ inner.own.names ∨ handed.name ∈ inner.nested.names := by
  intro handed mem inside
  obtain ⟨frame', before, place⟩ := closes.cases now now'
  have held := recorded.covered before handed mem inside
  rw [closes.frames, List.drop_append] at held
  rw [closes.nowFrames, List.drop_append]
  rcases place with ⟨rfl, further⟩ | ⟨rfl, rfl, rfl⟩
  · -- Further out, both frames stood inside, and now only the one that has taken the names over.
    simp only [Nat.sub_eq_zero_of_le (show index + 1 ≤ outer.length from further), List.drop_zero,
      List.mem_append, or_and_right, exists_or, List.mem_cons, exists_eq_left, List.not_mem_nil,
      or_false, Frame.absorb, NameSet.mem_union] at held ⊢
    simpa only [or_assoc] using held
  · -- That frame has nothing open inside of it any more.
    rw [Nat.add_sub_cancel_left, List.drop_eq_nil_of_le (Nat.le_succ _)] at held ⊢
    simpa [Frame.absorb, or_assoc] using held

/-- Every frame has the names of its own that it had before. -/
theorem Closes.apart (recorded : Recorded scopes temps history)
    (closes : Closes temps history outer parent closed outer' parent' closed' after) :
    (after.frames.map (·.own)).Pairwise NameSet.Disjoint := by
  have remain : (after.frames.map (·.own)).Sublist (temps.frames.map (·.own)) := by
    simp [closes.nowFrames, closes.frames, Frame.absorb]
  exact recorded.apart.sublist remain

/-- Closing a frame, when the frame around it takes its names over. -/
theorem close (recorded : Recorded scopes temps history)
    (closes : Closes temps history outer parent closed outer' parent' closed' after) :
    Recorded scopes after
      { history with
        frames := outer' ++ [parent']
        returned := history.returned ++ [⟨closed.declared, history.due closed'.serial⟩] } where
  -- The frame that is gone lives on in its parent, which has absorbed its names.
  length := by simp [closes.nowFrames, closes.sameLength]
  ordered := recorded.ordered.sublist closes.kept
  module := by
    have module := recorded.module
    rw [closes.frames'] at module
    cases outer' <;> simpa using module
  openBefore opened mem := recorded.openBefore opened (closes.kept.subset mem)
  handedBefore := recorded.handedBefore
  grouped := recorded.grouped
  owner := by
    rintro index frame opened ⟨now, now'⟩
    obtain ⟨frame', before, ⟨rfl, -⟩ | ⟨-, rfl, rfl⟩⟩ := closes.cases now now'
    · exact recorded.owner before
    · exact (recorded.owner before :)
  owned := by
    rintro index frame opened ⟨now, now'⟩
    obtain ⟨frame', before, ⟨rfl, -⟩ | ⟨-, rfl, rfl⟩⟩ := closes.cases now now'
    · exact recorded.owned before
    · exact (recorded.owned before :)
  declared := by
    rintro index frame opened ⟨now, now'⟩
    obtain ⟨frame', before, ⟨rfl, -⟩ | ⟨-, rfl, rfl⟩⟩ := closes.cases now now'
    · exact recorded.declared before
    · exact (recorded.declared before :)
  covered := by
    rintro index frame opened ⟨now, now'⟩
    exact (closes.covered recorded now now' :)
  apart := closes.apart recorded
  unrecorded := recorded.unrecorded
  handedOut := by
    rw [closes.nowHandedOut]
    exact recorded.handedOut
  fresh := recorded.fresh
  returned := by
    intro answer mem
    rcases List.mem_append.mp mem with old | new
    · exact recorded.returned answer old
    · rw [List.mem_singleton.mp new]
      exact recorded.declares closes.opens

end Close

/-- Closing a frame inside the module. -/
theorem pop (recorded : Recorded scopes temps history) (inside : temps.current ≠ 0) :
    ∃ declared after, temps.pop? = some (declared, after)
      ∧ Recorded scopes after (history.record .pop (.declared declared)) := by
  obtain ⟨outer, parent, closed, after, given, frames, nowFrames, nowHandedOut⟩ :=
    Temps.pop?_spec inside
  have length := recorded.length
  -- The history has as many open frames as there are, so it also ends with a parent and its child.
  obtain ⟨outer', parent', closed', frames', sameLength⟩ :
      ∃ outer' parent' closed', history.frames = outer' ++ [parent', closed']
        ∧ outer'.length = outer.length := by
    simp only [frames, List.length_append, List.length_cons, List.length_nil] at length
    obtain ⟨parent', closed', behind⟩ :
        ∃ parent' closed', history.frames.drop outer.length = [parent', closed'] := by
      have two : (history.frames.drop outer.length).length = 2 := by simp; omega
      rcases shape : history.frames.drop outer.length with _ | ⟨first, _ | ⟨second, _ | _⟩⟩ <;>
        simp_all
    refine ⟨history.frames.take outer.length, parent', closed', ?_, by simp; omega⟩
    rw [← behind, List.take_append_drop]
  -- On both sides the innermost frame goes, and what it declares is returned.
  have record : history.record .pop (.declared closed.declared)
      = { history with
          frames := outer' ++ [parent']
          returned := history.returned ++ [⟨closed.declared, history.due closed'.serial⟩] } := by
    simp [TempHistory.record, frames', List.dropLast_append_of_ne_nil]
  refine ⟨closed.declared, after, given, ?_⟩
  rw [record]
  exact recorded.close { frames, frames', sameLength, nowFrames, nowHandedOut }

section FinishGroup

variable {index : Nat} {frame : Frame} {opened : OpenFrame}

/-- The frame of the module is open all the time. -/
theorem opens_module (recorded : Recorded scopes temps history) :
    history.Opens temps 0 temps.module ⟨0, ScopeTree.root⟩ := by
  obtain ⟨others, module⟩ : ∃ others, history.frames = ⟨0, ScopeTree.root⟩ :: others := by
    have module := recorded.module
    cases frames : history.frames <;> simp_all
  exact ⟨rfl, by rw [module]; rfl⟩

/-- When a group ends, only the module changes, which then has nothing to declare. -/
theorem opens_finishGroup (recorded : Recorded scopes temps history)
    (now : temps.finishGroup.2.frames[index]? = some frame)
    (now' : history.frames[index]? = some opened) :
    ∃ frame', history.Opens temps index frame' opened
      ∧ (index = 0 ∧ opened.serial = 0 ∧ frame = { frame' with nextSeq := 0, declared := [] }
        ∨ opened.serial ≠ 0 ∧ frame = frame') := by
  have isModule := recorded.opens_module
  -- A group ends in the frame of the module alone; the others keep what they declare.
  cases index with
  | zero =>
    obtain rfl := Option.some.inj (now'.symm.trans isModule.2)
    exact ⟨temps.module, isModule, .inl ⟨rfl, rfl, (Option.some.inj now).symm⟩⟩
  | succ index =>
    refine ⟨frame, ⟨now, now'⟩, .inr ⟨fun isZero => ?_, rfl⟩⟩
    have := recorded.index_unique now' isModule.2 isZero
    omega

/-- When a group ends, the names of the module all belong to groups that have ended. -/
theorem due_finishGroup_module (recorded : Recorded scopes temps history) :
    (history.record .finishGroup (.declared temps.finishGroup.1)).due 0 = [] := by
  refine List.filter_eq_nil_iff.mpr fun handed mem => ?_
  have bound := recorded.grouped handed mem
  by_cases isZero : handed.frame = 0
  · rw [isZero] at bound
    simp only [TempHistory.groupOf, if_true] at bound
    have : handed.group ≠ history.groups + 1 := by omega
    simp [TempHistory.record, TempHistory.groupOf, this]
  · simp [isZero]

/-- What other frames have to declare stays. -/
theorem due_finishGroup_inside {serial : Nat} (notModule : serial ≠ 0) :
    (history.record .finishGroup (.declared temps.finishGroup.1)).due serial
      = history.due serial := by
  simp [TempHistory.due, TempHistory.record, TempHistory.groupOf, notModule]

/-- Ending a group of the module. -/
theorem finishGroup (recorded : Recorded scopes temps history) :
    Recorded scopes temps.finishGroup.2
      (history.record .finishGroup (.declared temps.finishGroup.1)) where
  -- Only the module's declarations are given back, so every field but these is the one from before.
  length := by simp [TempHistory.record, Temps.frames_finishGroup, recorded.length]
  ordered := recorded.ordered
  module := recorded.module
  openBefore := recorded.openBefore
  handedBefore := recorded.handedBefore
  grouped := by
    intro handed mem
    refine Nat.le_trans (recorded.grouped handed mem) ?_
    simp only [TempHistory.record, TempHistory.groupOf]
    split <;> omega
  owner := by
    rintro index frame opened ⟨now, now'⟩
    obtain ⟨frame', before, ⟨-, -, rfl⟩ | ⟨-, rfl⟩⟩ := recorded.opens_finishGroup now now'
    · exact (recorded.owner before :)
    · exact recorded.owner before
  owned := by
    rintro index frame opened ⟨now, now'⟩
    obtain ⟨frame', before, ⟨-, -, rfl⟩ | ⟨-, rfl⟩⟩ := recorded.opens_finishGroup now now'
    · exact (recorded.owned before :)
    · exact recorded.owned before
  declared := by
    rintro index frame opened ⟨now, now'⟩
    obtain ⟨frame', before, ⟨-, isZero, rfl⟩ | ⟨notModule, rfl⟩⟩ :=
      recorded.opens_finishGroup now now'
    · rw [isZero, recorded.due_finishGroup_module]
      rfl
    · rw [due_finishGroup_inside notModule]
      exact recorded.declared before
  covered := by
    rintro index frame opened ⟨now, now'⟩
    obtain ⟨frame', before, ⟨-, -, rfl⟩ | ⟨-, rfl⟩⟩ := recorded.opens_finishGroup now now'
    · exact (recorded.covered before :)
    · exact recorded.covered before
  apart := recorded.apart
  unrecorded := recorded.unrecorded
  handedOut := recorded.handedOut
  fresh := recorded.fresh
  returned := by
    intro answer mem
    rcases List.mem_append.mp mem with old | new
    · exact recorded.returned answer old
    · rw [List.mem_singleton.mp new]
      exact recorded.declares recorded.opens_module

end FinishGroup

/-- The open frames are as many as the history says. -/
theorem current_eq (recorded : Recorded scopes temps history) :
    temps.current = history.frames.length - 1 := by
  rw [recorded.length]
  simp

/-- Every request that can be made is answered. -/
theorem answer (recorded : Recorded scopes temps history) {request : TempRequest} {depth : Nat}
    (proper : request.depth? temps.current = some depth) :
    ∃ answer after, temps.answer? scopes request = some (answer, after)
      ∧ after.current = depth ∧ Recorded scopes after (history.record request answer) := by
  have current := recorded.current_eq
  -- Every kind of request has its own lemma; what is left to see is the depth that it leads to.
  cases request with
  | push kind owner =>
    have after := recorded.push kind owner
    refine ⟨.done, _, rfl, ?_, after⟩
    obtain rfl : temps.current + 1 = depth := by simpa [TempRequest.depth?] using proper
    rfl
  | pop =>
    simp only [TempRequest.depth?, Option.ite_none_left_eq_some, Option.some.injEq] at proper
    obtain ⟨inside, rfl⟩ := proper
    obtain ⟨declared, after, given, recorded'⟩ := recorded.pop inside
    refine ⟨.declared declared, after, by simp [Temps.answer?, given], ?_, recorded'⟩
    rw [recorded'.current_eq, current]
    simp [TempHistory.record]
  | alloc index base init declare =>
    simp only [TempRequest.depth?, Option.ite_none_right_eq_some, Option.some.injEq] at proper
    obtain ⟨isOpen, rfl⟩ := proper
    obtain ⟨name, after, given, recorded'⟩ := recorded.alloc isOpen base init declare
    refine ⟨.name name, after, by simp [Temps.answer?, given], ?_, recorded'⟩
    rw [recorded'.current_eq, current]
    rfl
  | finishGroup =>
    refine ⟨_, _, rfl, ?_, recorded.finishGroup⟩
    obtain rfl : temps.current = depth := by simpa [TempRequest.depth?] using proper
    rfl

/-- So are all requests that are made one after the other. -/
theorem answerAll (requests : List TempRequest) :
    ∀ {temps : Temps} {history : TempHistory}, Recorded scopes temps history →
      Proper temps.current requests →
      ∃ after history', Temps.answerAll? scopes requests (temps, history) = some (after, history')
        ∧ Recorded scopes after history' := by
  -- The depth that a request leads to is that at which the others start.
  induction requests with
  | nil => exact fun {temps history} recorded _ => ⟨temps, history, rfl, recorded⟩
  | cons request rest ih =>
    intro temps history recorded proper
    simp only [Proper, List.foldlM_cons] at proper
    cases next : request.depth? temps.current with
    | none => simp [next] at proper
    | some depth =>
      obtain ⟨answer, middle, answered, rfl, recorded'⟩ := recorded.answer next
      obtain ⟨after, history', given, recorded''⟩ := ih recorded' (by simpa [Proper, next] using proper)
      refine ⟨after, history', ?_, recorded''⟩
      rw [Temps.answerAll?, answered]
      exact given

/-- What is known at every moment shows that the names do not meet. -/
theorem hygienic (recorded : Recorded scopes temps history) : Hygienic scopes temps history where
  apart := recorded.apart
  unrecorded := by
    -- What a frame holds was handed out to it, and nothing that is handed out is a recorded name.
    intro frame mem name held
    obtain ⟨index, found⟩ := List.mem_iff_getElem?.mp mem
    have inside : index < history.frames.length := by
      rw [recorded.length]
      exact (List.getElem?_eq_some_iff.mp found).1
    obtain ⟨handed, isHanded, -, rfl⟩ :=
      (recorded.owned ⟨found, List.getElem?_eq_getElem inside⟩ name).mp held
    exact recorded.unrecorded handed isHanded
  owned := recorded.owned
  handedOut := recorded.handedOut
  fresh := recorded.fresh
  returned := recorded.returned

end Recorded

end Downlevel
