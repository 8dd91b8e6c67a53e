import Downlevel.Proofs.Scoping.Steps
import Downlevel.Proofs.Scoping.Worlds
import Downlevel.Proofs.TempHistory

/-! Steps that hand out names, that go into a frame or an owner, and that look for what `this` and
`arguments` mean. -/

namespace Downlevel

open Lowering

namespace Temps

variable {temps after : Temps}

/-- What is declared depends on the frames alone. -/
theorem declaredAt_frames (temps : Temps) (index : Nat) :
    temps.declaredAt index = (temps.frames[index]?).elim [] (·.declared) :=
  rfl

/-- There are no frames further inside than the innermost one. -/
theorem declaredAt_outside {index : Nat} (outside : temps.current < index) :
    temps.declaredAt index = [] := by
  rw [declaredAt_frames, List.getElem?_eq_none (by simp; omega)]
  rfl

/-- A new frame declares nothing yet. -/
@[simp] theorem declaredAt_push (kind : FrameKind) (owner : ScopeId) (index : Nat) :
    (temps.push kind owner).declaredAt index = temps.declaredAt index := by
  simp only [declaredAt_frames, frames_push, List.getElem?_append]
  split
  · rfl
  · have outside : temps.frames[index]? = none := List.getElem?_eq_none (by omega)
    rw [outside]
    cases index - temps.frames.length <;> rfl

/-- Only the innermost frame is closed. -/
theorem pop?_declares (inside : 0 < temps.current) :
    ∃ after, temps.pop? = some (temps.declaredAt temps.current, after)
      ∧ after.current + 1 = temps.current
      ∧ ∀ index, after.declaredAt index
          = if index < temps.current then temps.declaredAt index else [] := by
  -- The frames before the last stay, and the parent takes over the names of the closed one.
  obtain ⟨outer, parent, closed, after, popped, isBefore, isAfter, -⟩ :=
    pop?_spec (Nat.pos_iff_ne_zero.mp inside)
  have size := congrArg List.length isBefore
  have size' := congrArg List.length isAfter
  simp only [length_frames, List.length_append, List.length_cons, List.length_nil] at size size'
  have last : temps.declaredAt temps.current = closed.declared := by
    have place : temps.current = (outer ++ [parent]).length := by simp; omega
    rw [declaredAt_frames, isBefore, List.append_cons, place]
    simp
  refine ⟨after, last ▸ popped, by omega, fun index => ?_⟩
  simp only [declaredAt_frames, isBefore, isAfter]
  split
  · -- Below the parent nothing changed; the parent absorbs names and no declarations; above it
    -- there is no frame.
    rename_i below
    rcases Nat.lt_or_ge index outer.length with early | late
    · simp [List.getElem?_append_left early]
    · obtain rfl : index = outer.length := by omega
      simp [Frame.absorb]
  · rw [List.getElem?_eq_none (by simp; omega)]
    rfl

/-- An open frame hands out a name like the base, and declares it if it is asked to. -/
theorem allocIn?_declares {index : Nat} (isOpen : index ≤ temps.current) (scopes : ScopeTree)
    (base : Option String) (init : Option Expr) (declare : Bool) :
    ∃ name after, temps.allocIn? index scopes base init declare = some (name, after)
      ∧ (∃ taken seq, name = freshName taken (base.getD ("_" ++ shortName seq)))
      ∧ after.current = temps.current
      ∧ ∃ temp : Temp, temp.name = name ∧ temp.init = init
        ∧ ∀ place, after.declaredAt place
          = temps.declaredAt place ++ if declare ∧ place = index then [temp] else [] := by
  -- The frame is there, so a name is given; only its list of declarations grows, by at most one.
  have inside : index < temps.frames.length := by simp; omega
  have found : temps.frame? index = some temps.frames[index] := List.getElem?_eq_getElem inside
  let name := freshName (temps.taken temps.frames[index] scopes)
    (base.getD ("_" ++ shortName temps.frames[index].nextSeq))
  refine ⟨name, _, by rw [allocIn?, found]; rfl, ⟨_, _, rfl⟩, ?_, ?_⟩
  · exact current_modifyFrame ..
  refine ⟨⟨temps.frames[index].owner, name, temps.frames[index].nextSeq, init⟩, rfl, rfl, ?_⟩
  intro place
  have frames (temps : Temps) (handedOut : NameSet) :
      ({ temps with handedOut } : Temps).declaredAt place = temps.declaredAt place := rfl
  simp only [frames]
  simp only [declaredAt_frames, frames_modifyFrame, List.getElem?_modify]
  by_cases isPlace : index = place
  · subst isPlace
    rw [List.getElem?_eq_getElem inside]
    cases declare <;> simp [name]
  · simp only [isPlace, if_false, Ne.symm isPlace, and_false, List.append_nil]
    cases temps.frames[place]? <;> rfl

end Temps

namespace Realm

variable {α β : Type} {realm : Realm} {mayBeParams : Bool} {setting : Setting}
  {before after : Progress} {step : Lower α} {described : World → α → Prop}

section Names

/-- Names that are handed out keep everything in order, and the frame declares only those that it is
asked to. -/
theorem goes_allocIn {stem : String} {inParams : Bool} {index : Nat} {temp : Temp} {temps : Temps}
    {declare : Bool} (current : temps.current = before.temps.current)
    (declares : ∀ place, temps.declaredAt place
      = before.temps.declaredAt place ++ if declare ∧ place = index then [temp] else [])
    (may : declare = true → before.MayDeclare inParams index temp)
    (sound : temp.IsSound stem) : before.Goes stem inParams { before with temps } := by
  -- What a frame declares was there before or is the new one, which may be declared there.
  refine ⟨current, fun place => ⟨_, declares place, fun other mem => ?_⟩, rfl, fun isSound => ?_⟩
  · split at mem
    · rename_i asked
      rw [List.mem_singleton.mp mem, asked.2]
      exact may asked.1
    · cases mem
  · constructor
    · intro place other mem
      rw [declares place] at mem
      rcases List.mem_append.mp mem with early | late
      · exact isSound.temps place other early
      · split at late
        · exact List.mem_singleton.mp late ▸ sound
        · cases late
    · exact isSound.owners
    · intro owner mem isFunction
      obtain ⟨isOpen, aliases⟩ := isSound.aliases owner mem isFunction
      refine ⟨current ▸ isOpen, fun name isAlias => ?_⟩
      obtain ⟨own, inFrame, isName⟩ := aliases name isAlias
      refine ⟨own, ?_, isName⟩
      rw [declares owner.frame]
      exact List.mem_append_left _ inFrame

/-- What becomes of asking for a name of an open frame. -/
theorem run_allocIn {stem : String} {index : Nat} (base : Option String) (init : Option Expr)
    (declare : Bool) (isOpen : index ≤ before.temps.current)
    (isWritable : ∀ text ∈ base, Writable stem text)
    (starts : ∀ value ∈ init, value.shape = .this ∨ value.shape = .id "arguments")
    (may : declare = true → ∀ temp : Temp, temp.init = init →
      (∀ text ∈ base, text.toList <+: temp.name.toList) →
      before.MayDeclare setting.inParams index temp) :
    ∃ name after, allocIn index base init declare setting before = .ok (name, after)
      ∧ before.Goes stem setting.inParams after
      ∧ Writable stem name
      ∧ (base = none → '\x00' ∉ name.toList)
      ∧ (declare = true → ∃ temp ∈ after.temps.declaredAt index, temp.name = name)
      ∧ after.owners = before.owners := by
  -- The name is fresh over its base, so it starts as the base does and is writable as the base is.
  obtain ⟨name, temps, given, ⟨taken, seq, isFresh⟩, current, temp, isName, isInit, declares⟩ :=
    before.temps.allocIn?_declares isOpen setting.scopes base init declare
  have isWritable' : Writable stem name := by
    rw [isFresh]
    apply writable_freshName
    cases base with
    | none => exact writable_of_head (c := '_') (by simp) (by decide)
    | some text => exact isWritable text rfl
  refine ⟨name, { before with temps }, allocIn_of_some given, ?_, isWritable', ?_, ?_, rfl⟩
  · apply goes_allocIn current declares
    · intro isDeclared
      apply may isDeclared temp isInit
      rintro text isBase
      obtain ⟨rest, spelled⟩ := freshName_prefix taken (base.getD ("_" ++ shortName seq))
      rw [isName, isFresh, spelled, Option.mem_def.mp isBase]
      exact List.prefix_append ..
    · exact ⟨isName ▸ isWritable', isInit ▸ starts⟩
  · rintro rfl
    rw [isFresh]
    apply noNull_freshName
    rw [Option.getD_none, String.toList_append, List.mem_append, not_or]
    exact ⟨by decide, noNull_shortName seq⟩
  · intro isDeclared
    refine ⟨temp, ?_, isName⟩
    rw [declares index]
    simp [isDeclared]

/-- A name of the innermost frame can be written, and is bound if the frame declares it. -/
theorem works_allocHere (base : Option String)
    (isWritable : ∀ text ∈ base, Writable realm.stem text) (declare : Bool) :
    realm.Works false (allocHere base declare) fun world name =>
      (Writable realm.stem name ∧ (base = none → '\x00' ∉ name.toList))
        ∧ (declare = true → world name) := by
  intro setting before fits
  have here : allocHere base declare setting before
      = allocIn before.temps.current base none declare setting before := rfl
  obtain ⟨name, after, run, goes, writable, noNull, declares, -⟩ :=
    -- Where the step runs outside of parameters, everything may be declared in the current frame.
    run_allocIn base none declare (Nat.le_refl _) isWritable (by simp) fun _ _ _ _ =>
      .inr (.inr ⟨rfl, fits.outside⟩)
  rw [here, run]
  constructor
  · rintro _ ⟨⟩
  · rintro _ _ ⟨⟩
    refine ⟨goes, fun world covers => ⟨⟨writable, noNull⟩, fun isDeclared => ?_⟩⟩
    obtain ⟨temp, mem, isName⟩ := declares isDeclared
    exact covers name (.declared _ temp mem isName)

/-- A name that is handed out can be written, and is declared. -/
theorem works_alloc : realm.Works false alloc fun world name =>
    (Writable realm.stem name ∧ '\x00' ∉ name.toList) ∧ world name :=
  (works_allocHere none nofun true).weaken fun _ _ _ known =>
    ⟨⟨known.1.1, known.1.2 rfl⟩, known.2 rfl⟩

/-- A name that is handed out to be bound can be written. -/
theorem works_allocBound :
    realm.Works false allocBound fun _ name => Writable realm.stem name :=
  (works_allocHere none nofun false).weaken fun _ _ _ known => known.1.1

/-- A name with a base can be written if the base can, and is declared. -/
theorem works_allocNamed {base : String} (isWritable : Writable realm.stem base) :
    realm.Works false (allocNamed base) fun world name => Writable realm.stem name ∧ world name :=
  (works_allocHere (some base) (by simpa using isWritable) true).weaken fun _ _ _ known =>
    ⟨known.1.1, known.2 rfl⟩

/-- A bound name with a base can be written if the base can. -/
theorem works_allocNamedBound {base : String} (isWritable : Writable realm.stem base) :
    realm.Works false (allocNamedBound base) fun _ name => Writable realm.stem name :=
  (works_allocHere (some base) (by simpa using isWritable) false).weaken fun _ _ _ known => known.1.1

/-- A name of the module, which is declared wherever the lowering is. -/
theorem works_allocOfModule : realm.Works mayBeParams (allocIn 0 none none true) fun world name =>
    world name := by
  intro setting before fits
  obtain ⟨name, after, run, goes, -, -, declares, -⟩ :=
    run_allocIn none none true (Nat.zero_le _) nofun nofun fun _ _ _ _ => .inr (.inl rfl)
  rw [run]
  refine ⟨nofun, ?_⟩
  rintro _ _ ⟨⟩
  refine ⟨goes, fun world covers => ?_⟩
  obtain ⟨temp, mem, isName⟩ := declares rfl
  exact covers name (.declared _ temp mem isName)

end Names

section Inside

/-- A world in which all names are bound that code may mention outside of the innermost frame. -/
structure CoversAround (realm : Realm) (progress : Progress) (world : World) : Prop where
  given : ∀ name, realm.given name → world name
  runtime : ∀ name ∈ runtimeNames, world name
  declared : ∀ index ≠ progress.temps.current, ∀ temp ∈ progress.temps.declaredAt index,
    world temp.name
  placeholder : ∀ owner ∈ progress.owners, owner.kind = .staticInit →
    ∀ name ∈ owner.thisAlias, world name

/-- A step in a new frame, whose result is described by what is bound around the frame and by what
the frame declares. -/
def WorksFresh (realm : Realm) (mayBeParams : Bool) (step : Lower α)
    (described : World → List Temp → α → Prop) : Prop :=
  ∀ setting before, realm.Fits mayBeParams setting before → 0 < before.temps.current →
    before.temps.declaredAt before.temps.current = [] →
    (∀ fault, step setting before = .error fault → ¬realm.isClean)
      ∧ ∀ result after, step setting before = .ok (result, after) →
        before.Goes realm.stem false after
          ∧ ∀ world, realm.CoversAround after world →
            described world (after.temps.declaredAt after.temps.current) result

/-- The names of a frame complete the world around it. -/
theorem CoversAround.plus {progress : Progress} {world : World} {names : List String}
    (covers : realm.CoversAround progress world) (sound : progress.IsSound realm.stem)
    (complete : ∀ temp ∈ progress.temps.declaredAt progress.temps.current, temp.name ∈ names) :
    realm.Covers progress (world.plus realm.stem names) := by
  intro name sees
  -- Each way a name is seen in the current frame is one of the surroundings, or a declaration that
  -- the new names hold.
  cases sees with
  | given holds => exact .inl (covers.given name holds)
  | runtime mem => exact .inl (covers.runtime name mem)
  | placeholder owner mem isStatic isAlias =>
    exact .inl (covers.placeholder owner mem isStatic name isAlias)
  | declared index temp mem isName =>
    subst isName
    by_cases isCurrent : index = progress.temps.current
    · subst isCurrent
      exact .inr ⟨complete temp mem, (sound.temps _ temp mem).writable⟩
    · exact .inl (covers.declared index isCurrent temp mem)

/-- What is bound around the innermost frame later on covers what code may mention earlier. -/
theorem CoversAround.earlier {inParams : Bool} {world : World}
    (covers : realm.CoversAround after world) (goes : before.Goes realm.stem inParams after) :
    realm.CoversAround before world where
  given := covers.given
  runtime := covers.runtime
  declared index isOther temp mem :=
    covers.declared index (goes.current ▸ isOther) temp (goes.keeps mem)
  placeholder owner mem isStatic name isAlias := by
    -- The owners keep their identity, so a placeholder found before is found after.
    have mapped : owner.identity ∈ after.owners.map (·.identity) := by
      rw [goes.owners]
      exact List.mem_map_of_mem mem
    obtain ⟨same, mem', identity⟩ := List.mem_map.mp mapped
    obtain ⟨isStatic', isAlias'⟩ := Owner.placeholder_of_identity identity isStatic
    exact covers.placeholder same mem' isStatic' name (isAlias' ▸ isAlias)

/-- Outside of parameters, any step is one for a new frame. -/
theorem Works.fresh (holds : realm.Works false step described) :
    realm.WorksFresh false step fun world declared result =>
      described (world.plus realm.stem (declared.map (·.name))) result := by
  intro setting before fits _ _
  have outside := fits.outside
  obtain ⟨fails, ends⟩ := holds setting before fits
  refine ⟨fails, fun result after run => ?_⟩
  obtain ⟨goes, shown⟩ := ends result after run
  exact ⟨outside ▸ goes, fun world covers =>
    shown _ (covers.plus (goes.sound fits.sound) fun _ => List.mem_map_of_mem)⟩

/-- In a new frame, a step is outside of parameters even if the frame is inside of them. -/
theorem Works.freshOutside (holds : realm.Works false step described) :
    realm.WorksFresh mayBeParams
      (MonadWithReader.withReader (fun setting : Setting => { setting with inParams := false }) step)
      fun world declared result =>
        described (world.plus realm.stem (declared.map (·.name))) result := by
  intro setting before fits inside noNames
  exact holds.fresh { setting with inParams := false } before
    ⟨fits.stem, fits.known, fits.classes, nofun, fits.sound⟩ inside noNames

/-- The moment at which a frame has just been opened. -/
abbrev opening (progress : Progress) (kind : FrameKind) (owner : ScopeId) : Progress :=
  { progress with temps := progress.temps.push kind owner }

section Opening

variable {kind : FrameKind} {owner : ScopeId}

/-- A frame that has just been opened is inside of the others. -/
theorem current_opening :
    (opening before kind owner).temps.current = before.temps.current + 1 := by
  simp [Temps.push, Temps.current]

/-- A frame that has just been opened has nothing to declare. -/
theorem declaredAt_opening :
    (opening before kind owner).temps.declaredAt (opening before kind owner).temps.current = [] := by
  rw [before.temps.declaredAt_push, current_opening]
  exact before.temps.declaredAt_outside (Nat.lt_succ_self _)

/-- In a new frame, code may mention the same names. -/
theorem sees_opening {given : World} {name : String} (sees : before.Sees given name) :
    (opening before kind owner).Sees given name := by
  cases sees with
  | given holds => exact .given holds
  | runtime mem => exact .runtime mem
  | declared index temp mem isName =>
    exact .declared index temp (before.temps.declaredAt_push kind owner index ▸ mem) isName
  | placeholder own mem isStatic isAlias => exact .placeholder own mem isStatic isAlias

/-- The run goes on in the new frame. -/
theorem Fits.opening (fits : realm.Fits mayBeParams setting before) :
    realm.Fits mayBeParams setting (opening before kind owner) where
  -- Opening a frame adds one that declares nothing, so what was seen is still seen.
  stem := fits.stem
  known name holds := sees_opening (fits.known name holds)
  classes privates inClasses entry inPrivates binding isBinding name isName :=
    sees_opening (fits.classes privates inClasses entry inPrivates binding isBinding name isName)
  params inParams := by
    refine ⟨(fits.params inParams).1, by rw [current_opening]; omega, fun temp mem => ?_⟩
    rw [declaredAt_opening] at mem
    cases mem
  sound :=
    { temps := fun index temp mem =>
        fits.sound.temps index temp (before.temps.declaredAt_push kind owner index ▸ mem)
      owners := fits.sound.owners
      aliases := fun own mem isFunction => by
        obtain ⟨isOpen, aliases⟩ := fits.sound.aliases own mem isFunction
        refine ⟨by rw [current_opening]; omega, fun name isAlias => ?_⟩
        exact before.temps.declaredAt_push kind owner own.frame ▸ aliases name isAlias }

end Opening

/-- A step has ended in a frame that was opened for it, and the frame is closed again. -/
structure Closing (realm : Realm) (before : Progress) (kind : FrameKind) (owner : ScopeId)
    (progress : Progress) (temps : Temps) : Prop where
  goes : (opening before kind owner).Goes realm.stem false progress
  current : temps.current + 1 = progress.temps.current
  left : ∀ index, temps.declaredAt index
    = if index < progress.temps.current then progress.temps.declaredAt index else []

namespace Closing

variable {kind : FrameKind} {owner : ScopeId} {progress : Progress} {temps : Temps}

/-- The innermost frame is the one that was it before. -/
theorem back (closing : realm.Closing before kind owner progress temps) :
    temps.current = before.temps.current := by
  have inner := closing.goes.current
  rw [current_opening, ← closing.current] at inner
  exact Nat.succ.inj inner

/-- The frames around have to declare what they had to, and maybe other names for `this` and
`arguments`, or names of the module. -/
theorem declared (closing : realm.Closing before kind owner progress temps) {inParams : Bool}
    (index : Nat) :
    ∃ more, temps.declaredAt index = before.temps.declaredAt index ++ more
      ∧ ∀ temp ∈ more, before.MayDeclare inParams index temp := by
  have current := closing.goes.current
  rw [current_opening] at current
  rw [closing.left]
  -- A frame further out than the closed one has what the inner run added for it.
  split
  · obtain ⟨more, grown, may⟩ := closing.goes.declared index
    refine ⟨more, by rw [grown, before.temps.declaredAt_push], fun temp mem => ?_⟩
    rcases may temp mem with isAlias | isModule | ⟨isCurrent, -⟩
    · exact .inl isAlias
    · exact .inr (.inl isModule)
    · -- What belonged to the frame is gone with it.
      rw [current_opening] at isCurrent
      omega
  · exact ⟨[], by rw [before.temps.declaredAt_outside (by omega)]; rfl, by simp⟩

/-- The owners have been there before, so their frames are among those that stay. -/
theorem aliases (closing : realm.Closing before kind owner progress temps)
    (early : before.IsSound realm.stem) (sound : progress.IsSound realm.stem) :
    ∀ own ∈ progress.owners, own.AliasesIn temps := by
  intro own mem isFunction
  obtain ⟨-, aliases⟩ := sound.aliases own mem isFunction
  have mapped : own.identity ∈ before.owners.map (·.identity) := by
    rw [← closing.goes.owners]
    exact List.mem_map_of_mem mem
  -- The owner's frame was open before the inner one, so closing does not touch it.
  obtain ⟨same, mem', identity⟩ := List.mem_map.mp mapped
  simp only [Owner.identity, Prod.mk.injEq] at identity
  have isOpen := (early.aliases same mem' (identity.1.trans isFunction)).1
  rw [identity.2.1, ← closing.back] at isOpen
  refine ⟨isOpen, fun name isAlias => ?_⟩
  rw [closing.left, if_pos (by have := closing.current; omega)]
  exact aliases name isAlias

/-- The names of the frames that are left are in order. -/
theorem isSound (closing : realm.Closing before kind owner progress temps)
    (early : before.IsSound realm.stem) (sound : progress.IsSound realm.stem) :
    ({ progress with temps } : Progress).IsSound realm.stem where
  temps index temp mem := by
    have mem : temp ∈ temps.declaredAt index := mem
    rw [closing.left] at mem
    split at mem
    · exact sound.temps index temp mem
    · cases mem
  owners := sound.owners
  aliases := closing.aliases early sound

/-- What is bound around the frame is what code may mention once it is closed. -/
theorem coversAround (closing : realm.Closing before kind owner progress temps) {world : World}
    (covers : realm.Covers { progress with temps } world) : realm.CoversAround progress world where
  given name holds := covers name (.given holds)
  runtime name mem := covers name (.runtime mem)
  declared index isOther temp mem := by
    rcases Nat.lt_or_gt_of_ne isOther with below | outside
    · refine covers _ (.declared index temp ?_ rfl)
      show temp ∈ temps.declaredAt index
      rwa [closing.left, if_pos below]
    · rw [progress.temps.declaredAt_outside outside] at mem
      cases mem
  placeholder own mem isStatic name isAlias := covers name (.placeholder own mem isStatic isAlias)

end Closing

/-- A step in a frame of its own. -/
theorem WorksFresh.inFrame {kind : FrameKind} {owner : ScopeId}
    {described : World → List Temp → α → Prop}
    (holds : realm.WorksFresh mayBeParams step described) :
    realm.Works mayBeParams (Lowering.inFrame kind owner step) fun world (result, declared) =>
      (∀ temp ∈ declared, temp.IsSound realm.stem) ∧ described world declared result := by
  intro setting before fits
  have inside : 0 < (opening before kind owner).temps.current := by rw [current_opening]; omega
  obtain ⟨fails, ends⟩ := holds setting (opening before kind owner) fits.opening inside
    declaredAt_opening
  cases ran : step setting (opening before kind owner) with
  | error fault =>
    rw [inFrame_of_error ran]
    refine ⟨fun _ _ => fails fault ran, fun _ _ run => ?_⟩
    cases run
  | ok ended =>
    obtain ⟨result, progress⟩ := ended
    obtain ⟨goes, shown⟩ := ends result progress ran
    -- The frame is still the innermost one, so it is the one that is closed.
    obtain ⟨temps, closed, current, left⟩ :=
      progress.temps.pop?_declares (goes.current ▸ inside)
    have closing : realm.Closing before kind owner progress temps := ⟨goes, current, left⟩
    have sound := goes.sound fits.opening.sound
    rw [inFrame_of_some ran closed]
    refine ⟨by rintro _ ⟨⟩, ?_⟩
    rintro _ _ ⟨⟩
    refine ⟨⟨closing.back, fun _ => closing.declared _, goes.owners,
      fun _ => closing.isSound fits.sound sound⟩, fun world covers => ?_⟩
    exact ⟨sound.temps _, shown world (closing.coversAround covers)⟩

/-- Inside of another owner, code may mention the same names, and maybe the placeholder of a class. -/
theorem sees_enter {given : World} {owner : Owner} {name : String} (sees : before.Sees given name) :
    ({ before with owners := owner :: before.owners } : Progress).Sees given name := by
  cases sees with
  | given holds => exact .given holds
  | runtime mem => exact .runtime mem
  | declared index temp mem isName => exact .declared index temp mem isName
  | placeholder own mem isStatic isAlias =>
    exact .placeholder own (List.mem_cons_of_mem _ mem) isStatic isAlias

/-- The run goes on inside of another owner, outside of parameters. -/
theorem Fits.enter {owner : Owner} (fits : realm.Fits mayBeParams setting before)
    (own : owner.AliasesIn before.temps) :
    realm.Fits false { setting with inParams := false }
      { before with owners := owner :: before.owners } where
  stem := fits.stem
  known name holds := sees_enter (fits.known name holds)
  classes privates inClasses entry inPrivates binding isBinding name isName :=
    sees_enter (fits.classes privates inClasses entry inPrivates binding isBinding name isName)
  params := nofun
  sound := ⟨fits.sound.temps, nofun, List.forall_mem_cons.mpr ⟨own, fits.sound.aliases⟩⟩

/-- What becomes of a step inside of another owner. -/
theorem run_inOwner {owner : Owner} (fits : realm.Fits mayBeParams setting before)
    (own : owner.AliasesIn before.temps) (ends : α → Progress → Prop) (step : Lower α)
    (inside : ∀ calm entered, realm.Fits false calm entered →
      calm = { setting with inParams := false } →
      entered = { before with owners := owner :: before.owners } →
      (∀ fault, step calm entered = .error fault → ¬realm.isClean)
        ∧ ∀ result after, step calm entered = .ok (result, after) →
          entered.Goes realm.stem false after ∧ ends result after) :
    (∀ fault, Lowering.inOwner owner step setting before = .error fault → ¬realm.isClean)
      ∧ ∀ pair after, Lowering.inOwner owner step setting before = .ok (pair, after) →
        before.Goes realm.stem false after ∧ ∃ inner : Progress, ends pair.1 inner
          ∧ inner.owners = pair.2 :: after.owners ∧ after.temps = inner.temps
          ∧ pair.2.identity = owner.identity := by
  let entered : Progress := { before with owners := owner :: before.owners }
  let calm : Setting := { setting with inParams := false }
  obtain ⟨fails, ends'⟩ := inside calm entered (fits.enter own) rfl rfl
  -- The owner given is the head of the list again when the step has ended, only marked; the list
  -- behind it is unchanged.
  cases ran : step calm entered with
  | error fault =>
    rw [inOwner_of_error ran]
    refine ⟨fun _ _ => fails fault ran, fun _ _ run => ?_⟩
    cases run
  | ok ended =>
    obtain ⟨result, progress⟩ := ended
    obtain ⟨goes, shown⟩ := ends' result progress ran
    have sound := goes.sound (fits.enter own).sound
    obtain ⟨marked, around, isInside, same, others⟩ : ∃ marked around,
        progress.owners = marked :: around ∧ marked.identity = owner.identity
        ∧ around.map (·.identity) = before.owners.map (·.identity) :=
      List.map_eq_cons_iff.mp goes.owners
    let left : Progress := { progress with owners := around }
    rw [inOwner_of_cons ran isInside]
    refine ⟨by rintro _ ⟨⟩, ?_⟩
    rintro _ _ ⟨⟩
    have stillOwned : around ≠ [] := by
      rintro rfl
      exact fits.sound.owners (List.map_eq_nil_iff.mp others.symm)
    have soundLeft : left.IsSound realm.stem :=
      ⟨sound.temps, stillOwned, fun own mem =>
        sound.aliases own (isInside ▸ List.mem_cons_of_mem _ mem)⟩
    exact ⟨⟨goes.current, goes.declared, others, fun _ => soundLeft⟩,
      progress, shown, isInside, rfl, same⟩

/-- A step inside of an initializer or a block, in which a placeholder may stand for the class. -/
theorem Works.inOwner {owner : Owner} (notFunction : owner.kind ≠ .function)
    (holds : realm.Works false step described) :
    realm.Works false (Lowering.inOwner owner step) fun world (result, _) =>
      ∀ wide : World, (∀ name, world name → wide name) →
        (owner.kind = .staticInit → ∀ name ∈ owner.thisAlias, wide name) →
        described wide result := by
  intro setting before fits
  have outside := fits.outside
  have own : owner.AliasesIn before.temps := fun isFunction => absurd isFunction notFunction
  obtain ⟨fails, ends⟩ := run_inOwner fits own
    (fun result after => ∀ world, realm.Covers after world → described world result) step
    fun calm entered fits' isCalm _ => by
      subst isCalm
      exact holds _ entered fits'
  refine ⟨fails, fun pair after run => ?_⟩
  obtain ⟨goes, inner, shown, isInside, sameTemps, identity⟩ := ends pair after run
  refine ⟨outside ▸ goes, fun world covers wide grows named => ?_⟩
  refine shown wide fun name sees => ?_
  -- What the step saw, the surroundings see, except for the placeholder of the owner that was left.
  cases sees with
  | given holds => exact grows name (covers name (.given holds))
  | runtime mem => exact grows name (covers name (.runtime mem))
  | declared index temp mem isName =>
    exact grows name (covers name (.declared index temp (sameTemps ▸ mem) isName))
  | placeholder found mem isStatic isAlias =>
    rw [isInside] at mem
    rcases List.mem_cons.mp mem with rfl | isAround
    · have kind : owner.kind = .staticInit := (congrArg Prod.fst identity).symm.trans isStatic
      obtain ⟨-, same⟩ := Owner.placeholder_of_identity identity kind
      exact named kind name (same ▸ isAlias)
    · exact grows name (covers name (.placeholder found isAround isStatic isAlias))

/-- A step inside of a function, in the frame of its body. -/
theorem WorksFresh.inOwner {owner : Progress → Owner} {described : World → List Temp → α → Prop}
    (noPlaceholder : ∀ progress, (owner progress).kind ≠ .staticInit)
    (own : ∀ progress, (owner progress).AliasesIn progress.temps)
    (holds : realm.WorksFresh false step described) :
    realm.WorksFresh false
      (do
        let progress ← get
        Lowering.inOwner (owner progress) step) fun world declared (result, _) =>
      described world declared result := by
  intro setting before fits inside noNames
  obtain ⟨fails, ends⟩ := run_inOwner fits (own before)
    (fun result after => ∀ world, realm.CoversAround after world →
      described world (after.temps.declaredAt after.temps.current) result) step
      fun calm entered fits' _ isEntered => by
      subst isEntered
      exact holds calm _ fits' inside noNames
  refine ⟨fails, fun pair after run => ?_⟩
  obtain ⟨goes, inner, shown, isInside, sameTemps, identity⟩ := ends pair after run
  refine ⟨goes, fun world covers => ?_⟩
  have kind : pair.2.kind = (owner before).kind := congrArg Prod.fst identity
  show described world (after.temps.declaredAt after.temps.current) pair.1
  rw [sameTemps]
  refine shown world ⟨covers.given, covers.runtime, sameTemps ▸ covers.declared, ?_⟩
  intro found mem isStatic
  -- A placeholder belongs to an owner around, as the one left has none.
  rw [isInside] at mem
  rcases List.mem_cons.mp mem with rfl | isAround
  · exact absurd (kind ▸ isStatic) (noPlaceholder before)
  · exact covers.placeholder found isAround isStatic

/-- The parameters of a function and what comes behind them, in the frame of its body. Of the names
that this frame declares, the parameters mention only those of `this` and `arguments`. -/
theorem Works.freshParams {β : Type} {rest : α → Lower β} (final : World → World → β → Prop)
    (first : realm.Works true step described)
    (second : ∀ result, realm.Works false (rest result) fun wide last => ∀ narrow : World,
      (∀ name, narrow name → wide name) → described narrow result → final narrow wide last) :
    realm.WorksFresh false (Lowering.inParams step >>= rest) fun world declared last =>
      final (world.plus realm.stem (declared.filterMap Temp.alias?))
        (world.plus realm.stem (declared.map (·.name))) last := by
  intro setting before fits inside noNames
  have outside := fits.outside
  let params : Setting := { setting with inParams := true }
  have both : (Lowering.inParams step >>= rest) setting before
      = (step params before >>= fun pair => rest pair.1 setting pair.2) := rfl
  have fits' : realm.Fits true params before :=
    ⟨fits.stem, fits.known, fits.classes,
      fun _ => ⟨rfl, inside, fun temp mem => by rw [noNames] at mem; cases mem⟩, fits.sound⟩
  -- The parameters run in the same frame; every declaration there is an alias, which is what the
  -- narrow world adds.
  obtain ⟨fails, ends⟩ := first params before fits'
  rw [both]
  cases begun : step params before with
  | error fault =>
    refine ⟨fun _ _ => fails fault begun, fun _ _ run => ?_⟩
    cases run
  | ok pair =>
    obtain ⟨result, middle⟩ := pair
    obtain ⟨goes, shown⟩ := ends result middle begun
    have later := fits'.later goes
    have goes' : before.Goes realm.stem setting.inParams middle := by
      refine { goes with declared := fun index => ?_ }
      obtain ⟨more, grown, may⟩ := goes.declared index
      exact ⟨more, grown, fun temp mem => (may temp mem).imp_right fun place =>
        place.imp_right fun isCurrent => ⟨isCurrent.1, outside⟩⟩
    obtain ⟨fails', ends'⟩ := second result setting middle (fits.later goes')
    refine ⟨fails', fun last after run => ?_⟩
    obtain ⟨goes₂, shown₂⟩ := ends' last after run
    rw [outside] at goes' goes₂
    refine ⟨goes'.trans goes₂, fun world covers => ?_⟩
    have sound := goes₂.sound later.sound
    -- Parameters see the aliases; the rest sees all that the frame declares.
    refine shown₂ _ (covers.plus sound fun _ => List.mem_map_of_mem) _ ?_ (shown _ ?_)
    · refine World.plus_mono (fun _ => id) fun name mem => ?_
      obtain ⟨temp, isDeclared, isAlias⟩ := List.mem_filterMap.mp mem
      refine List.mem_map.mpr ⟨temp, isDeclared, ?_⟩
      exact Temp.name_of_alias? isAlias
    · refine (covers.earlier goes₂).plus later.sound fun temp mem => ?_
      refine List.mem_filterMap.mpr ⟨temp, ?_, (later.params rfl).2.2 temp mem⟩
      rw [goes₂.current]
      exact goes₂.keeps mem

end Inside

section Receivers

/-- What became of looking through the owners for a meaning: they are only marked, and a name that
is found is declared, or stands for a class. -/
structure Found (stem : String) (inParams : Bool) (owners : List Owner) (before : Progress)
    (found : Option String) (marked : List Owner) (after : Progress) : Prop where
  goes : before.Goes stem inParams after
  same : after.owners = before.owners
  identities : marked.map (·.identity) = owners.map (·.identity)
  aliases : ∀ owner ∈ marked, owner.AliasesIn after.temps
  bound : ∀ name ∈ found,
    (∃ index, ∃ temp ∈ after.temps.declaredAt index, temp.name = name)
      ∨ ∃ owner ∈ marked, owner.kind = .staticInit ∧ owner.thisAlias = some name

variable {stem : String} {crossed : Bool} {owners : List Owner}

/-- Nothing has to be found. -/
theorem Found.nothing {inParams : Bool} {marked : List Owner}
    (identities : marked.map (·.identity) = owners.map (·.identity))
    (aliases : ∀ owner ∈ marked, owner.AliasesIn before.temps) :
    Found stem inParams owners before none marked before :=
  ⟨.refl _, rfl, identities, aliases, nofun⟩

variable (setting) in
/-- A function that gets another name declares it. -/
theorem run_allocAlias {owner : Owner} (base : String) (init : Expr)
    (isOpen : owner.frame ≤ before.temps.current) (isWritable : Writable stem base)
    (starts : init.shape = .this ∨ init.shape = .id "arguments")
    (isAlias : ∀ temp : Temp, temp.init = some init → base.toList <+: temp.name.toList →
      temp.IsAlias) :
    ∃ name after, allocIn owner.frame (some base) (some init) true setting before = .ok (name, after)
      ∧ before.Goes stem setting.inParams after ∧ after.owners = before.owners
      ∧ ∃ temp ∈ after.temps.declaredAt owner.frame, temp.name = name := by
  -- An alias may be declared in its owner's frame, whatever the setting.
  obtain ⟨name, after, run, goes, -, -, declares, same⟩ :=
    run_allocIn (some base) (some init) true isOpen (by simpa using isWritable) (by simpa using starts)
      fun _ temp isInit front => .inl (isAlias temp isInit (front base rfl))
  exact ⟨name, after, run, goes, same, declares rfl⟩

/-- Marking an owner, and going on with those around it. -/
theorem Found.around {inParams : Bool} {owner : Owner} {around : List Owner} {found : Option String}
    {marked : List Owner} (isArrow : owner.kind = .arrow)
    (others : Found stem inParams around before found marked after) {own : Owner}
    (same : own.identity = owner.identity) :
    Found stem inParams (owner :: around) before found (own :: marked) after where
  goes := others.goes
  same := others.same
  identities := by rw [List.map_cons, List.map_cons, others.identities, same]
  aliases other mem isFunction := by
    -- An arrow answers for no function of its own, so only the owners around it matter.
    rcases List.mem_cons.mp mem with rfl | inner
    · have kind : other.kind = owner.kind := congrArg Prod.fst same
      rw [kind, isArrow] at isFunction
      cases isFunction
    · exact others.aliases other inner isFunction
  bound name isFound := by
    rcases others.bound name isFound with declared | ⟨other, mem, isStatic⟩
    · exact .inl declared
    · exact .inr ⟨other, List.mem_cons_of_mem _ mem, isStatic⟩

/-- A name like `_this` that starts out as `this` stands for it. -/
theorem isAlias_this (temp : Temp) (isInit : temp.init = some (.this ⟨0, 0⟩))
    (front : "_this".toList <+: temp.name.toList) : temp.IsAlias := by
  rw [Temp.IsAlias, Temp.alias?, isInit]
  exact if_pos (List.isPrefixOf_iff_prefix.mpr front)

/-- A name like `_arguments` that starts out as `arguments` stands for it. -/
theorem isAlias_arguments (temp : Temp) (isInit : temp.init = some (.id ⟨0, 0⟩ "arguments"))
    (front : "_arguments".toList <+: temp.name.toList) : temp.IsAlias := by
  rw [Temp.IsAlias, Temp.alias?, isInit]
  exact if_pos (List.isPrefixOf_iff_prefix.mpr front)

/-- A function has got another name, besides those that it had. -/
theorem Found.made {inParams : Bool} {owner marked : Owner} {around : List Owner} {name : String}
    (isFunction : owner.kind = .function) (own : owner.AliasesIn before.temps)
    (others : ∀ other ∈ around, other.AliasesIn before.temps)
    (goes : before.Goes stem inParams after) (same : after.owners = before.owners)
    (declared : ∃ temp ∈ after.temps.declaredAt owner.frame, temp.name = name)
    (identity : marked.identity = owner.identity) (frame : marked.frame = owner.frame)
    (names : ∀ other, marked.thisAlias = some other ∨ marked.argumentsAlias = some other →
      other = name ∨ owner.thisAlias = some other ∨ owner.argumentsAlias = some other) :
    Found stem inParams (owner :: around) before (some name) (marked :: around) after where
  goes := goes
  same := same
  identities := by rw [List.map_cons, List.map_cons, identity]
  aliases := by
    refine List.forall_mem_cons.mpr ⟨fun _ => ?_, fun other mem => goes.aliasesIn (others other mem)⟩
    obtain ⟨isOpen, earlier⟩ := goes.aliasesIn own isFunction
    rw [frame]
    -- The function has the names it had, and the one just made, which its frame declares.
    refine ⟨isOpen, fun other isAlias => ?_⟩
    rcases names other isAlias with rfl | old
    · exact declared
    · exact earlier other old
  bound := by
    rintro _ ⟨⟩
    exact .inl ⟨owner.frame, declared⟩

/-- A name that a function has already is declared. -/
theorem Found.known {inParams : Bool} {owner marked : Owner} {around : List Owner} {name : String}
    (isFunction : owner.kind = .function) (own : owner.AliasesIn before.temps)
    (identities : (marked :: around).map (·.identity) = (owner :: around).map (·.identity))
    (aliases : ∀ other ∈ marked :: around, other.AliasesIn before.temps)
    (isAlias : owner.thisAlias = some name ∨ owner.argumentsAlias = some name) :
    Found stem inParams (owner :: around) before (some name) (marked :: around) before := by
  refine ⟨.refl _, rfl, identities, aliases, ?_⟩
  rintro _ ⟨⟩
  exact .inl ⟨owner.frame, (own isFunction).2 name isAlias⟩

/-- Looking for another name of `this` finds one that is declared, or makes one. -/
theorem run_findThis (aliases : ∀ owner ∈ owners, owner.AliasesIn before.temps) :
    ∃ found marked after, findThis crossed owners setting before = .ok ((found, marked), after)
      ∧ Found stem setting.inParams owners before found marked after := by
  induction owners generalizing crossed with
  | nil => exact ⟨none, [], before, rfl, .nothing rfl aliases⟩
  | cons owner around ih =>
    obtain ⟨own, others⟩ := List.forall_mem_cons.mp aliases
    let marked : Owner := { owner with usesThis := true }
    have markedAliases : ∀ other ∈ marked :: around, other.AliasesIn before.temps :=
      List.forall_mem_cons.mpr ⟨own, others⟩
    rw [findThis]
    -- An arrow passes the question on; a function answers with the name it holds or with a new one;
    -- a static initializer has its placeholder.
    cases kind : owner.kind with
    | arrow =>
      obtain ⟨found, rest, after, run, isFound⟩ := @ih (crossed || owner.losesArrow) others
      refine ⟨found, marked :: rest, after, ?_, isFound.around kind rfl⟩
      show (findThis (crossed || owner.losesArrow) around setting before >>= _) = _
      rw [run]
      simp only [marked, kind]
      rfl
    | function =>
      by_cases isCrossed : crossed = true
      · cases isNamed : owner.thisAlias with
        | some name =>
          refine ⟨some name, marked :: around, before, ?_,
            .known kind own rfl markedAliases (.inl isNamed)⟩
          simp only [isCrossed, marked, kind, isNamed]
          rfl
        | none =>
          obtain ⟨name, after, run, goes, same, declared⟩ :=
            run_allocAlias setting "_this" (.this ⟨0, 0⟩) (own kind).1
              (writable_of_head (c := '_') rfl (by decide)) (.inl rfl) isAlias_this
          refine ⟨some name, { marked with thisAlias := some name } :: around, after, ?_,
            .made kind own others goes same declared (by simp [Owner.identity, marked, kind]) rfl ?_⟩
          · simp only [isCrossed, marked, kind]
            show (allocIn owner.frame (some "_this") (some (.this ⟨0, 0⟩)) true setting before
              >>= _) = _
            rw [run]
            rfl
          · rintro other (isSame | isOther)
            · exact .inl (Option.some.inj isSame).symm
            · exact .inr (.inr isOther)
      · refine ⟨none, marked :: around, before, ?_, .nothing rfl markedAliases⟩
        simp only [isCrossed, marked, kind]
        rfl
    | staticInit =>
      refine ⟨owner.thisAlias, marked :: around, before, ?_, .refl _, rfl, rfl, markedAliases, ?_⟩
      · simp only [marked, kind]
        rfl
      · intro name isFound
        exact .inr ⟨marked, List.mem_cons_self, kind, isFound⟩
    | module =>
      refine ⟨none, marked :: around, before, ?_, .nothing rfl markedAliases⟩
      simp only [marked, kind]
      rfl
    | fieldInit =>
      refine ⟨none, marked :: around, before, ?_, .nothing rfl markedAliases⟩
      simp only [marked, kind]
      rfl

/-- Looking for another name of `arguments` finds one that is declared, or makes one. -/
theorem run_findArguments (aliases : ∀ owner ∈ owners, owner.AliasesIn before.temps) :
    ∃ found marked after, findArguments crossed owners setting before = .ok ((found, marked), after)
      ∧ Found stem setting.inParams owners before found marked after := by
  induction owners generalizing crossed with
  | nil => exact ⟨none, [], before, rfl, .nothing rfl aliases⟩
  | cons owner around ih =>
    obtain ⟨own, others⟩ := List.forall_mem_cons.mp aliases
    let marked : Owner := { owner with usesArguments := true }
    have markedAliases : ∀ other ∈ marked :: around, other.AliasesIn before.temps :=
      List.forall_mem_cons.mpr ⟨own, others⟩
    rw [findArguments]
    -- An arrow passes the question on; a function answers with the name it holds or with a new one;
    -- the others need none.
    cases kind : owner.kind with
    | arrow =>
      obtain ⟨found, rest, after, run, isFound⟩ :=
        @ih (crossed || owner.losesArrow || owner.isLifted) others
      refine ⟨found, owner :: rest, after, ?_, isFound.around kind rfl⟩
      show (findArguments (crossed || owner.losesArrow || owner.isLifted) around setting before
        >>= _) = _
      rw [run]
      rfl
    | function =>
      by_cases isCrossed : crossed = true
      · cases isNamed : owner.argumentsAlias with
        | some name =>
          refine ⟨some name, marked :: around, before, ?_,
            .known kind own rfl markedAliases (.inr isNamed)⟩
          simp only [isCrossed, marked, kind, isNamed]
          rfl
        | none =>
          obtain ⟨name, after, run, goes, same, declared⟩ :=
            run_allocAlias setting "_arguments" (.id ⟨0, 0⟩ "arguments") (own kind).1
              (writable_of_head (c := '_') rfl (by decide)) (.inr rfl) isAlias_arguments
          refine ⟨some name, { marked with argumentsAlias := some name } :: around, after, ?_,
            .made kind own others goes same declared (by simp [Owner.identity, marked, kind]) rfl ?_⟩
          · simp only [isCrossed, marked, kind]
            show (allocIn owner.frame (some "_arguments") (some (.id ⟨0, 0⟩ "arguments")) true setting
              before >>= _) = _
            rw [run]
            rfl
          · rintro other (isOther | isSame)
            · exact .inr (.inl isOther)
            · exact .inl (Option.some.inj isSame).symm
      · refine ⟨none, marked :: around, before, ?_, .nothing rfl markedAliases⟩
        simp only [isCrossed, marked, kind]
        rfl
    | staticInit => exact ⟨none, owner :: around, before, rfl, .nothing rfl aliases⟩
    | module => exact ⟨none, owner :: around, before, rfl, .nothing rfl aliases⟩
    | fieldInit => exact ⟨none, owner :: around, before, rfl, .nothing rfl aliases⟩

/-- A name that is found is bound, once the owners that are marked take the place of the others. -/
theorem works_marking {look : List Owner → Lower (Option String × List Owner)}
    (looks : ∀ (stem : String) (setting : Setting) (before : Progress),
      (∀ owner ∈ before.owners, owner.AliasesIn before.temps) →
      ∃ found marked after, look before.owners setting before = .ok ((found, marked), after)
        ∧ Found stem setting.inParams before.owners before found marked after) :
    realm.Works mayBeParams
      (do
        let (name, owners) ← look (← get).owners
        modify fun progress => { progress with owners }
        return name) fun world found => ∀ name ∈ found, world name := by
  intro setting before fits
  have looked : (do
        let (name, owners) ← look (← get).owners
        modify fun progress => { progress with owners }
        return name : Lower (Option String)) setting before
      = (look before.owners setting before >>= fun (found, progress) =>
        .ok (found.1, { progress with owners := found.2 })) := rfl
  -- The search ends, and the name it found is declared or is a placeholder; the world covers both.
  obtain ⟨found, marked, after, run, isFound⟩ :=
    looks realm.stem setting before fits.sound.aliases
  rw [looked, run]
  refine ⟨nofun, ?_⟩
  rintro _ _ ⟨⟩
  have goes := isFound.goes
  have stillOwned : marked ≠ [] := by
    rintro rfl
    exact fits.sound.owners (List.map_eq_nil_iff.mp isFound.identities.symm)
  refine ⟨⟨goes.current, goes.declared, isFound.identities, fun sound =>
    ⟨(goes.sound sound).temps, stillOwned, isFound.aliases⟩⟩, fun world covers name isName => ?_⟩
  rcases isFound.bound name isName with ⟨index, temp, mem, isTemp⟩ | ⟨owner, mem, isStatic, isAlias⟩
  · exact covers name (.declared index temp mem isTemp)
  · exact covers name (.placeholder owner mem isStatic isAlias)

/-- Another name of `this` is bound. -/
theorem works_resolveThis :
    realm.Works mayBeParams resolveThis fun world found => ∀ name ∈ found, world name :=
  works_marking fun _ _ _ => run_findThis

/-- Another name of `arguments` is bound. -/
theorem works_resolveArguments :
    realm.Works mayBeParams resolveArguments fun world found => ∀ name ∈ found, world name :=
  works_marking fun _ _ _ => run_findArguments

end Receivers

end Realm

end Downlevel
