import Downlevel.Lowering.Chain
import Downlevel.Proofs.Formed
import Downlevel.Proofs.Remaining.Steps
import Downlevel.Proofs.MadeUpNames

/-! Steps that hand out names, that go inside of something, and that look for what `this` means; and
the forms of the parts of a program, when all of them leave nothing but what may remain. -/

namespace Downlevel

open Lowering

namespace Temps

variable {temps after : Temps}

/-- What every frame has, it still has after one of them has changed and kept it. -/
theorem forall_frames_modify {holds : Frame → Prop} {index : Nat} {change : Frame → Frame}
    (all : ∀ frame ∈ temps.frames, holds frame)
    (keeps : ∀ frame, holds frame → holds (change frame)) :
    ∀ frame ∈ (temps.modifyFrame index change).frames, holds frame := by
  rw [frames_modifyFrame]
  intro frame mem
  -- The frame found in the changed list is an old one, changed if it is the one at the index.
  obtain ⟨place, found⟩ := List.mem_iff_getElem?.mp mem
  rw [List.getElem?_modify] at found
  obtain ⟨old, isOld, rfl⟩ := Option.map_eq_some_iff.mp found
  have held := all old (List.mem_of_getElem? isOld)
  split
  · exact keeps old held
  · exact held

/-- Changing a frame hands out nothing. -/
@[simp]
theorem handedOut_modifyFrame (index : Nat) (change : Frame → Frame) :
    (temps.modifyFrame index change).handedOut = temps.handedOut := by
  cases index <;> rfl

/-- Handing out a name that starts out plain. It is none of the source. -/
theorem IsSound.allocIn {scopes : ScopeTree} {index : Nat} {base : Option String}
    {init : Option Expr} {declare : Bool} {name : String} (sound : temps.IsSound scopes)
    (starts : ∀ value ∈ init, value.shape = .this ∨ ∃ name, value.shape = .id name)
    (given : temps.allocIn? index scopes base init declare = some (name, after)) :
    after.IsSound scopes := by
  simp only [allocIn?, Option.bind_eq_bind, Option.bind_eq_some_iff, Option.pure_def,
    Option.some.injEq, Prod.mk.injEq] at given
  obtain ⟨frame, -, -, rfl⟩ := given
  constructor
  · -- The new temporary is `this` or a name, and its own name is fresh, so it is not among the
    -- recorded ones.
    refine @forall_frames_modify temps _ _ _ sound.plain fun old held temp mem => ?_
    cases declare with
    | false => exact held temp mem
    | true =>
      rcases List.mem_append.mp mem with before | new
      · exact held temp before
      · obtain rfl := List.mem_singleton.mp new
        exact starts
  · intro other mem
    rcases NameSet.mem_insert.mp mem with rfl | old
    · have free := freshName_not_mem (temps.taken frame scopes)
        (base.getD ("_" ++ shortName frame.nextSeq))
      simp only [taken, List.mem_append, not_or] at free
      exact free.1.1
    · rw [handedOut_modifyFrame] at old
      exact sound.unrecorded other old

/-- A new frame declares nothing yet. -/
theorem IsSound.push {scopes : ScopeTree} {kind : FrameKind} {owner : ScopeId}
    (sound : temps.IsSound scopes) : (temps.push kind owner).IsSound scopes := by
  refine ⟨fun frame mem => ?_, sound.unrecorded⟩
  simp only [frames, Temps.push, List.reverse_cons, List.mem_cons, List.mem_append,
    List.mem_reverse, List.not_mem_nil, or_false] at mem
  rcases mem with rfl | old | rfl
  · exact sound.plain _ (by simp [frames])
  · exact sound.plain frame (by simp [frames, old])
  · exact List.forall_mem_nil _

/-- Closing a frame gives plain names, and leaves plain ones. -/
theorem IsSound.pop {scopes : ScopeTree} {declared : List Temp} (sound : temps.IsSound scopes)
    (closed : temps.pop? = some (declared, after)) :
    (∀ temp ∈ declared, temp.IsPlain) ∧ after.IsSound scopes := by
  have plain := sound.plain
  simp only [pop?] at closed
  -- The inner frame is given back, and the outer one only takes over its names.
  split at closed
  · cases closed
  · rename_i frame isInner
    obtain ⟨rfl, rfl⟩ := by simpa using closed
    refine ⟨plain frame (by simp [frames, isInner]), fun other mem => ?_, sound.unrecorded⟩
    obtain rfl : other = temps.module.absorb frame := by simpa [frames] using mem
    exact plain temps.module (by simp [frames])
  · rename_i frame parent rest isInner
    obtain ⟨rfl, rfl⟩ := by simpa using closed
    refine ⟨plain frame (by simp [frames, isInner]), fun other mem => ?_, sound.unrecorded⟩
    simp only [frames, List.reverse_cons, List.mem_cons, List.mem_append, List.mem_reverse,
      List.not_mem_nil, or_false] at mem
    rcases mem with rfl | old | rfl
    · exact plain _ (by simp [frames])
    · exact plain other (by simp [frames, isInner, old])
    · exact plain parent (by simp [frames, isInner])

/-- Ending a group gives plain names, and leaves plain ones. -/
theorem IsSound.finishGroup {scopes : ScopeTree} (sound : temps.IsSound scopes) :
    (∀ temp ∈ temps.finishGroup.1, temp.IsPlain) ∧ temps.finishGroup.2.IsSound scopes := by
  refine ⟨sound.plain temps.module (by simp [frames]), fun frame mem => ?_, sound.unrecorded⟩
  rcases List.mem_cons.mp mem with rfl | inner
  · exact List.forall_mem_nil _
  · exact sound.plain frame (List.mem_cons_of_mem _ inner)

end Temps

namespace Ending

variable {α β : Type} {ending : Ending} {site inner : Site} {step : Lower α}
  {described : α → Prop}

/-- A step that hands out a name. -/
theorem leaves_allocIn (frame : Nat) (base : Option String) {init : Option Expr}
    (starts : ∀ value ∈ init, value.shape = .this ∨ ∃ name, value.shape = .id name)
    (declare : Bool) : ending.Leaves site (allocIn frame base init declare) fun _ => True := by
  intro setting before result after fits run
  -- Allocation fails or adds one temporary to a frame; the reports and the owners stay.
  cases given : before.temps.allocIn? frame setting.scopes base init declare with
  | none =>
    rw [allocIn_of_none given] at run
    cases run
  | some pair =>
    obtain ⟨name, temps⟩ := pair
    rw [allocIn_of_some given] at run
    obtain ⟨rfl, rfl⟩ : name = result ∧ { before with temps } = after := by
      cases run
      exact ⟨rfl, rfl⟩
    rw [fits.scopes] at given
    exact ⟨⟨fun _ => id, rfl, fun sound => sound.allocIn starts given⟩, fun _ => trivial⟩

/-- Handing out a name leaves nothing in the tree. -/
theorem leaves_allocHere (base : Option String) (declare : Bool) :
    ending.Leaves site (allocHere base declare) fun _ => True :=
  leaves_get.bind fun _ => (leaves_allocIn _ base (by simp) declare).weaken fun _ _ _ => trivial

/-- Handing out a name that is declared leaves nothing in the tree. -/
theorem leaves_alloc : ending.Leaves site alloc fun _ => True :=
  leaves_allocHere none true

/-- Handing out a name that is bound leaves nothing in the tree. -/
theorem leaves_allocBound : ending.Leaves site allocBound fun _ => True :=
  leaves_allocHere none false

/-- Handing out a name with a base leaves nothing in the tree. -/
theorem leaves_allocNamed (base : String) : ending.Leaves site (allocNamed base) fun _ => True :=
  leaves_allocHere (some base) true

/-- Handing out a bound name with a base leaves nothing in the tree. -/
theorem leaves_allocNamedBound (base : String) :
    ending.Leaves site (allocNamedBound base) fun _ => True :=
  leaves_allocHere (some base) false

namespace Leaves

/-- A step in a setting that differs in nothing that matters here. -/
theorem withReader {change : Setting → Setting} (holds : ending.Leaves inner step described)
    (same : ∀ setting progress, ending.Fits site setting progress →
      ending.Fits inner (change setting) progress) :
    ending.Leaves site (MonadWithReader.withReader change step) described :=
  fun setting before result after fits run =>
    holds (change setting) before result after (same setting before fits) run

/-- Where nothing is known about waiting, the lowering may be anywhere inside of a function. -/
theorem ofBarred {ground : Ground} (holds : ending.Leaves (.inside .barred) step described) :
    ending.Leaves (.inside ground) step described := by
  intro setting before result after fits run
  refine holds setting before result after { fits with suits := ?_, dead := nofun, params := ?_ } run
  · have suits := fits.suits
    cases ground with
    | barred => exact suits
    | body => exact suits.1
    | standIn => exact suits.1
  · exact fun _ => rfl

/-- A step on parameters, which are inside of a function. -/
theorem inParams (holds : ending.Leaves (.inside .barred) step described) :
    ending.Leaves (.inside .barred) (Lowering.inParams step) described :=
  holds.withReader fun _ _ fits => { fits with params := fun _ => rfl }

/-- A branch that never runs is at a site of its own. -/
theorem inBranch {isDead : Bool} (holds : ending.Leaves (site.branch isDead) step described) :
    ending.Leaves site (Lowering.inBranch isDead step) described := by
  refine holds.withReader fun setting progress fits =>
    { fits with suits := ?_, dead := ?_, params := ?_ }
  · cases site with
    | own around => exact fits.suits
    | static => exact fits.suits
    | inside ground => exact fits.suits
  · intro deadBranch same
    cases site with
    -- A branch is dead where the surroundings are.
    | own around =>
      obtain rfl : (around || isDead) = deadBranch := by simpa [Site.branch] using same
      simp only [fits.dead around rfl]
    | static => cases same
    | inside ground => cases same
  · intro inParams
    rw [fits.params inParams]
    rfl

/-- A step in a frame of its own. -/
theorem inFrame {kind : FrameKind} {owner : ScopeId}
    (holds : ending.Leaves site step described) :
    ending.Leaves site (Lowering.inFrame kind owner step) fun (result, declared) =>
      described result ∧ ∀ temp ∈ declared, temp.IsPlain := by
  intro setting before pair after fits run
  let opened : Progress := { before with temps := before.temps.push kind owner }
  have fits' : ending.Fits site setting opened := { fits with temps := fits.temps.push }
  -- A failed step gives nothing to show, nor does a frame that cannot be closed.
  cases ran : step setting opened with
  | error fault =>
    rw [inFrame_of_error ran] at run
    cases run
  | ok ended =>
    obtain ⟨result, progress⟩ := ended
    obtain ⟨goes, shown⟩ := holds setting opened result progress fits' ran
    cases closed : progress.temps.pop? with
    | none =>
      rw [inFrame_of_none ran closed] at run
      cases run
    | some found =>
      obtain ⟨declared, temps⟩ := found
      rw [inFrame_of_some ran closed] at run
      obtain ⟨rfl, rfl⟩ : (result, declared) = pair ∧ { progress with temps } = after := by
        cases run
        exact ⟨rfl, rfl⟩
      have plain := (goes.temps fits'.temps).pop closed
      exact ⟨⟨goes.reports, goes.owners, fun _ => plain.2⟩, fun hears => ⟨shown hears, plain.1⟩⟩

/-- A step inside of an owner other than the module. -/
theorem inOwner {owner : Owner} (suits : inner.Suits owner) (notOwn : ∀ isDead, inner ≠ .own isDead)
    (holds : ending.Leaves inner step described) :
    ending.Leaves site (Lowering.inOwner owner step) fun (result, _) => described result := by
  intro setting before pair after fits run
  let entered : Progress := { before with owners := owner :: before.owners }
  let calm : Setting := { setting with inParams := false }
  have fits' : ending.Fits inner calm entered :=
    { target := fits.target
      scopes := fits.scopes
      suits
      dead := fun isDead same => absurd same (notOwn isDead)
      params := fun inParams => absurd inParams Bool.false_ne_true
      temps := fits.temps }
  -- The step may only mark the owner it was given; the owners around it keep their kinds.
  cases ran : step calm entered with
  | error fault =>
    rw [inOwner_of_error ran] at run
    cases run
  | ok ended =>
    obtain ⟨result, progress⟩ := ended
    obtain ⟨goes, shown⟩ := holds calm entered result progress fits' ran
    obtain ⟨marked, around, isInside, -, outside⟩ : ∃ marked around,
        progress.owners = marked :: around ∧ marked.nature = owner.nature
        ∧ around.map (·.nature) = before.owners.map (·.nature) :=
      List.map_eq_cons_iff.mp goes.owners
    rw [inOwner_of_cons ran isInside] at run
    obtain ⟨rfl, rfl⟩ : (result, marked) = pair ∧ { progress with owners := around } = after := by
      cases run
      exact ⟨rfl, rfl⟩
    exact ⟨⟨goes.reports, outside, goes.temps⟩, shown⟩

end Leaves

/-- What a step leaves in every run does not depend on the reports. -/
theorem Leaves.always (holds : ∀ ending : Ending, ending.Leaves site step described)
    {setting : Setting} {before after : Progress} {result : α}
    (fits : ending.Fits site setting before) (run : step setting before = .ok (result, after)) :
    described result :=
  let everything : Ending := { ending with isRead := True, reported := fun _ => True }
  (holds everything setting before result after
    ⟨fits.target, fits.scopes, fits.suits, fits.dead, fits.params, fits.temps⟩ run).2
    ⟨trivial, fun _ _ => trivial⟩

/-- One step after another, where something about what comes out of the first does not depend on the
reports. -/
theorem Leaves.bindKnowing {rest : α → Lower β} {known : α → Prop} {final : β → Prop}
    (first : ending.Leaves site step described)
    (always : ∀ ending : Ending, ending.Leaves site step known)
    (second : ∀ result, known result →
      ending.Leaves site (rest result) fun last => described result → final last) :
    ending.Leaves site (step >>= rest) final := by
  intro setting before last after fits run
  have both : (step >>= rest) setting before
      = (step setting before >>= fun pair => rest pair.1 setting pair.2) := rfl
  rw [both] at run
  -- Both steps have a result, or the whole has none; what is always known of the first is known
  -- here too.
  cases begun : step setting before with
  | error fault =>
    rw [begun] at run
    cases run
  | ok pair =>
    obtain ⟨result, middle⟩ := pair
    rw [begun] at run
    obtain ⟨goes, holds⟩ := first setting before result middle fits begun
    obtain ⟨goes', holds'⟩ := second result (Leaves.always always fits begun) setting middle last
      after (fits.later goes) run
    exact ⟨goes.trans goes', fun hears => holds' hears (holds (hears.earlier goes'))⟩

/-- One step after another, where what comes out of the first does not depend on the reports. -/
theorem Leaves.bindAlways {rest : α → Lower β} {final : β → Prop}
    (first : ∀ ending : Ending, ending.Leaves site step described)
    (second : ∀ result, described result → ending.Leaves site (rest result) final) :
    ending.Leaves site (step >>= rest) final :=
  (first ending).bindKnowing first fun result shown =>
    (second result shown).weaken fun _ holds _ => holds

/-- Looking for what `this` means marks owners without changing what they are. -/
theorem leaves_findThis (crossed : Bool) (owners : List Owner) :
    ending.Leaves site (findThis crossed owners) fun (_, marked) =>
      marked.map (·.nature) = owners.map (·.nature) := by
  induction owners generalizing crossed with
  | nil => exact .pure rfl
  | cons owner around ih =>
    rw [findThis]
    -- The kinds of the owners stay: the search marks one of them, and may give it a name.
    cases kind : owner.kind with
    | arrow =>
      simp only
      refine (ih _).bind fun (_, marked) => .pure fun others => ?_
      simpa [Owner.nature, kind] using others
    | function =>
      simp only
      refine .ite (fun _ => .pure (by simp [Owner.nature, kind])) fun _ => ?_
      refine .ite (fun _ => .pure (by simp [Owner.nature, kind])) fun _ => ?_
      refine (leaves_allocIn _ _ ?_ _).bind fun name => .pure fun _ => by simp [Owner.nature, kind]
      simp [Expr.this, Expr.of]
    | staticInit => exact .pure (by simp [Owner.nature, kind])
    | module => exact .pure (by simp [Owner.nature, kind])
    | fieldInit => exact .pure (by simp [Owner.nature, kind])

/-- Looking for what `arguments` means marks owners without changing what they are. -/
theorem leaves_findArguments (crossed : Bool) (owners : List Owner) :
    ending.Leaves site (findArguments crossed owners) fun (_, marked) =>
      marked.map (·.nature) = owners.map (·.nature) := by
  induction owners generalizing crossed with
  | nil => exact .pure rfl
  | cons owner around ih =>
    rw [findArguments]
    -- As for `this`: the owner found is marked, and its kind stays.
    cases kind : owner.kind with
    | arrow =>
      simp only
      refine (ih _).bind fun (_, marked) => .pure fun others => ?_
      simpa [Owner.nature, kind] using others
    | function =>
      simp only
      refine .ite (fun _ => .pure (by simp [Owner.nature, kind])) fun _ => ?_
      refine .ite (fun _ => .pure (by simp [Owner.nature, kind])) fun _ => ?_
      refine (leaves_allocIn _ _ ?_ _).bind fun name => .pure fun _ => by simp [Owner.nature, kind]
      simp [Expr.id, Expr.of]
    | staticInit => exact .pure rfl
    | module => exact .pure rfl
    | fieldInit => exact .pure rfl

/-- Owners that are only marked may take the place of those that there are. -/
theorem Leaves.marking {look : List Owner → Lower (Option String × List Owner)}
    (marks : ∀ (ending : Ending) owners, ending.Leaves site (look owners) fun (_, marked) =>
      marked.map (·.nature) = owners.map (·.nature)) :
    ending.Leaves site
      (do
        let (name, owners) ← look (← get).owners
        modify fun progress => { progress with owners }
        return name) fun _ => True := by
  intro setting before name after fits run
  have looks : (do
        let (name, owners) ← look (← get).owners
        modify fun progress => { progress with owners }
        return name : Lower (Option String)) setting before
      = (look before.owners setting before >>= fun (found, progress) =>
        .ok (found.1, { progress with owners := found.2 })) := rfl
  rw [looks] at run
  -- The search has a result, which is what the step gives back.
  cases ran : look before.owners setting before with
  | error fault =>
    rw [ran] at run
    cases run
  | ok ended =>
    obtain ⟨⟨found, marked⟩, progress⟩ := ended
    rw [ran] at run
    obtain ⟨rfl, rfl⟩ : found = name ∧ { progress with owners := marked } = after := by
      cases run
      exact ⟨rfl, rfl⟩
    have goes := (marks ending before.owners setting before _ progress fits ran).1
    have kinds := Leaves.always (fun ending => marks ending before.owners) fits ran
    exact ⟨⟨goes.reports, kinds, goes.temps⟩, fun _ => trivial⟩

/-- Looking for another name of `this` leaves nothing in the tree. -/
theorem leaves_resolveThis : ending.Leaves site resolveThis fun _ => True :=
  .marking fun _ => leaves_findThis false

/-- Looking for another name of `arguments` leaves nothing in the tree. -/
theorem leaves_resolveArguments : ending.Leaves site resolveArguments fun _ => True :=
  .marking fun _ => leaves_findArguments false

/-- `this` may remain, whatever it is written as. -/
theorem leaves_thisValue (span : Span) :
    ending.Leaves site (thisValue span) fun e => ending.Keeps site (exprNodes e) := by
  refine leaves_resolveThis.bind fun found => ?_
  cases found with
  | none => exact .pure fun _ => keeps_this
  | some name => exact .pure fun _ => keeps_id

/-- Looking for a private name leaves nothing in the tree. -/
theorem leaves_privateBinding? (name : String) :
    ending.Leaves site (privateBinding? name) fun _ => True := by
  refine .ite (fun _ => .pure trivial) fun _ => ?_
  exact leaves_read.bind fun _ => .pure fun _ => trivial

/-- Asking whether `undefined` is bound leaves nothing in the tree. -/
theorem leaves_bindsUndefined : ending.Leaves site bindsUndefined fun _ => True :=
  .asks fun _ _ _ => trivial

/-- What is captured may remain where it is evaluated, and where it is used again. -/
theorem leaves_capture (e : Expr) :
    ending.Leaves site (capture e) fun (first, again) =>
      ending.Keeps site (exprNodes e) →
        ending.Keeps site (exprNodes first) ∧ ending.Keeps site (exprNodes again) := by
  refine .ite (fun _ => .pure fun keeps => ⟨keeps, keeps⟩) fun _ => ?_
  exact leaves_alloc.bind fun name => .pure fun _ keeps => ⟨keeps_assign_id.mpr keeps, keeps_id⟩

end Ending

namespace Ending

variable (ending : Ending) (site : Site)

/-- A step whose result may remain. -/
abbrev LeavesExpr (step : Lower Expr) : Prop :=
  ending.Leaves site step fun e => ending.Keeps site (exprNodes e)

/-- A callee and the receiver to pass may remain. -/
structure KeepsCallee (callee : Expr × Option Expr) : Prop where
  function : ending.Keeps site (exprNodes callee.1)
  receiver : ∀ receiver ∈ callee.2, ending.Keeps site (exprNodes receiver)

/-- The parts of a place leave what may remain. -/
def LeavesPlace : PlaceForms → Prop
  | .identifier _ | .other => True
  | .member _ value _ => ending.LeavesExpr site value
  | .computed _ value key => ending.LeavesExpr site value ∧ ending.LeavesExpr site key

/-- The base of a chain leaves what may remain. -/
structure LeavesBase (base : BaseForms) : Prop where
  value : ending.LeavesExpr site base.value
  callee : ending.Leaves site base.callee (ending.KeepsCallee site)

/-- A link of a chain leaves what may remain. -/
def LeavesLink : LinkForms → Prop
  | .member .. => True
  | .computed _ key => ending.LeavesExpr site key
  | .call _ _ args => ending.Leaves site args fun args => ending.Keeps site (argsNodes args)

/-- The parts of a chain leave what may remain, in a chain that stays only where the target has
one. -/
structure LeavesChain (forms : ExprForms) : Prop where
  natively : ending.Leaves site forms.natively fun e =>
    ending.target.supports .optionalChain = true → ending.Keeps site (exprNodes e)
  base : ∀ base ∈ forms.chain.base, ending.LeavesBase site base
  links : ∀ link ∈ forms.chain.links, ending.LeavesLink site link

/-- All forms of an expression leave what may remain. As a place that is written, a link of a chain
stays one. -/
structure LeavesForms (forms : ExprForms) : Prop extends LeavesChain ending site forms where
  value : ending.LeavesExpr site forms.value
  target : ending.Leaves site forms.target fun e =>
    ((forms.source.isChained = true →
        ending.target.supports .optionalChain = true ∨ ending.stepsChain) →
      ending.Keeps site (exprNodes e))
    ∧ (forms.source.isPlace = true → e.isObjectPattern = false)
  place : ending.LeavesPlace site forms.place
  placed : forms.source.isPlace = true → forms.place ≠ .other

/-- All forms of a pattern leave what may remain. A lone name is bound as one. -/
structure LeavesPattern (forms : PatternForms) : Prop where
  bound : ending.Leaves site forms.bound fun pattern =>
    ending.Keeps site (patternNodes pattern)
      ∧ (pattern.name? = none → forms.source.name? = none)
  assigned : ending.LeavesForms site forms.assigned
  isTarget : ending.isRead →
    forms.assigned.source.isPlace = true ∨ forms.assigned.source.isPattern = true

/-- All forms of a key leave what may remain. -/
def LeavesKey : KeyForms → Prop
  | .direct _ => True
  | .computed value => ending.LeavesExpr site value.value

end Ending

end Downlevel
