import Downlevel.Proofs.Forms
import Downlevel.Proofs.Meaning.Operators
import Downlevel.Proofs.Meaning.Simulation

/-! A chain does what its base does and then, unless that is nullish, what its links do. What remains
of one whose base is always nullish still does all that the base does. -/

namespace Downlevel

namespace Meaning

open Lowering

variable {W : World}

/-- Evaluates expressions one after the other. -/
def runAll : List Expr → Run W Unit
  | [] => pure ()
  | e :: rest => do
    let _ ← find e
    runAll rest

/-- Evaluating two lists one after the other. -/
theorem runAll_append (first second : List Expr) :
    runAll (W := W) (first ++ second) = (do runAll first; runAll second) := by
  induction first with
  | nil => simp [runAll]
  | cons e rest ih => simp [runAll, ih]

/-- The parts of a sequence do what the sequence does. -/
theorem find_commaParts {α : Type} (e : Expr) (rest : Run W α) :
    (find e >>= fun _ => rest) = (runAll (commaParts e) >>= fun _ => rest) := by
  -- Both operands of a comma are evaluated for their effects, and they may be commas themselves.
  induction e using commaParts.induct generalizing rest with
  | case1 origin left right ihLeft ihRight =>
    rw [commaParts, find, findShape, runAll_append]
    simp only [bind_assoc, pure_bind]
    rw [ihLeft]
    simp only [ihRight]
  | case2 origin shape notComma =>
    rw [commaParts.eq_2 _ _ notComma]
    simp only [runAll, bind_assoc, pure_bind]
    rw [Expr.of, find, find]

/-- The effects of a nullish expression are all that it does. -/
theorem Settles.effects {e : Expr} (settles : Settles e) {α : Type} (rest : Run W α) :
    (find e >>= fun _ => rest) = (runAll (nullishEffects e) >>= fun _ => rest) := by
  -- A void keeps its operand unless it is a bare name, a comma its parts; an atom has no effect to
  -- keep.
  induction settles generalizing rest with
  | @void origin operand notSuper =>
    rw [nullishEffects, find, findShape]
    simp only [bind_assoc, pure_bind]
    split
    · next reusable =>
      funext memory
      change Run.next _ _ memory = _
      rw [Run.next, find_atom ⟨reusable, notSuper reusable⟩]
      rfl
    · simp [runAll]
  | @comma origin left right settles ih =>
    rw [nullishEffects, find, findShape, runAll_append]
    simp only [bind_assoc, pure_bind]
    rw [find_commaParts]
    simp only [ih]
  | @atom e isAtom =>
    have none : nullishEffects e = [] := by
      obtain ⟨origin, shape⟩ := e
      obtain ⟨reusable, _⟩ := isAtom
      cases shape <;> simp [isReusable] at reusable <;> rfl
    funext memory
    rw [none]
    change Run.next _ _ memory = _
    rw [Run.next, find_atom isAtom]
    rfl

/-- A sequence does all that its parts do. -/
theorem find_sequence {α : Type} (first : Expr) (others : List Expr) (rest : Run W α) :
    (find (.sequence first others) >>= fun _ => rest)
      = (runAll (first :: others) >>= fun _ => rest) := by
  unfold Expr.sequence
  induction others generalizing first with
  | nil => simp [runAll]
  | cons other others ih =>
    rw [List.foldl_cons, ih]
    simp [runAll, Expr.andThen, Expr.binary, Expr.of, find, findShape]

/-- The value of a chain that is cut short. -/
def shortValue (W : World) (mode : ChainMode) : W.Value :=
  if mode = .delete then W.bool true else W.undefined

/-- A chain that is cut short has a value at once. -/
theorem find_cutShort (span : Span) (mode : ChainMode) :
    find (W := W) (cutShort span mode) = pure (some (.plain (shortValue W mode))) := by
  unfold cutShort shortValue
  split
  · simp [Expr.bool, Expr.of, find, findShape]
  · simp [Expr.undefined, Expr.unary, Expr.num, Expr.of, find, findShape]

/-- A collapsed chain does what its base does, and is then cut short. -/
theorem find_collapse {base : Expr} (settles : Settles base) (span : Span) (mode : ChainMode) :
    find (W := W) (collapse span mode base) = do
      let _ ← find base
      return some (.plain (shortValue W mode)) := by
  rw [settles.effects]
  -- The mark that the expression was collapsed is not evaluated.
  have unmarked : ∀ e : Expr,
      find (W := W) { e with origin := { e.origin with collapsed := true } } = find e := by
    rintro ⟨origin, shape⟩
    rw [find, find]
  rw [collapse, unmarked]
  cases nullishEffects base with
  | nil => simp [runAll, find_cutShort]
  | cons first rest =>
    change find (.sequence first (rest ++ [cutShort span mode])) = _
    rw [Expr.sequence, List.foldl_append, List.foldl_cons, List.foldl_nil, Expr.andThen,
      Expr.binary, Expr.of, find, findShape, find_cutShort]
    exact find_sequence first rest _

/-- What a nullish expression does ends by the limit if the expression does. -/
theorem EndsBy.nullishEffects {limit : Nat} {e : Expr} (ends : EndsBy limit e) :
    ∀ part ∈ nullishEffects e, EndsBy limit part := by
  refine forall_mem_nullishEffects ends (fun ends => ?_) (fun ends => ?_) fun ends => ?_
  · unfold EndsBy at ends ⊢
    split at ends <;> simp_all [Expr.of]
  · rw [EndsBy] at ends
    exact ends.2
  · rw [EndsBy] at ends
    exact ends.2

/-- A sequence ends by the limit if its parts do. -/
theorem EndsBy.sequence {limit : Nat} {first : Expr} {others : List Expr}
    (ends : EndsBy limit first) (others' : ∀ part ∈ others, EndsBy limit part) :
    EndsBy limit (.sequence first others) := by
  unfold Expr.sequence
  induction others generalizing first with
  | nil => exact ends
  | cons other others ih =>
    simp only [List.mem_cons, forall_eq_or_imp] at others'
    refine ih ?_ others'.2
    rw [Expr.andThen, Expr.binary, Expr.of, EndsBy]
    exact ⟨Nat.max_le.2 ⟨ends.stop, others'.1.stop⟩, ends, others'.1⟩

/-- A collapsed chain ends by the limit if its base and the chain do. -/
theorem EndsBy.collapse {limit : Nat} {base : Expr} {span : Span} (ends : EndsBy limit base)
    (stops : span.stop ≤ limit) (mode : ChainMode) : EndsBy limit (collapse span mode base) := by
  -- The short outcome is made at the place of the chain, so its end is the chain's own.
  have short : EndsBy limit (cutShort span mode) := by
    unfold cutShort
    split
    · exact .ofStop (by simp) (by simp) stops
    · rw [Expr.undefined, Expr.unary, Expr.of, EndsBy]
      exact ⟨stops, .ofStop (by simp) (by simp) stops⟩
  have unmarked : ∀ e : Expr, EndsBy limit e →
      EndsBy limit { e with origin := { e.origin with collapsed := true } } := by
    rintro ⟨origin, shape⟩ ends
    unfold EndsBy at ends ⊢
    split at ends <;> simp_all
  refine unmarked _ ?_
  have parts := ends.nullishEffects
  cases found : Lowering.nullishEffects base with
  | nil => exact short
  | cons first rest =>
    rw [found] at parts
    simp only [List.mem_cons, forall_eq_or_imp] at parts
    -- The sequence ends where its last part does: the kept effects come first, the short outcome
    -- last.
    refine .sequence parts.1 fun part member => ?_
    rcases List.mem_append.1 member with inside | last
    · exact parts.2 part inside
    · rw [List.mem_singleton.1 last]
      exact short

end Meaning

namespace Lowering.Link

/-- Where a link is written. -/
def span : Link → Span
  | .member span _ | .computed span _ | .call span .. => span

/-- Whether a link is a call. -/
def isCall : Link → Bool
  | .call .. => true
  | _ => false

/-- The shape of an access or a call that a link makes of its object. -/
def shape (part : Link) (link : ChainLink) (object : Expr) : Shape :=
  match part with
  | .member _ name => .member link object name
  | .computed _ key => .computed link object key
  | .call _ isPure args => .call link isPure object args

end Lowering.Link

namespace Meaning

open Lowering

variable {W : World} {scopes : ScopeTree} {env vars : Vars W} {first second : Progress}

/-- An expression is a chain on a base, with the links from the base on. -/
inductive Chain : (e base : Expr) → List Link → Prop
  | opens {origin : Origin} {base : Expr} {part : Link} (written : part.span = origin.span) :
      Chain ⟨origin, part.shape .opens base⟩ base [part]
  | continues {origin : Origin} {object base : Expr} {part : Link} {links : List Link}
      (written : part.span = origin.span) (inner : Chain object base links) :
      Chain ⟨origin, part.shape .continues object⟩ base (links ++ [part])

/-- Follows a link. -/
def runLink (object : Found W) : Link → Run W (Found W)
  | .member _ name => return ⟨← .operate (W.get object.value (W.str name)), object.value⟩
  | .computed _ key => do
    let key := Found.settle (← find key)
    return ⟨← .operate (W.get object.value key.value), object.value⟩
  | .call _ _ args => do
    let args ← findArgs args
    return .plain (← .operate (W.call object.value object.receiver args))

/-- Follows the links of a chain. -/
def runLinks (object : Found W) (links : List Link) : Run W (Found W) :=
  links.foldlM runLink object

/-- What one part of a chain does. -/
theorem find_shape {origin : Origin} {object : Expr} {link : ChainLink} {part : Link}
    (unmade : part.isCall = true → isMade origin.span link object = false) :
    find (W := W) ⟨origin, part.shape link object⟩ = do
      match Found.follow link (← find object) with
      | none => return none
      | some object => return some (← runLink object part) := by
  -- Each link follows the object and then does its own step; a missing object skips the step.
  cases part with
  | member span name =>
    rw [Link.shape, find, findShape]
    congr 1
    funext found
    cases Found.follow link found <;> simp [runLink]
  | computed span key =>
    rw [Link.shape, find, findShape]
    congr 1
    funext found
    cases Found.follow link found <;> simp [runLink]
  | call span isPure args =>
    rw [Link.shape, find, findShape, unmade rfl]
    simp only [Bool.false_eq_true, if_false]
    congr 1
    funext found
    cases Found.follow link found <;> simp [runLink]

/-- A chain is cut short by a nullish base, and else goes on along its links. -/
theorem find_chain {e base : Expr} {links : List Link} (chain : Chain e base links) :
    find (W := W) e = do
      let object := Found.settle (← find base)
      if W.isNullish object.value then return none
      else return some (← runLinks object links) := by
  -- The base of the chain is tested once; the later links follow an object that is there, or skip
  -- with it.
  induction chain with
  | opens written =>
    rw [find_shape (by simp [isMade])]
    congr 1
    funext found
    by_cases short : W.isNullish (Found.settle found).value = true <;>
      simp [Found.follow, short, runLinks]
  | continues written inner ih =>
    rw [find_shape (by simp [isMade]), ih, bind_assoc]
    congr 1
    funext found
    by_cases short : W.isNullish (Found.settle found).value = true <;>
      simp [Found.follow, short, runLinks]

/-- A lowered link does what the link does. -/
inductive SimLink (scopes : ScopeTree) (env : Vars W) (before after : Progress) : Link → Link → Prop
  | member {span : Span} {name : String} (isPublic : isPrivateName name = false) :
      SimLink scopes env before after (.member span name) (.member span name)
  | computed {span : Span} {key key' : Expr} (sim : Sim scopes env SameValue before after key key') :
      SimLink scopes env before after (.computed span key) (.computed span key')
  | call {span : Span} {isPure : Bool} {args args' : List Arg}
      (sim : SimArgs scopes env before after args args') :
      SimLink scopes env before after (.call span isPure args) (.call span isPure args')

/-- A link is where its source is. -/
theorem SimLink.span {part part' : Link} (sim : SimLink scopes env first second part part') :
    part'.span = part.span := by
  cases sim <;> rfl

/-- A link is a call if its source is. -/
theorem SimLink.isCall {part part' : Link} (sim : SimLink scopes env first second part part') :
    part'.isCall = part.isCall := by
  cases sim <;> rfl

/-- The access or call that a link makes outside of any chain; a call may have to pass a receiver. -/
def buildLink (receiver : Option Expr) (current : Expr) (part : Link) : Expr :=
  match part, receiver with
  | .call span _ args, some receiver => .callWithThis span current receiver args
  | part, _ => .of part.span (part.shape .plain current)

/-- What a link makes is where the link is. -/
@[simp]
theorem span_buildLink (receiver : Option Expr) (current : Expr) (part : Link) :
    (buildLink receiver current part).span = part.span := by
  cases part <;> cases receiver <;> rfl

/-- A link does the same outside of a chain, from the same object on, and an access is received by
that object. -/
theorem agree_link {part part' : Link} {object object' : Found W}
    (sim : SimLink scopes env first second part part') (holds : Holds scopes second env vars)
    (same : object'.value = object.value)
    (sameReceiver : part.isCall = true → object'.receiver = object.receiver) :
    Agree env vars (runLink object part) (runLink object' part') fun found found' vars' =>
      found' = found ∧ Keeps scopes first second vars vars' ∧
        (part.isCall = false → found.receiver = object.value) := by
  -- The link's own parts are evaluated alike, and then the world is asked the same question.
  cases sim with
  | member =>
    simp only [runLink, same]
    exact .operate fun _ => .done ⟨rfl, .refl _, fun _ => rfl⟩
  | computed sim =>
    simp only [runLink, same]
    refine (sim vars holds).next fun _ _ vars' ⟨sameKey, kept⟩ => ?_
    simp only [show _ = _ from sameKey]
    exact .operate fun _ => .done ⟨rfl, kept, fun _ => rfl⟩
  | call sim =>
    simp only [runLink, same, sameReceiver rfl]
    refine (sim vars holds).next fun _ _ vars' ⟨sameArgs, kept⟩ => ?_
    rw [sameArgs]
    exact .operate fun _ => .done ⟨rfl, kept, by simp [Link.isCall]⟩

/-- A link goes on from the same object. -/
def FollowsAlike (W : World) (link : ChainLink)
    (same : Option (Found W) → Option (Found W) → Prop) : Prop :=
  ∀ found found', same found found' →
    (Found.follow link found').map Found.value = (Found.follow link found).map Found.value

/-- A link that is a call goes on from the same object with the same receiver. -/
def CallsAlike (W : World) (link : ChainLink)
    (same : Option (Found W) → Option (Found W) → Prop) : Prop :=
  ∀ found found', same found found' → Found.follow link found' = Found.follow link found

/-- A link that does not continue a chain only needs the value of its object. -/
theorem followsAlike_value {link : ChainLink} (notInside : link ≠ .continues) :
    FollowsAlike W link SameValue := by
  intro found found' same
  simp only [SameValue] at same
  cases link with
  | plain => simpa [Found.follow] using same
  | opens =>
    simp only [Found.follow, same]
    split <;> simp [same]
  | continues => exact absurd rfl notInside

/-- A call that does not continue a chain needs the receiver as well. -/
theorem callsAlike_callee {link : ChainLink} (notInside : link ≠ .continues) :
    CallsAlike W link SameCallee := by
  intro found found' same
  simp only [SameCallee] at same
  cases link with
  | plain => simp [Found.follow, same]
  | opens => simp [Found.follow, same]
  | continues => exact absurd rfl notInside

/-- What continues a chain needs all that was reached. -/
theorem callsAlike_reach (link : ChainLink) : CallsAlike W link SameReach := by
  rintro found found' rfl
  rfl

/-- Whoever calls alike also follows alike. -/
theorem CallsAlike.follows {link : ChainLink}
    {same : Option (Found W) → Option (Found W) → Prop} (alike : CallsAlike W link same) :
    FollowsAlike W link same :=
  fun found found' holds => congrArg _ (alike found found' holds)

/-- What a link makes of objects that are the same is the same. -/
theorem sim_shape {same : Option (Found W) → Option (Found W) → Prop} {origin origin' : Origin}
    {link : ChainLink} {part part' : Link} {object object' : Expr} {middle : Progress}
    (follows : FollowsAlike W link same) (calls : part.isCall = true → CallsAlike W link same)
    (unmade : part.isCall = true → isMade origin.span link object = false)
    (unmade' : part.isCall = true → isMade origin'.span link object' = false)
    (begins : Extends scopes first middle) (goesOn : Extends scopes middle second)
    (sim : Sim scopes env same first middle object object')
    (simPart : SimLink scopes env middle second part part') :
    Sim scopes env SameReach first second ⟨origin, part.shape link object⟩
      ⟨origin', part'.shape link object'⟩ := by
  intro vars holds
  rw [find_shape unmade, find_shape (by rwa [simPart.isCall])]
  refine (sim.run goesOn holds).next fun found found' vars' ⟨related, kept, holds'⟩ => ?_
  have reached := follows found found' related
  have called := fun isCall => calls isCall found found' related
  generalize Found.follow link found = from' at reached called ⊢
  generalize Found.follow link found' = from'' at reached called ⊢
  -- Either both sides are cut short, or both go on with the same value, and a call also with the
  -- same receiver.
  cases from' with
  | none =>
    obtain rfl : from'' = none := by simpa using reached
    exact .done ⟨rfl, kept.later goesOn⟩
  | some object =>
    obtain ⟨object', rfl, same⟩ : ∃ object', from'' = some object' ∧ object'.value = object.value :=
      by simpa using reached
    have sameReceiver : part.isCall = true → object'.receiver = object.receiver := by
      intro isCall
      rw [Option.some.inj (called isCall)]
    refine (agree_link simPart holds' same sameReceiver).next ?_
    rintro result _ vars'' ⟨rfl, kept', _⟩
    exact .done ⟨rfl, kept.trans begins goesOn kept'⟩

/-- A callee that ends before the call was not made up. -/
theorem isMade_of_stop {span : Span} {link : ChainLink} {callee : Expr}
    (ends : callee.span.stop < span.stop) : isMade span link callee = false := by
  have apart : (callee.span == span) = false := by
    simp only [beq_eq_false_iff_ne, ne_eq]
    rintro rfl
    exact Nat.lt_irrefl _ ends
  simp [isMade, apart]

/-- What a link makes outside of a chain does what the link does. -/
theorem find_buildLink {current : Expr} {part : Link}
    (unmade : part.isCall = true → isMade part.span .plain current = false) :
    find (W := W) (buildLink none current part) = do
      let found ← find current
      return some (← runLink (Found.settle found) part) := by
  have built : buildLink none current part = .of part.span (part.shape .plain current) := by
    cases part <;> rfl
  rw [built, Expr.of, find_shape unmade]
  simp only [Found.follow]

/-- Lowered links do what the links do. -/
inductive SimLinks (scopes : ScopeTree) (env : Vars W) (before after : Progress) :
    List Link → List Link → Prop
  | nil : SimLinks scopes env before after [] []
  | cons {part part' : Link} {rest rest' : List Link}
      (sim : SimLink scopes env before after part part')
      (others : SimLinks scopes env before after rest rest') :
      SimLinks scopes env before after (part :: rest) (part' :: rest')

/-- No link ends before what it is on, and a call ends behind it. -/
def EndsOn (stop : Nat) : List Link → Prop
  | [] => True
  | part :: rest => stop ≤ part.span.stop ∧ (part.isCall = true → stop < part.span.stop) ∧
      EndsOn part.span.stop rest

/-- Links do the same outside of a chain, once what they are on does. -/
theorem agree_links {links links' : List Link} {current : Expr} {run : Run W (Found W)} {stop : Nat}
    (sims : SimLinks scopes env first second links links') (ends : EndsOn stop links)
    (stops : current.span.stop ≤ stop) (holds : Holds scopes second env vars)
    (begins : Agree env vars run (find current) fun found found' vars' =>
      Found.settle found' = found ∧ Keeps scopes first second vars vars') :
    Agree env vars (run >>= fun object => runLinks object links)
      (find (links'.foldl (buildLink none) current)) fun found found' vars' =>
        Found.settle found' = found ∧ Keeps scopes first second vars vars' := by
  induction sims generalizing current run stop with
  | nil => simpa [runLinks] using begins
  | @cons part part' rest rest' sim others ih =>
    -- One link first, from the run so far; the induction then takes the rest from there.
    have one : Agree env vars (run >>= fun object => runLink object part)
        (find (buildLink none current part')) fun found found' vars' =>
          Found.settle found' = found ∧ Keeps scopes first second vars vars' := by
      rw [find_buildLink]
      · refine begins.next fun found found' vars' ⟨same, kept⟩ => ?_
        rw [same]
        refine (agree_link sim (holds.kept (.refl _) kept) rfl fun _ => rfl).moreLowered ?_
        rintro found _ vars'' ⟨rfl, kept', _⟩
        exact .done ⟨rfl, kept.twice kept'⟩
      · rw [sim.isCall, sim.span]
        exact fun isCall => isMade_of_stop (Nat.lt_of_le_of_lt stops (ends.2.1 isCall))
    have more := ih ends.2.2 (Nat.le_of_eq (by rw [span_buildLink, sim.span])) one
    simpa [runLinks] using more

/-- The receiver that is passed to the first link is the one of the source. -/
def Receives (receiver : Option Expr) (object : Found W) (vars : Vars W) : Prop :=
  match receiver with
  | none => object.receiver = W.undefined
  | some receiver => IsAtom receiver ∧ readAtom vars receiver = object.receiver

/-- What lowering calls with a receiver is called with that receiver. -/
theorem find_callWithThis (span : Span) (current receiver : Expr) (args : List Arg) :
    find (W := W) (.callWithThis span current receiver args) = do
      let function := Found.settle (← find current)
      let receiver := Found.settle (← find receiver)
      let args ← findArgs args
      return some (.plain (← .operate (W.call function.value receiver.value args))) := by
  simp [Expr.callWithThis, Expr.of, Expr.member, find, findShape, isMade, Expr.span, findHelper,
    isNamed, findArgs, Helper.call]

/-- The first link does the same outside of a chain, from what was kept of the base on. -/
theorem agree_firstLink {part part' : Link} {object : Found W} {again : Expr}
    {receiver : Option Expr} (sim : SimLink scopes env first second part part')
    (unmade : part.isCall = true → isMade part.span .plain again = false)
    (holds : Holds scopes second env vars)
    (reads : ∀ hidden, find again ⟨vars, hidden⟩
      = (.value (some (.plain object.value)), ⟨vars, hidden⟩))
    (receives : part.isCall = true → Receives receiver object vars) :
    Agree env vars (runLink object part) (find (buildLink receiver again part'))
      fun found found' vars' =>
        Found.settle found' = found ∧ Keeps scopes first second vars vars' := by
  -- Without a receiver to pass, the kept value is an object without one.
  have plainly : (part.isCall = true → object.receiver = W.undefined) →
      Agree env vars (runLink object part) (find (buildLink none again part'))
        fun found found' vars' =>
          Found.settle found' = found ∧ Keeps scopes first second vars vars' := by
    intro unreceived
    rw [find_buildLink (by rwa [sim.isCall, sim.span])]
    refine Agree.stepLowered reads ?_
    refine (@agree_link _ _ _ _ _ _ _ _ object (.plain object.value) sim holds rfl
      fun isCall => (unreceived isCall).symm).moreLowered ?_
    rintro found _ vars' ⟨rfl, kept, _⟩
    exact .done ⟨rfl, kept⟩
  cases receiver with
  | none => exact plainly receives
  | some receiver =>
    cases sim with
    | member isPublic => exact plainly (by simp [Link.isCall])
    | computed sim => exact plainly (by simp [Link.isCall])
    | call sim =>
      obtain ⟨isAtom', reads'⟩ := receives rfl
      rw [buildLink, find_callWithThis, runLink]
      refine Agree.stepLowered reads (Agree.stepLowered (find_atom isAtom' vars) ?_)
      refine (sim vars holds).next fun _ _ vars' ⟨sameArgs, kept⟩ => ?_
      simp only [sameArgs, Found.settle_some, Found.plain_value, reads']
      exact .operate fun _ => .done ⟨rfl, kept⟩

/-- The expression that links make outside of a chain. -/
def buildLinks (receiver : Option Expr) (again : Expr) : List Link → Expr
  | [] => again
  | part :: rest => rest.foldl (buildLink none) (buildLink receiver again part)

/-- Links do the same outside of a chain, from what was kept of the base on. -/
theorem agree_buildLinks {links links' : List Link} {object : Found W} {again : Expr}
    {receiver : Option Expr} {stop : Nat} (sims : SimLinks scopes env first second links links')
    (ends : EndsOn stop links)
    (unmade : ∀ span : Span, stop < span.stop → isMade span .plain again = false)
    (holds : Holds scopes second env vars)
    (reads : ∀ hidden, find again ⟨vars, hidden⟩
      = (.value (some (.plain object.value)), ⟨vars, hidden⟩))
    (receives : startsWithCall links = true → Receives receiver object vars) :
    Agree env vars (runLinks object links) (find (buildLinks receiver again links'))
      fun found found' vars' => (Found.settle found').value = found.value ∧
        (links ≠ [] → Found.settle found' = found) ∧ Keeps scopes first second vars vars' := by
  -- Without links the result is the reference itself; otherwise the first link takes the receiver,
  -- and the others follow it.
  cases sims with
  | nil =>
    intro hidden
    rw [buildLinks, reads]
    exact .value ⟨rfl, by simp, .refl _⟩
  | @cons part part' rest rest' sim others =>
    have starts := @agree_firstLink _ _ _ _ _ _ _ _ _ _ receiver sim
      (fun isCall => unmade _ (ends.2.1 isCall)) holds reads
      fun isCall => receives (by cases part <;> simp_all [startsWithCall, Link.isCall])
    refine (agree_links others ends.2.2 ?_ holds starts).weaken ?_
    · exact Nat.le_of_eq (by rw [span_buildLink, sim.span])
    · rintro found found' vars' ⟨rfl, kept⟩
      exact ⟨rfl, fun _ => rfl, kept⟩

end Meaning

end Downlevel
