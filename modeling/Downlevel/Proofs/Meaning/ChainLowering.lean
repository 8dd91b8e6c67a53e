import Downlevel.Proofs.Meaning.Chains

/-! A lowered chain does what the chain does, whatever it is used for. -/

namespace Downlevel

namespace Meaning

open Lowering

variable {W : World} {setting : Setting} {env vars : Vars W}

/-- A link is no private member. -/
def IsPublicLink : Link → Prop
  | .member _ name => isPrivateName name = false
  | _ => True

/-- Lowered links are not private. -/
theorem SimLinks.isPublic {scopes : ScopeTree} {before after : Progress} {links links' : List Link}
    (sims : SimLinks scopes env before after links links') : ∀ part ∈ links', IsPublicLink part := by
  induction sims with
  | nil => simp
  | cons sim others ih =>
    simp only [List.mem_cons, forall_eq_or_imp]
    refine ⟨?_, ih⟩
    cases sim with
    | member isPublic => exact isPublic
    | computed | call => trivial

/-- A link that is not the last one of a callee is followed as it is. -/
theorem followLinks_cons {mode : ChainMode} {part : Link} {rest : List Link} {current : Expr}
    {receiver : Option Expr} (isPublic : IsPublicLink part)
    (inside : mode ≠ .callee ∨ rest ≠ [] ∨ part.isCall = true)
    (received : receiver = none ∨ part.isCall = true) :
    followLinks mode (part :: rest) current receiver
      = followLinks mode rest (buildLink receiver current part) none := by
  -- In all three cases the link is added to what is built so far; a receiver is used up by a call
  -- only.
  cases part with
  | member span name =>
    obtain rfl : receiver = none := by simpa [Link.isCall] using received
    have notLast : ¬(mode = .callee ∧ rest.isEmpty = true) := by
      simpa [Link.isCall, Classical.or_iff_not_imp_left] using inside
    simp only [followLinks, privateBinding?_eq isPublic, pure_bind, Option.isSome_none,
      Bool.and_false, Bool.false_eq_true, if_false, notLast, memberOrPrivate]
    rfl
  | computed span key =>
    obtain rfl : receiver = none := by simpa [Link.isCall] using received
    have notLast : ¬(mode = .callee ∧ rest.isEmpty = true) := by
      simpa [Link.isCall, Classical.or_iff_not_imp_left] using inside
    simp only [followLinks, notLast, if_false]
    rfl
  | call span isPure args => cases receiver <;> simp only [followLinks] <;> rfl

/-- All links but the last one are followed as they are. -/
theorem followLinks_concat {mode : ChainMode} {links : List Link} {last : Link} {current : Expr}
    {receiver : Option Expr} (isPublic : ∀ part ∈ links, IsPublicLink part)
    (received : receiver = none ∨ startsWithCall (links ++ [last]) = true) :
    followLinks mode (links ++ [last]) current receiver
      = followLinks mode [last] (buildLinks receiver current links)
        (if links = [] then receiver else none) := by
  cases links with
  | nil => rfl
  | cons part rest =>
    simp only [List.mem_cons, forall_eq_or_imp] at isPublic
    have starts : receiver = none ∨ part.isCall = true := by
      cases part <;> simp_all [startsWithCall, Link.isCall]
    rw [List.cons_append, followLinks_cons isPublic.1 (by simp) starts, buildLinks]
    simp only [reduceCtorEq, if_false]
    generalize buildLink receiver current part = current'
    have others := isPublic.2
    clear received starts isPublic
    -- The receiver was passed on to the first link, so all others go the same way.
    induction rest generalizing current' with
    | nil => rfl
    | cons next rest ih =>
      simp only [List.mem_cons, forall_eq_or_imp] at others
      rw [List.cons_append, followLinks_cons others.1 (by simp) (.inl rfl), List.foldl_cons]
      exact ih _ others.2

/-- The last link is followed as it is unless it is an access whose object is needed again. -/
theorem followLinks_last {mode : ChainMode} {last : Link} {current : Expr} {receiver : Option Expr}
    (isPublic : IsPublicLink last) (inside : mode ≠ .callee ∨ last.isCall = true)
    (received : receiver = none ∨ last.isCall = true) :
    followLinks mode [last] current receiver = pure (buildLink receiver current last, none) := by
  rw [followLinks_cons isPublic (by simpa using inside) received]
  rfl

/-- The last access of a callee captures its object. -/
theorem followLinks_callee {last : Link} {current : Expr} {receiver : Option Expr}
    (isPublic : IsPublicLink last) (isAccess : last.isCall = false) :
    followLinks .callee [last] current receiver = do
      let (object, receiver) ← capture current
      return (buildLink none object last, some receiver) := by
  -- The object of the last access is captured, as it is the receiver of the call that follows.
  cases last with
  | member span name =>
    simp only [followLinks, startsWithCall, privateBinding?_eq isPublic, pure_bind,
      Bool.false_and, Bool.false_eq_true, if_false, List.isEmpty_nil, and_self, if_true,
      memberOrPrivate]
    rfl
  | computed span key =>
    simp only [followLinks, List.isEmpty_nil, and_self, if_true]
    rfl
  | call => simp [Link.isCall] at isAccess

/-- Links make the same expression one by one. -/
theorem buildLinks_concat (receiver : Option Expr) (again : Expr) (links : List Link)
    (last : Link) :
    buildLinks receiver again (links ++ [last])
      = buildLink (if links = [] then receiver else none) (buildLinks receiver again links) last := by
  cases links with
  | nil => rfl
  | cons part rest => simp [buildLinks]

/-- Links that are not those of a callee, or end with a call, are all followed as they are. -/
theorem followLinks_build {mode : ChainMode} {links : List Link} {last : Link} {current : Expr}
    {receiver : Option Expr} (isPublic : ∀ part ∈ links ++ [last], IsPublicLink part)
    (inside : mode ≠ .callee ∨ last.isCall = true)
    (received : receiver = none ∨ startsWithCall (links ++ [last]) = true) :
    followLinks mode (links ++ [last]) current receiver
      = pure (buildLinks receiver current (links ++ [last]), none) := by
  simp only [List.mem_append, List.mem_singleton, or_imp, forall_and, forall_eq] at isPublic
  rw [followLinks_concat isPublic.1 received, followLinks_last isPublic.2 inside,
    buildLinks_concat]
  -- The receiver belongs to the first link, which is the last one too where the chain is one link.
  cases links with
  | nil => cases last <;> simp_all [startsWithCall, Link.isCall]
  | cons => exact .inl rfl

/-- The last links are lowered apart from those before. -/
theorem SimLinks.concat {scopes : ScopeTree} {before after : Progress} {links all : List Link}
    {last : Link} (sims : SimLinks scopes env before after (links ++ [last]) all) :
    ∃ links' last', all = links' ++ [last'] ∧ SimLinks scopes env before after links links' ∧
      SimLink scopes env before after last last' := by
  -- Along the links, as the relation pairs them one by one.
  induction links generalizing all with
  | nil =>
    cases sims with
    | cons sim others =>
      cases others with
      | nil => exact ⟨[], _, rfl, .nil, sim⟩
  | cons part rest ih =>
    cases sims with
    | cons sim others =>
      obtain ⟨links', last', rfl, sims, simLast⟩ := ih others
      exact ⟨_ :: links', last', rfl, .cons sim sims, simLast⟩

/-- What links make can be no expression that is repeated. -/
theorem isReusable_buildLinks {receiver : Option Expr} {again : Expr} {links : List Link}
    (isLink : links ≠ []) : isReusable (buildLinks receiver again links) = false := by
  obtain ⟨rest, last, rfl⟩ := List.eq_nil_or_concat links |>.resolve_left isLink
  rw [List.concat_eq_append, buildLinks_concat]
  generalize (if rest = [] then receiver else none) = receiver'
  cases last <;> cases receiver' <;> rfl

/-- The lowering of a link does what the link does. -/
inductive LowersLink (setting : Setting) (env : Vars W) : Link → LinkForms → Prop
  | member {span : Span} {name : String} (isPublic : isPrivateName name = false) :
      LowersLink setting env (.member span name) (.member span name)
  | computed {span : Span} {key : Expr} {step : Lower Expr} (lowers : Lowers setting env key step) :
      LowersLink setting env (.computed span key) (.computed span step)
  | call {span : Span} {isPure : Bool} {args : List Arg} {step : Lower (List Arg)}
      (lowers : ∀ progress, Ready setting.scopes progress →
        Yields setting progress step (SimArgs setting.scopes env progress · args)) :
      LowersLink setting env (.call span isPure args) (.call span isPure step)

/-- The lowering of links does what the links do. -/
inductive LowersLinks (setting : Setting) (env : Vars W) : List Link → List LinkForms → Prop
  | nil : LowersLinks setting env [] []
  | cons {part : Link} {form : LinkForms} {rest : List Link} {forms : List LinkForms}
      (lowers : LowersLink setting env part form) (others : LowersLinks setting env rest forms) :
      LowersLinks setting env (part :: rest) (form :: forms)

/-- One more link at the end. -/
theorem LowersLinks.concat {links : List Link} {forms : List LinkForms} {part : Link}
    {form : LinkForms} (lowers : LowersLinks setting env links forms)
    (last : LowersLink setting env part form) :
    LowersLinks setting env (links ++ [part]) (forms ++ [form]) := by
  induction lowers with
  | nil => exact .cons last .nil
  | cons first others ih => exact .cons first ih

/-- A link that is part of a longer piece of code. -/
theorem SimLink.wide {scopes : ScopeTree} {begin before after final : Progress} {part part' : Link}
    (sim : SimLink scopes env before after part part') (begins : Extends scopes begin before)
    (goesOn : Extends scopes after final) : SimLink scopes env begin final part part' := by
  cases sim with
  | member isPublic => exact .member isPublic
  | computed sim => exact .computed (sim.wide begins goesOn)
  | call sim => exact .call (sim.wide begins goesOn)

/-- Links that are part of a longer piece of code. -/
theorem SimLinks.wide {scopes : ScopeTree} {begin before after final : Progress}
    {links links' : List Link} (sims : SimLinks scopes env before after links links')
    (begins : Extends scopes begin before) (goesOn : Extends scopes after final) :
    SimLinks scopes env begin final links links' := by
  induction sims with
  | nil => exact .nil
  | cons sim others ih => exact .cons (sim.wide begins goesOn) ih

/-- Lowering a link gives one that does the same. -/
theorem LowersLink.yields {part : Link} {form : LinkForms} (lowers : LowersLink setting env part form)
    {progress : Progress} (ready : Ready setting.scopes progress) :
    Yields setting progress form.lower (SimLink setting.scopes env progress · part) := by
  cases lowers with
  | member isPublic => exact .done ready (.member isPublic)
  | computed lowers =>
    exact .next (lowers _ ready) fun _ _ ready' _ valued => .done ready' (.computed valued.value)
  | call lowers => exact .next (lowers _ ready) fun _ _ ready' _ sim => .done ready' (.call sim)

/-- Lowering links gives ones that do the same. -/
theorem LowersLinks.yields {links : List Link} {forms : List LinkForms}
    (lowers : LowersLinks setting env links forms) {progress : Progress}
    (ready : Ready setting.scopes progress) :
    Yields setting progress (forms.mapM LinkForms.lower)
      (SimLinks setting.scopes env progress · links) := by
  -- Along the links: what the earlier ones prove must hold on to the end, so each pair is widened
  -- by the names that follow.
  induction lowers generalizing progress with
  | nil => exact .done ready .nil
  | cons lowers others ih =>
    rw [List.mapM_cons]
    refine .next (lowers.yields ready) fun part' _ ready₁ extended₁ sim => ?_
    refine .next (ih ready₁) fun rest' _ ready₂ extended₂ sims => .done ready₂ ?_
    exact .cons (sim.wide (.refl _) extended₂) (sims.wide extended₁ (.refl _))

/-- The base of a chain, lowered as what its first link needs. -/
def BaseForms.head (base : BaseForms) (isCalled : Bool) : Lower (Expr × Option Expr) :=
  if isCalled then base.callee else (·, none) <$> base.value

/-- The part of lowering a chain that comes before its links are followed. -/
def openChain (span : Span) (base : BaseForms) (forms : List LinkForms) :
    Lower (Expr × Expr × Option Expr × List Link) := do
  let isCalled := forms.head?.any LinkForms.isCall
  let (head, receiver) ← BaseForms.head base isCalled
  let links ← forms.mapM LinkForms.lower
  let (tested, again) ← capture head
  let isEval := isCalled && receiver.isNone && head.isId "eval"
  return (tested, if isEval then (Expr.num span "0").andThen again else again, receiver, links)

/-- Lowering a chain opens it and follows its links, unless it collapses. -/
theorem lowerChain_eq (span : Span) (mode : ChainMode) (base : BaseForms)
    (forms : List LinkForms) :
    lowerChain span mode ⟨some base, forms⟩ = do
      if isNullish (← bindsUndefined) base.source then
        let value ← base.value
        let _ ← forms.mapM LinkForms.lower
        return (collapse span mode value, none)
      else
        let (tested, again, receiver, links) ← openChain span base forms
        let (result, resultReceiver) ← followLinks mode links again receiver
        let result := if mode = .delete then .unary span .delete result else result
        let test := .binary span .equality tested (.null span)
        return (.cond span test (cutShort span mode) result, resultReceiver) := by
  unfold lowerChain openChain BaseForms.head
  simp only
  congr 1
  funext binds
  -- Whether the first link calls decides which form of the base is asked for; the two branches
  -- agree otherwise.
  cases Option.any LinkForms.isCall forms.head? <;>
    simp only [Bool.false_eq_true, if_true, if_false, bind_assoc, pure_bind]

/-- A lowered base, and the receiver to pass when the base is called and the object of its last
access is lost. -/
structure Headed (setting : Setting) (env : Vars W) (isCalled : Bool) (before after : Progress)
    (e head : Expr) (receiver : Option Expr) : Prop where
  run : ∀ vars, Holds setting.scopes after env vars →
    Agree env vars (find e) (find head) fun found found' vars' =>
      SameValue found found' ∧ Keeps setting.scopes before after vars vars' ∧
        (isCalled = true → W.isNullish (Found.settle found).value = true ∨
          Receives receiver (Found.settle found) vars')
  guarded : ∀ kept, receiver = some kept → ∃ made, Guarded setting.scopes made after kept
  unneeded : isCalled = false → receiver = none
  ends : EndsBy e.span.stop head
  fixed : isReusable head = true → Fixed setting.scopes after head

/-- Lowering a base always gives one that can take its place. -/
def Heads (setting : Setting) (env : Vars W) (isCalled : Bool) (e : Expr)
    (step : Lower (Expr × Option Expr)) : Prop :=
  ∀ progress, Ready setting.scopes progress →
    Yields setting progress step fun after pair =>
      Headed setting env isCalled progress after e pair.1 pair.2

/-- A base that is not called is lowered as a value. -/
theorem Lowers.heads {e : Expr} {step : Lower Expr} (lowers : Lowers setting env e step) :
    Heads setting env false e ((·, none) <$> step) := by
  intro progress ready
  refine .map ((lowers _ ready).weaken fun after lowered _ valued => ?_)
  refine ⟨fun vars holds => ?_, by simp, fun _ => rfl, valued.ends, valued.fixed⟩
  exact (valued.value vars holds).weaken fun _ _ _ ⟨same, kept⟩ => ⟨same, kept, by simp⟩

/-- What was kept of a base reads as the base, and so does the receiver for the first link. -/
def Starts (receiver : Option Expr) (again : Expr) (links : List Link) (object : Found W)
    (vars : Vars W) : Prop :=
  (∀ hidden, find again ⟨vars, hidden⟩
    = (.value (some (.plain object.value)), ⟨vars, hidden⟩)) ∧
    (startsWithCall links = true → Receives receiver object vars)

/-- A chain whose base is tested and kept, and whose links are still to be followed: all of it was
lowered between the first moment and the last, and the links between the first and the second. -/
structure Opened (setting : Setting) (env : Vars W) (begin first second final : Progress)
    (base : Expr) (links : List Link) (tested again : Expr) (receiver : Option Expr)
    (links' : List Link) : Prop where
  begins : Extends setting.scopes begin first
  goesOn : Extends setting.scopes first second
  ends : Extends setting.scopes second final
  test : ∀ {later vars}, Extends setting.scopes final later → Holds setting.scopes later env vars →
    Agree env vars (find base) (find tested) fun found found' vars' =>
      SameValue found found' ∧ Keeps setting.scopes begin final vars vars' ∧
        Holds setting.scopes later env vars' ∧
        (W.isNullish (Found.settle found).value = true ∨
          Starts receiver again links (Found.settle found) vars')
  unmade : ∀ span : Span, base.span.stop < span.stop → isMade span .plain again = false
  sims : SimLinks setting.scopes env first second links links'
  guarded : isReusable again = true → Guarded setting.scopes second final again
  received : receiver = none ∨ startsWithCall links' = true

/-- Whether the first link is a call is known before it is lowered. -/
theorem LowersLinks.isCalled {links : List Link} {forms : List LinkForms}
    (lowers : LowersLinks setting env links forms) :
    forms.head?.any LinkForms.isCall = startsWithCall links := by
  cases lowers with
  | nil => rfl
  | cons lowers others => cases lowers <;> rfl

/-- A lowered chain starts with a call if its source does. -/
theorem SimLinks.isCalled {scopes : ScopeTree} {before after : Progress} {links links' : List Link}
    (sims : SimLinks scopes env before after links links') :
    startsWithCall links' = startsWithCall links := by
  cases sims with
  | nil => rfl
  | cons sim others => cases sim <;> rfl

/-- A bare name that is called is not changed by the number in front of it. -/
theorem find_afterZero (span : Span) {again : Expr} (isAtom : IsAtom again) (vars : Vars W)
    (hidden : W.State) :
    find ((Expr.num span "0").andThen again) ⟨vars, hidden⟩
      = (.value (some (.plain (readAtom vars again))), ⟨vars, hidden⟩) := by
  rw [Expr.andThen, Expr.binary, Expr.of, Expr.num, Expr.of, find, findShape, find, findShape,
    pure_bind]
  change Run.next _ _ _ = _
  rw [Run.next, find_atom isAtom]
  rfl

/-- What the first link is passed is still there once the base is captured. -/
theorem Receives.kept {scopes : ScopeTree} {known before after : Progress} {vars' : Vars W}
    {receiver : Option Expr} {object : Found W} (receives : Receives receiver object vars)
    (guarded : ∀ kept, receiver = some kept → ∃ made, Guarded scopes made known kept)
    (begins : Extends scopes known before) (goesOn : Extends scopes before after)
    (keeps : Keeps scopes before after vars vars') : Receives receiver object vars' := by
  cases receiver with
  | none => exact receives
  | some kept =>
    obtain ⟨made, isGuarded⟩ := guarded kept rfl
    exact ⟨receives.1, (isGuarded.after begins goesOn keeps).trans receives.2⟩

/-- Every chain can be opened. -/
theorem openChain_yields {span : Span} {base : BaseForms} {e : Expr} {links : List Link}
    {forms : List LinkForms} (lowersValue : Lowers setting env e base.value)
    (headsCallee : Heads setting env true e base.callee)
    (lowers : LowersLinks setting env links forms) {begin : Progress}
    (ready : Ready setting.scopes begin) :
    Yields setting begin (openChain span base forms) fun final parts =>
      ∃ first second, Opened setting env begin first second final e links parts.1 parts.2.1
        parts.2.2.1 parts.2.2.2 := by
  have heads : Heads setting env (startsWithCall links) e
      (BaseForms.head base (forms.head?.any LinkForms.isCall)) := by
    rw [lowers.isCalled]
    cases startsWithCall links with
    | true => exact headsCallee
    | false => exact lowersValue.heads
  rw [openChain]
  -- The base, then the links' own parts, then the capture of the base: the links are lowered before
  -- the capture, so the base must not have changed in between.
  refine Yields.next (heads _ ready) fun ⟨head, receiver⟩ first ready₁ extended₁ headed => ?_
  refine .next (lowers.yields ready₁) fun links' second ready₂ extended₂ sims => ?_
  refine .next (capture_yields ready₂ fun reusable => (headed.fixed reusable).later extended₂) ?_
  rintro ⟨tested, again⟩ final ready₃ extended₃ captured
  refine .done ready₃ ⟨first, second, extended₁, extended₂, extended₃, ?_, ?_, sims, ?_, ?_⟩
  · intro later vars goesOn holds
    have extended := extended₂.trans (extended₃.trans goesOn)
    refine (captured.run (headed.run vars (holds.earlier extended))).weaken ?_
    rintro found found' vars' ⟨found₀, vars₀, ⟨same, kept, receives⟩, settled, reads, kept'⟩
    refine ⟨?_, ?_, ?_, ?_⟩
    · rw [SameValue, settled, Found.plain_value, show _ = _ from same]
    · exact (kept.later (extended₂.trans extended₃)).twice
        (kept'.earlier (extended₁.trans extended₂))
    · exact (holds.kept extended kept).kept goesOn kept'
    · rw [show _ = _ from same] at reads
      -- The base is missing, or the links start from what the capture stored.
      by_cases short : W.isNullish (Found.settle found).value = true
      · exact .inl short
      refine .inr ⟨fun hidden => ?_, fun isCalled => ?_⟩
      · rw [← reads]
        split
        · exact find_afterZero span captured.guarded.1 vars' hidden
        · exact find_atom captured.guarded.1 vars' hidden
      · exact ((receives isCalled).resolve_left short).kept headed.guarded extended₂ extended₃ kept'
  · intro span' later
    dsimp only
    split
    · simp [isMade, isNamed, Expr.andThen, Expr.binary, Expr.of]
    · refine isMade_of_stop (Nat.lt_of_le_of_lt ?_ later)
      rw [captured.againSpan]
      exact headed.ends.stop
  · dsimp only
    split
    · simp [isReusable, Expr.andThen, Expr.binary, Expr.of]
    · exact fun _ => captured.guarded
  · rw [sims.isCalled]
    cases isCalled : startsWithCall links with
    | true => exact .inr rfl
    | false => exact .inl (headed.unneeded isCalled)

/-- A test for a missing value chooses by whether the value is nullish. -/
theorem find_ifMissing (span : Span) (tested missing there : Expr) :
    find (W := W) (.cond span (.binary span .equality tested (.null span)) missing there) = do
      let value := (Found.settle (← find tested)).value
      if W.isNullish value then
        return some (.plain (Found.settle (← find missing)).value)
      else
        return some (.plain (Found.settle (← find there)).value) := by
  simp only [Expr.cond, Expr.binary, Expr.of, find, findShape, Expr.null, isNullLiteral,
    bind_assoc, if_true, pure_bind, Found.settle_some, Found.plain_value, W.isTrue_bool]
  -- A test against null is the question whether the value is nullish, as in `find_ifThere`.
  congr 1
  funext found
  by_cases missing : W.isNullish (Found.settle found).value = true <;> simp [missing]

end Meaning

end Downlevel
