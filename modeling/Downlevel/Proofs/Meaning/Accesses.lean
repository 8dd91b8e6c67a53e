import Downlevel.Proofs.Forms
import Downlevel.Proofs.Meaning.ChainModes

/-! Member accesses and calls are all lowered alike, in a chain or outside of one. -/

namespace Downlevel

namespace Meaning

open Lowering

variable {W : World} {setting : Setting} {env : Vars W} {origin : Origin} {object : Expr}
  {link : ChainLink} {part : Link}

/-- The forms of a link. -/
def formsOf : Link → LinkForms
  | .member span name => .member span name
  | .computed span key => .computed span (exprForms key).value
  | .call span isPure args => .call span isPure (argsStep args)

/-- An access or call stays as it is, once its object and its parts are lowered. -/
def keptLink (origin : Origin) (link : ChainLink) (part : Link) (inner : Lower Expr) :
    Lower Expr := do
  let object ← inner
  let part ← (formsOf part).lower
  return ⟨origin, part.shape link object⟩

/-- In a chain that stays, every link stays. -/
theorem natively_eq : (exprForms ⟨origin, part.shape link object⟩).natively
    = keptLink origin link part (nativeObject link (exprForms object)) := by
  -- The three links are one lowering with different parts; the definition is opened once for each.
  cases part with
  | member span name =>
    rw [Link.shape, exprForms_member, memberForms, linkForms]
    split <;> simp [keptLink, formsOf, LinkForms.lower, Link.shape]
  | computed span key =>
    rw [Link.shape, exprForms_computed, computedForms, linkForms]
    split <;> simp [keptLink, formsOf, LinkForms.lower, Link.shape]
  | call span isPure args =>
    rw [Link.shape, exprForms_call, callForms, linkForms]
    split <;> simp [keptLink, formsOf, LinkForms.lower, Link.shape]

/-- A link starts a chain on its object or goes on with the one of its object. -/
theorem chain_eq (written : part.span = origin.span) :
    (exprForms ⟨origin, part.shape link object⟩).chain
      = chainOn link (exprForms object) (formsOf part) := by
  cases part with
  | member span name =>
    obtain rfl : span = origin.span := written
    rw [Link.shape, exprForms_member, memberForms, linkForms]
    split <;> rfl
  | computed span key =>
    obtain rfl : span = origin.span := written
    rw [Link.shape, exprForms_computed, computedForms, linkForms]
    split <;> rfl
  | call span isPure args =>
    obtain rfl : span = origin.span := written
    rw [Link.shape, exprForms_call, callForms, linkForms]
    split <;> rfl

/-- A part of a chain is lowered along with its chain. -/
theorem value_chained (isChained : link.isChained = true) :
    (exprForms ⟨origin, part.shape link object⟩).value
      = Prod.fst <$> optionalChain (exprForms ⟨origin, part.shape link object⟩) .value := by
  cases part with
  | member span name =>
    rw [Link.shape, exprForms_member, memberForms, linkForms, if_pos isChained]
    rfl
  | computed span key =>
    rw [Link.shape, exprForms_computed, computedForms, linkForms, if_pos isChained]
    rfl
  | call span isPure args =>
    rw [Link.shape, exprForms_call, callForms, linkForms, if_pos isChained]
    rfl

/-- Covered accesses are not private. -/
theorem privateMember?_link (isPublic : IsPublicLink part) :
    privateMember? (exprForms ⟨origin, part.shape link object⟩) = pure none := by
  cases part with
  | member span name =>
    rw [Link.shape, exprForms_member, memberForms, linkForms]
    split <;> simp [privateMember?, privateBinding?_eq isPublic]
  | computed span key =>
    rw [Link.shape, exprForms_computed, computedForms, linkForms]
    split <;> rfl
  | call span isPure args =>
    rw [Link.shape, exprForms_call, callForms, linkForms]
    split <;> rfl

/-- Outside of a chain every access or call stays. -/
theorem value_plain (isPublic : IsPublicLink part)
    (uncalled : part.isCall = true → object.isChained = false ∧
      privateMember? (exprForms object) = pure none) :
    (exprForms ⟨origin, part.shape .plain object⟩).value
      = keptLink origin .plain part (exprForms object).value := by
  cases part with
  | member span name =>
    -- A private name would be lowered on its own, which a public link rules out.
    rw [Link.shape, exprForms_member, memberForms, linkForms, if_neg (by decide)]
    simp [privateBinding?_eq isPublic, keptLink, formsOf, LinkForms.lower, Link.shape]
  | computed span key =>
    rw [Link.shape, exprForms_computed, computedForms, linkForms, if_neg (by decide)]
    simp [keptLink, formsOf, LinkForms.lower, Link.shape]
  | call span isPure args =>
    -- The callee of a plain call is neither a chain nor a private member here, so it is lowered as
    -- any value.
    obtain ⟨unchained, unprivate⟩ := uncalled rfl
    rw [Link.shape, exprForms_call, callForms, linkForms, if_neg (by decide)]
    simp [calledExpr, exprForms_source, unchained, unprivate, keptLink, formsOf, LinkForms.lower,
      Link.shape]

/-- An expression is a chain, and all its parts can be lowered. -/
def HasChain (setting : Setting) (env : Vars W) (e : Expr) : Prop :=
  ∃ base links forms, Chain e base links ∧
    (exprForms e).chain = ⟨some ⟨base, (exprForms base).value, splitCallee (exprForms base)⟩, forms⟩ ∧
    EndsOn base.span.stop links ∧ LowersLinks setting env links forms ∧
    Lowers setting env base (exprForms base).value ∧
    (setting.options.target.supports .optionalChain = false →
      Heads setting env true base (splitCallee (exprForms base)))

/-- The object and the part of an access or call were lowered one after the other, and it stays. -/
def Stays (setting : Setting) (env : Vars W) (before after : Progress) (origin : Origin)
    (link : ChainLink) (part : Link) (object lowered : Expr) : Prop :=
  ∃ same middle object' part', lowered = ⟨origin, part'.shape link object'⟩ ∧
    FollowsAlike W link same ∧ (part.isCall = true → CallsAlike W link same) ∧
    Extends setting.scopes before middle ∧ Extends setting.scopes middle after ∧
    Sim setting.scopes env same before middle object object' ∧
    SimLink setting.scopes env middle after part part' ∧ object'.span.stop ≤ object.span.stop

/-- All that is known of how an expression is lowered, in every form it has. -/
structure Preserved (setting : Setting) (env : Vars W) (e : Expr) : Prop where
  unprivate : privateMember? (exprForms e) = pure none
  notSuper : isSuper e = false
  value : Lowers setting env e (exprForms e).value
  natively : e.isChained = true → setting.options.target.supports .optionalChain = true →
    ∀ progress, Ready setting.scopes progress →
      Yields setting progress (exprForms e).natively fun after lowered =>
        Sim setting.scopes env SameReach progress after e lowered ∧ lowered.span = e.span
  callee : setting.options.target.supports .optionalChain = false →
    Heads setting env true e (splitCallee (exprForms e))
  chain : e.isChained = true → HasChain setting env e
  removed : isAccess e = true → ∀ origin : Origin, e.span.stop ≤ origin.span.stop →
    Lowers setting env ⟨origin, .unary .delete e⟩ (unary origin .delete (exprForms e))

section Link

variable (written : part.span = origin.span) (isPublic : IsPublicLink part)
  (preserved : Preserved setting env object)
  (lowersPart : LowersLink setting env part (formsOf part))
  (goesOn : link = .continues → object.isChained = true)
  (stops : object.span.stop ≤ origin.span.stop)
  (callStops : part.isCall = true → object.span.stop < origin.span.stop)
  (uncalled : part.isCall = true → link = .plain → object.isChained = false)

/-- What stays reaches the same. -/
theorem Stays.sim {before after : Progress} {lowered : Expr}
    (stays : Stays setting env before after origin link part object lowered)
    (callStops : part.isCall = true → object.span.stop < origin.span.stop) :
    Sim setting.scopes env SameReach before after ⟨origin, part.shape link object⟩ lowered := by
  obtain ⟨same, middle, object', part', rfl, follows, calls, begins, goesOn, sim, simPart, ends⟩ :=
    stays
  refine sim_shape follows calls (fun isCall => isMade_of_stop (callStops isCall))
    (fun isCall => isMade_of_stop ?_) begins goesOn sim simPart
  exact Nat.lt_of_le_of_lt ends (callStops isCall)

/-- What stays is neither a sequence nor something that can be repeated. -/
theorem Stays.valued {before after : Progress} {lowered : Expr}
    (stays : Stays setting env before after origin link part object lowered)
    (callStops : part.isCall = true → object.span.stop < origin.span.stop) :
    Valued setting env before after ⟨origin, part.shape link object⟩ lowered := by
  have sim := stays.sim callStops
  obtain ⟨same, middle, object', part', rfl, -⟩ := stays
  refine .ofReach sim ?_ ?_ ?_ rfl ?_
  · cases part' <;> rfl
  · cases part' <;> simp [Link.shape]
  · cases part' <;> simp [Link.shape]
  · cases part <;> rintro ⟨⟩

/-- Removing what stays does what removing its source does. -/
theorem Stays.removes {before after : Progress} {lowered : Expr}
    (stays : Stays setting env before after origin link part object lowered)
    (isAccess : part.isCall = false) {whole : Origin} :
    Valued setting env before after ⟨whole, .unary .delete ⟨origin, part.shape link object⟩⟩
      ⟨whole, .unary .delete lowered⟩ := by
  obtain ⟨same, middle, object', part', rfl, follows, calls, begins, goesOn, sim, simPart, ends⟩ :=
    stays
  refine .ofReach (fun vars holds => ?_) rfl (by simp) (by simp) rfl nofun
  rw [find_delete, find_delete, remove_shape isAccess,
    remove_shape (by rw [simPart.isCall, isAccess])]
  simp only [bind_assoc]
  refine (sim.run goesOn holds).next fun found found' vars' ⟨related, kept, holds'⟩ => ?_
  -- Delete evaluates the object and removes instead of reading, so the object's agreement serves as
  -- in the read.
  have reached := follows found found' related
  generalize Found.follow link found = from' at reached ⊢
  generalize Found.follow link found' = from'' at reached ⊢
  cases from' with
  | none =>
    obtain rfl : from'' = none := by simpa using reached
    exact .done ⟨rfl, kept.later goesOn⟩
  | some object =>
    obtain ⟨object', rfl, same⟩ : ∃ object', from'' = some object' ∧ object'.value = object.value :=
      by simpa using reached
    refine (agree_removeLink simPart isAccess holds' same).next ?_
    rintro value _ vars'' ⟨rfl, kept'⟩
    exact .done ⟨rfl, kept.trans begins goesOn kept'⟩

include lowersPart in
/-- An access or call whose object was lowered stays. -/
theorem keptLink_yields {same : Option (Found W) → Option (Found W) → Prop} {inner : Lower Expr}
    {progress : Progress} (follows : FollowsAlike W link same)
    (calls : part.isCall = true → CallsAlike W link same)
    (yields : Yields setting progress inner fun after lowered =>
      Sim setting.scopes env same progress after object lowered ∧
        lowered.span.stop ≤ object.span.stop) :
    Yields setting progress (keptLink origin link part inner) fun after lowered =>
      Stays setting env progress after origin link part object lowered := by
  -- The object first, then the link's own parts: the progress between the two is the middle one.
  refine .next yields fun object' middle ready₁ extended₁ ⟨sim, ends⟩ => ?_
  refine .next (lowersPart.yields ready₁) fun part' after ready₂ extended₂ simPart => .done ready₂ ?_
  exact ⟨same, middle, object', part', rfl, follows, calls, extended₁, extended₂, sim, simPart,
    ends⟩

/-- Links that are not private do not force a chain to be lowered. -/
theorem LowersLinks.unprivate {links : List Link} {forms : List LinkForms}
    (lowers : LowersLinks setting env links forms) :
    forms.anyM LinkForms.isLoweredPrivate = pure false := by
  induction lowers with
  | nil => rfl
  | cons lowers others ih =>
    -- Each link of a public chain answers the question without asking for anything.
    have isPublic : ∀ {part form}, LowersLink setting env part form →
        LinkForms.isLoweredPrivate form = pure false := by
      intro part form lowers
      cases lowers with
      | member isPublic => simp [LinkForms.isLoweredPrivate, privateBinding?_eq isPublic]
      | computed | call => rfl
    simp [List.anyM, isPublic lowers, ih]

/-- What is nullish by its name is always nullish. -/
theorem isNullish_of_bare {binds : Bool} {e : Expr} (bare : isBareNullish binds e = true) :
    isNullish binds e = true := by
  obtain ⟨origin, shape⟩ := e
  cases shape with
  | null => rfl
  | id name => exact bare
  | _ => simp [isBareNullish] at bare

/-- Going on once it is known whether a chain has to be lowered. -/
theorem Yields.needsLowering {α : Type} {base : BaseForms} {links : List Link}
    {forms : List LinkForms} {rest : Bool → Lower α} {demand : Progress → α → Prop}
    {progress : Progress} (lowers : LowersLinks setting env links forms)
    (needed : setting.options.target.supports .optionalChain = false ∨ IsNullish setting base.source →
      Yields setting progress (rest true) demand)
    (unneeded : setting.options.target.supports .optionalChain = true →
      Yields setting progress (rest false) demand) :
    Yields setting progress (needsLowering ⟨some base, forms⟩ >>= rest) demand := by
  rw [Lowering.needsLowering, lowers.unprivate]
  -- Privacy settles nothing here, so the target decides, and after it whether the base is a bare
  -- undefined.
  simp only [pure_bind, Bool.false_eq_true, if_false, bind_assoc]
  refine .lacks ?_
  cases supported : setting.options.target.supports .optionalChain with
  | false => exact needed (.inl supported)
  | true =>
    simp only [Bool.not_true, Bool.false_eq_true, if_false, bind_assoc, pure_bind]
    refine .bindsUndefined ?_
    simp only [Option.any_some]
    cases bare : isBareNullish (setting.scopes.declares "undefined") base.source with
    | false => exact unneeded supported
    | true => exact needed (.inr (isNullish_of_bare bare))

include preserved lowersPart goesOn in
/-- In a chain that stays, what every link reaches stays the same. -/
theorem link_natively
    (supported : setting.options.target.supports .optionalChain = true) {progress : Progress}
    (ready : Ready setting.scopes progress) :
    Yields setting progress (exprForms ⟨origin, part.shape link object⟩).natively
      fun after lowered => Stays setting env progress after origin link part object lowered := by
  rw [natively_eq]
  -- Inside a chain the object is kept as it is written; at its head it is lowered as a value that
  -- may be called.
  by_cases inside : link = .continues
  · have alike := callsAlike_reach (W := W) link
    refine keptLink_yields lowersPart alike.follows (fun _ => alike) ?_
    rw [nativeObject, if_pos inside]
    refine (preserved.natively (goesOn inside) supported progress ready).weaken ?_
    exact fun _ _ _ ⟨sim, sameSpan⟩ => ⟨sim, Nat.le_of_eq (congrArg Span.stop sameSpan)⟩
  · have alike := callsAlike_callee (W := W) inside
    refine keptLink_yields lowersPart alike.follows (fun _ => alike) ?_
    rw [nativeObject, if_neg inside]
    refine (preserved.value progress ready).weaken fun _ _ _ valued => ?_
    exact ⟨valued.callee (.inr supported), valued.ends.stop⟩

include isPublic preserved lowersPart uncalled in
/-- Outside of a chain, what an access or call reaches stays the same. -/
theorem link_plain (isPlain : link = .plain) {progress : Progress}
    (ready : Ready setting.scopes progress) :
    Yields setting progress (exprForms ⟨origin, part.shape link object⟩).value
      fun after lowered => Stays setting env progress after origin link part object lowered := by
  subst isPlain
  rw [value_plain isPublic fun isCall => ⟨uncalled isCall rfl, preserved.unprivate⟩]
  -- Only a call looks at the receiver of its object; the other links look at its value alone.
  cases isCall : part.isCall with
  | true =>
    have alike := @callsAlike_callee W .plain (by decide)
    refine keptLink_yields lowersPart alike.follows (fun _ => alike) ?_
    refine (preserved.value progress ready).weaken fun _ _ _ valued => ?_
    exact ⟨valued.callee (.inl (uncalled isCall rfl)), valued.ends.stop⟩
  | false =>
    refine keptLink_yields lowersPart (followsAlike_value (by decide)) (by simp [isCall]) ?_
    exact (preserved.value progress ready).weaken fun _ _ _ valued =>
      ⟨valued.value, valued.ends.stop⟩

include written preserved lowersPart goesOn stops callStops in
/-- A part of a chain is a chain whose parts can all be lowered. -/
theorem link_chain (isChained : link.isChained = true) :
    HasChain setting env ⟨origin, part.shape link object⟩ := by
  rw [← written] at stops callStops
  rw [HasChain, chain_eq written]
  -- The link opens a chain of its own, or it is added at the end of the chain it continues.
  cases link with
  | plain => simp [ChainLink.isChained] at isChained
  | opens =>
    refine ⟨object, [part], [formsOf part], .opens written, ?_, ⟨stops, callStops, trivial⟩,
      .cons lowersPart .nil, preserved.value, preserved.callee⟩
    simp [chainOn, exprForms_source]
  | continues =>
    obtain ⟨base, links, forms, chain, found, ends, lowers, lowersBase, heads⟩ :=
      preserved.chain (goesOn rfl)
    refine ⟨base, links ++ [part], forms ++ [formsOf part], .continues written chain, ?_, ?_,
      lowers.concat lowersPart, lowersBase, heads⟩
    · simp [chainOn, found]
    · obtain ⟨init, last, rfl, writtenLast⟩ := chain.last
      refine ends.concat ?_ ?_ <;> rwa [writtenLast]

/-- A chained expression does what its chain is lowered to do. -/
theorem optionalChain_yields {e : Expr} (isChained : e.isChained = true)
    (hasChain : HasChain setting env e)
    (natively : setting.options.target.supports .optionalChain = true → ∀ progress,
      Ready setting.scopes progress → Yields setting progress (exprForms e).natively
        fun after lowered => Valued setting env progress after e lowered) :
    Lowers setting env e (Prod.fst <$> optionalChain (exprForms e) .value) := by
  intro progress ready
  obtain ⟨base, links, forms, chain, found, ends, lowers, lowersBase, heads⟩ := hasChain
  rw [optionalChain, found, exprForms_source]
  -- Where the chain is needed it is taken apart; otherwise the target keeps it as written.
  refine .map (.needsLowering lowers (fun needed => ?_) fun supported => ?_)
  · refine lowers_chain rfl chain ends lowers lowersBase ?_ ?_ isChained progress ready
    · exact fun notNullish => heads (needed.resolve_right notNullish)
    · exact fun notNullish => needed.resolve_right notNullish
  · simp only [Bool.false_eq_true, if_false]
    exact .next (natively supported progress ready) fun _ _ ready' _ valued => .done ready' valued

/-- The callee of a chain that cannot stay keeps its receiver. -/
theorem heads_chained {e : Expr} (isChained : e.isChained = true)
    (unprivate : privateMember? (exprForms e) = pure none) (hasChain : HasChain setting env e)
    (lacking : setting.options.target.supports .optionalChain = false) :
    Heads setting env true e (splitCallee (exprForms e)) := by
  intro progress ready
  have chained : splitCallee (exprForms e) = optionalChain (exprForms e) .callee := by
    simp [splitCallee, exprForms_source, isChained, unprivate, calledExpr]
  obtain ⟨base, links, forms, chain, found, ends, lowers, lowersBase, heads⟩ := hasChain
  rw [chained, optionalChain, found, exprForms_source]
  refine .needsLowering lowers (fun _ => ?_) (by simp [lacking])
  exact heads_chain rfl chain ends lowers lowersBase (fun _ => heads lacking) progress ready

/-- A callee that is an access is split from its object. -/
theorem splitCallee_access (isPublic : IsPublicLink part) (isAccess : part.isCall = false)
    (notSuper : isSuper object = false) :
    splitCallee (exprForms ⟨origin, part.shape .plain object⟩) = (do
      let (tested, receiver) ← capture (← (exprForms object).value)
      let part ← (formsOf part).lower
      return (.of origin.span (part.shape .plain tested), some receiver)) := by
  have unprivate := @privateMember?_link origin object .plain _ isPublic
  -- The split captures the object, so both links are read on the captured name.
  cases part with
  | member span name =>
    rw [splitCallee, unprivate, Link.shape, exprForms_member, memberForms, linkForms,
      if_neg (by decide)]
    simp [Expr.isChained, Expr.link, ChainLink.isChained, exprForms_source, notSuper, formsOf,
      LinkForms.lower, Link.shape, Expr.member, Expr.span, Expr.of]
  | computed span key =>
    rw [splitCallee, unprivate, Link.shape, exprForms_computed, computedForms, linkForms,
      if_neg (by decide)]
    simp [Expr.isChained, Expr.link, ChainLink.isChained, exprForms_source, notSuper, formsOf,
      LinkForms.lower, Link.shape, Expr.computed, Expr.span, Expr.of]
  | call => simp [Link.isCall] at isAccess

include isPublic preserved lowersPart in
/-- The callee of an access outside of a chain keeps its object as the receiver. -/
theorem heads_access (isAccess : part.isCall = false) :
    Heads setting env true ⟨origin, part.shape .plain object⟩
      (splitCallee (exprForms ⟨origin, part.shape .plain object⟩)) := by
  intro progress ready
  rw [splitCallee_access isPublic isAccess preserved.notSuper]
  -- The object, its capture and the link's parts, in this order; the captured name is the receiver.
  refine .next (preserved.value progress ready) fun object' _ ready₁ extended₁ valued => ?_
  refine .next (capture_yields ready₁ valued.fixed) ?_
  rintro ⟨tested, kept⟩ second ready₂ extended₂ captured
  refine .next (lowersPart.yields ready₂) fun part' third ready₃ extended₃ simPart => .done ready₃ ?_
  have isAccess' : part'.isCall = false := by rw [simPart.isCall, isAccess]
  refine ⟨fun vars holds => ?_, ?_, by simp, ?_, ?_⟩
  · rw [find_shape (by simp [isAccess]), Expr.of, find_shape (by simp [isAccess'])]
    simp only [Found.follow]
    refine (captured.run (valued.value.run (extended₂.trans extended₃) holds)).next ?_
    rintro found found' vars' ⟨_, vars₀, ⟨same, kept₀, holds₀⟩, settled, reads, kept₁⟩
    -- What the captured name holds is what the source's object was.
    have sameObject : (Found.settle found').value = (Found.settle found).value := by
      rw [settled, Found.plain_value, show _ = _ from same]
    have holds₁ := holds₀.kept extended₃ kept₁
    refine (agree_link simPart holds₁ sameObject (by simp [isAccess])).next ?_
    rintro result _ vars'' ⟨rfl, kept₂, received⟩
    refine .done ⟨rfl, ?_, fun _ => .inr ⟨captured.guarded.1, ?_⟩⟩
    · exact (kept₀.trans extended₁ extended₂ kept₁).trans (extended₁.trans extended₂) extended₃ kept₂
    · rw [captured.guarded.after (.refl _) extended₃ kept₂, reads, Found.settle_some,
        received isAccess, show _ = _ from same]
  · rintro _ ⟨⟩
    exact ⟨_, captured.guarded.later extended₃⟩
  · cases part' <;> exact .ofStop (by simp [Link.shape]) (by simp [Link.shape]) (Nat.le_refl _)
  · cases part' <;> simp [isReusable, Expr.of, Link.shape]

/-- A callee that is no access has no receiver, so its value is all that is kept. -/
theorem heads_value {e : Expr} (lowers : Lowers setting env e (exprForms e).value)
    (plainly : splitCallee (exprForms e) = (·, none) <$> (exprForms e).value)
    (isPlain : ∃ run : Run W W.Value, find e = run >>= fun value => pure (some (.plain value))) :
    Heads setting env true e (splitCallee (exprForms e)) := by
  intro progress ready
  rw [plainly]
  -- A value without a receiver: there is nothing to capture, and the call passes none.
  refine .map ((lowers progress ready).weaken fun after lowered _ valued => ?_)
  refine ⟨fun vars holds => ?_, by simp, by simp, valued.ends, valued.fixed⟩
  obtain ⟨run, packs⟩ := isPlain
  have agree := valued.value vars holds
  rw [packs] at agree ⊢
  refine agree.packed.weaken ?_
  rintro _ found' vars' ⟨⟨same, kept⟩, value, rfl⟩
  exact ⟨same, kept, fun _ => .inr rfl⟩

/-- The result of a call has no receiver. -/
theorem find_call_plain {isPure : Bool} {args : List Arg}
    (stops : object.span.stop < origin.span.stop) :
    ∃ run : Run W W.Value, find ⟨origin, .call .plain isPure object args⟩
      = run >>= fun value => pure (some (.plain value)) := by
  refine ⟨do
    let function := Found.settle (← find object)
    let args ← findArgs args
    .operate (W.call function.value function.receiver args), ?_⟩
  rw [find, findShape, isMade_of_stop stops]
  simp [Found.follow]

include written isPublic preserved lowersPart goesOn stops callStops uncalled in
/-- Accesses and calls are preserved if their objects and parts are. -/
theorem preserved_link : Preserved setting env ⟨origin, part.shape link object⟩ := by
  have chained : (⟨origin, part.shape link object⟩ : Expr).isChained = link.isChained := by
    cases part <;> rfl
  have unprivate := @privateMember?_link origin object link _ isPublic
  have hasChain (isChained : link.isChained = true) :=
    link_chain written preserved lowersPart goesOn stops callStops isChained
  -- Outside a chain there is one link left, the plain one.
  have plainly : link.isChained = false → link = .plain := by
    cases link <;> simp [ChainLink.isChained]
  have lowers : Lowers setting env ⟨origin, part.shape link object⟩
      (exprForms ⟨origin, part.shape link object⟩).value := by
    cases isChained : link.isChained with
    | true =>
      rw [value_chained isChained]
      refine optionalChain_yields (by rwa [chained]) (hasChain isChained) ?_
      intro supported progress ready
      exact (link_natively preserved lowersPart goesOn supported ready).weaken
        fun _ _ _ stays => stays.valued callStops
    | false =>
      intro progress ready
      exact (link_plain isPublic preserved lowersPart uncalled (plainly isChained) ready).weaken
        fun _ _ _ stays => stays.valued callStops
  -- What the parent may ask for, in turn: the value, the chain as written, the callee, the chain
  -- itself and the removal.
  refine ⟨unprivate, by cases part <;> rfl, lowers, ?_, ?_, ?_, ?_⟩
  · intro _ supported progress ready
    refine (link_natively preserved lowersPart goesOn supported ready).weaken ?_
    intro after lowered _ stays
    refine ⟨stays.sim callStops, ?_⟩
    obtain ⟨_, _, _, _, rfl, -⟩ := stays
    rfl
  · intro lacking
    cases isChained : link.isChained with
    | true => exact heads_chained (by rwa [chained]) unprivate (hasChain isChained) lacking
    | false =>
      obtain rfl := plainly isChained
      cases part with
      | member | computed => exact heads_access isPublic preserved lowersPart rfl
      | call span isPure args =>
        refine heads_value lowers ?_ (find_call_plain (callStops rfl))
        rw [splitCallee, unprivate, exprForms_source, Link.shape, exprForms_call, callForms,
          linkForms]
        rfl
  · rw [chained]
    exact hasChain
  · intro isAccess whole stopsWhole progress ready
    have isAccess' : part.isCall = false := by simpa using isAccess
    cases isChained : link.isChained with
    | true =>
      obtain ⟨base, links, forms, chain, found, ends, lowers, lowersBase, heads⟩ :=
        hasChain isChained
      rw [unary, exprForms_source, found, chained, if_pos isChained]
      refine .needsLowering lowers (fun needed => ?_) fun supported => ?_
      · refine .next (lowers_deleteChain rfl chain ends lowers lowersBase ?_ stopsWhole isAccess
          progress ready) fun _ _ ready' _ valued => .done ready' valued
        exact fun notNullish => heads (needed.resolve_right notNullish)
      · exact .next (link_natively preserved lowersPart goesOn supported ready)
          fun _ _ ready' _ stays => .done ready' (stays.removes isAccess')
    | false =>
      rw [unary, exprForms_source, chained, isChained]
      exact .next (link_plain isPublic preserved lowersPart uncalled (plainly isChained) ready)
        fun _ _ ready' _ stays => .done ready' (stays.removes isAccess')

end Link

end Meaning

end Downlevel
