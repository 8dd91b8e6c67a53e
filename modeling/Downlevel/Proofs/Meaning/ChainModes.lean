import Downlevel.Proofs.Meaning.ChainLowering
import Downlevel.Proofs.Meaning.Operations

/-! A chain is lowered as a value, as the operand of `delete` and as a callee. -/

namespace Downlevel

namespace Meaning

open Lowering

variable {W : World} {setting : Setting} {env : Vars W} {e base : Expr} {links : List Link}
  {forms : List LinkForms}

/-- Removes what a link accesses. -/
def removeLink (object : Found W) : Link → Run W W.Value
  | .member _ name => .operate (W.delete object.value (W.str name))
  | .computed _ key => do
    let key := Found.settle (← find key)
    .operate (W.delete object.value key.value)
  | .call .. => .unknown

/-- Removing what an access reaches. -/
theorem remove_shape {origin : Origin} {object : Expr} {link : ChainLink} {part : Link}
    (isAccess : part.isCall = false) :
    remove (W := W) ⟨origin, part.shape link object⟩ = (do
      match Found.follow link (← find object) with
      | none => return W.bool true
      | some object => removeLink object part) := by
  cases part with
  | member span name => rw [Link.shape, remove]; rfl
  | computed span key => rw [Link.shape, remove]; rfl
  | call => simp [Link.isCall] at isAccess

/-- Removing what a chain reaches is true if the chain is cut short. -/
theorem remove_chain {last : Link} (chain : Chain e base (links ++ [last]))
    (isAccess : last.isCall = false) :
    remove (W := W) e = (do
      let object := Found.settle (← find base)
      if W.isNullish object.value then return W.bool true
      else removeLink (← runLinks object links) last) := by
  generalize all : links ++ [last] = all' at chain
  -- The removed link is the last one: it stands on the base, or on the chain of the links before
  -- it.
  cases chain with
  | opens written =>
    obtain ⟨rfl, rfl⟩ : links = [] ∧ last = _ := by simpa [List.append_eq_singleton_iff] using all
    rw [remove_shape isAccess]
    congr 1
    funext found
    by_cases short : W.isNullish (Found.settle found).value = true <;>
      simp [Found.follow, short, runLinks]
  | continues written inner =>
    obtain ⟨rfl, same⟩ := List.append_inj' all rfl
    obtain rfl : last = _ := by simpa using same
    rw [remove_shape isAccess, find_chain inner, bind_assoc]
    congr 1
    funext found
    by_cases short : W.isNullish (Found.settle found).value = true <;>
      simp [Found.follow, short]

/-- Whether an expression is a member or a computed member. -/
def isAccess (e : Expr) : Bool :=
  match e.shape with
  | .member .. | .computed .. => true
  | _ => false

/-- What a link makes is an access unless the link is a call. -/
@[simp]
theorem isAccess_shape {origin : Origin} {link : ChainLink} {part : Link} {object : Expr} :
    isAccess ⟨origin, part.shape link object⟩ = !part.isCall := by
  cases part <;> rfl

/-- The last link of a chain is what the chain is. -/
theorem Chain.isAccess {last : Link} (chain : Chain e base (links ++ [last]))
    (isAccess : isAccess e = true) : last.isCall = false := by
  generalize all : links ++ [last] = all' at chain
  cases chain with
  | opens written =>
    obtain ⟨rfl, rfl⟩ : links = [] ∧ last = _ := by simpa [List.append_eq_singleton_iff] using all
    simpa using isAccess
  | continues written inner =>
    obtain ⟨rfl, same⟩ := List.append_inj' all rfl
    obtain rfl : last = _ := by simpa using same
    simpa using isAccess

/-- A chain has a last link, which is where the chain is. -/
theorem Chain.last (chain : Chain e base links) :
    ∃ init last, links = init ++ [last] ∧ last.span = e.span := by
  cases chain with
  | opens written => exact ⟨[], _, rfl, written⟩
  | continues written inner => exact ⟨_, _, rfl, written⟩

/-- The links end no earlier than what they are on. -/
theorem EndsOn.last {stop : Nat} {init : List Link} {last : Link}
    (ends : EndsOn stop (init ++ [last])) : stop ≤ last.span.stop := by
  induction init generalizing stop with
  | nil => exact ends.1
  | cons part rest ih => exact Nat.le_trans ends.1 (ih ends.2.2)

/-- The beginning of links ends in order if all of them do. -/
theorem EndsOn.init {stop : Nat} {init rest : List Link} (ends : EndsOn stop (init ++ rest)) :
    EndsOn stop init := by
  induction init generalizing stop with
  | nil => trivial
  | cons part more ih => exact ⟨ends.1, ends.2.1, ih ends.2.2⟩

/-- Whether the first link is a call does not depend on more links. -/
theorem startsWithCall_append {init rest : List Link} (isCalled : startsWithCall init = true) :
    startsWithCall (init ++ rest) = true := by
  rcases init with _ | ⟨_ | _ | _, _⟩ <;> simp_all [startsWithCall]

/-- One more link at the end of links that end in order. -/
theorem EndsOn.concat {stop : Nat} {init : List Link} {last part : Link}
    (ends : EndsOn stop (init ++ [last])) (stops : last.span.stop ≤ part.span.stop)
    (callStops : part.isCall = true → last.span.stop < part.span.stop) :
    EndsOn stop (init ++ [last] ++ [part]) := by
  induction init generalizing stop with
  | nil => exact ⟨ends.1, ends.2.1, stops, callStops, trivial⟩
  | cons first rest ih => exact ⟨ends.1, ends.2.1, ih ends.2.2⟩

/-- A base ends no later than its chain. -/
theorem Chain.stop (chain : Chain e base links) (ends : EndsOn base.span.stop links) :
    base.span.stop ≤ e.span.stop := by
  obtain ⟨init, last, rfl, written⟩ := chain.last
  rw [← written]
  exact ends.last

/-- Chains are accesses and calls. -/
theorem Chain.notNullish (chain : Chain e base links) : ¬IsNullish setting e := by
  cases chain with
  | opens | continues => rename Link => part; cases part <;> nofun

/-- Testing what a chain is on does what the chain does, if following its links does. -/
theorem Opened.agree {α : Type} {short : α}
    {related : α → Option (Found W) → Vars W → Prop} {mode : ChainMode} {span : Span}
    {begin first second final later : Progress} {tested again result : Expr}
    {receiver : Option Expr} {links' : List Link} {vars : Vars W}
    (opened : Opened setting env begin first second final base links tested again receiver links')
    (rest : Found W → Run W α) (goesOn : Extends setting.scopes final later)
    (holds : Holds setting.scopes later env vars)
    (cut : ∀ vars', Keeps setting.scopes begin final vars vars' →
      related short (some (.plain (shortValue W mode))) vars')
    (follow : ∀ object vars', Keeps setting.scopes begin final vars vars' →
      Holds setting.scopes later env vars' → Starts receiver again links object vars' →
      Agree env vars' (rest object) (find result) fun found found' vars'' =>
        related found (some (.plain (Found.settle found').value)) vars'') :
    Agree env vars (do
        let object := Found.settle (← find base)
        if W.isNullish object.value then return short else rest object)
      (find (.cond span (.binary span .equality tested (.null span)) (cutShort span mode) result))
      related := by
  rw [find_ifMissing, find_cutShort]
  -- Both sides evaluate the tested operand; the missing case gives the short result, the other goes
  -- on with the links.
  refine (opened.test goesOn holds).next fun found found' vars' ⟨same, kept, holds', starts⟩ => ?_
  simp only [show _ = _ from same, pure_bind, Found.settle_some, Found.plain_value]
  refine .branch (fun _ => .done (cut vars' kept)) fun there => ?_
  rw [there] at starts
  refine (follow _ vars' kept holds' (starts.resolve_left (by simp))).moreLowered ?_
  exact fun _ _ _ related => .done related

/-- What `delete` does to its operand. -/
theorem find_delete (origin : Origin) (operand : Expr) :
    find (W := W) ⟨origin, .unary .delete operand⟩ = do
      return some (.plain (← remove operand)) := by
  rw [find, findShape]

/-- Removing what a link makes outside of a chain does what removing the link does. -/
theorem remove_buildLink {current : Expr} {receiver : Option Expr} {part : Link}
    (isAccess : part.isCall = false) :
    remove (W := W) (buildLink receiver current part) = (do
      let found ← find current
      removeLink (Found.settle found) part) := by
  have built : buildLink receiver current part = .of part.span (part.shape .plain current) := by
    cases part with
    | member | computed => cases receiver <;> rfl
    | call => simp [Link.isCall] at isAccess
  rw [built, Expr.of, remove_shape isAccess]
  simp only [Found.follow]

/-- Removing the same member of the same object. -/
theorem agree_removeLink {scopes : ScopeTree} {first second : Progress} {part part' : Link}
    {object object' : Found W} {vars : Vars W} (sim : SimLink scopes env first second part part')
    (isAccess : part.isCall = false) (holds : Holds scopes second env vars)
    (same : object'.value = object.value) :
    Agree env vars (removeLink object part) (removeLink object' part') fun value value' vars' =>
      value' = value ∧ Keeps scopes first second vars vars' := by
  -- The operation itself is all that is left to do.
  have operates : ∀ {vars vars' : Vars W} {operation : W.State → Except W.Value W.Value × W.State},
      Keeps scopes first second vars vars' →
      Agree env vars' (Run.operate operation) (Run.operate operation) fun value value' vars'' =>
        value' = value ∧ Keeps scopes first second vars vars'' := by
    intro vars vars' operation kept
    rw [← bind_pure (Run.operate operation)]
    exact .operate fun _ => .done ⟨rfl, kept⟩
  cases sim with
  | member =>
    simp only [removeLink, same]
    exact operates (.refl _)
  | computed sim =>
    simp only [removeLink, same]
    refine (sim vars holds).next fun _ _ vars' ⟨sameKey, kept⟩ => ?_
    simp only [show _ = _ from sameKey]
    exact operates kept
  | call => simp [Link.isCall] at isAccess

/-- The result of a call has no receiver. -/
theorem runLinks_call {object : Found W} {init : List Link} {last : Link}
    (isCall : last.isCall = true) :
    ∃ run : Run W W.Value, runLinks object (init ++ [last])
      = run >>= fun value => pure (.plain value) := by
  -- An access yields the receiver of the access; only a call yields a value that has lost its
  -- receiver.
  cases last with
  | member | computed => simp [Link.isCall] at isCall
  | call span isPure args =>
    refine ⟨do
      let object ← runLinks object init
      let args ← findArgs args
      .operate (W.call object.value object.receiver args), ?_⟩
    simp [runLinks, runLink]

section Modes

variable {forms' : BaseForms} (source : forms'.source = base) (chain : Chain e base links)
  (ends : EndsOn base.span.stop links) (lowersLinks : LowersLinks setting env links forms)
  (lowersBase : Lowers setting env base forms'.value)

/-- What remains of a chain that collapses. -/
structure Collapsed (setting : Setting) (env : Vars W) (mode : ChainMode) (before after : Progress)
    (base : Expr) (limit : Nat) (lowered : Expr) : Prop where
  run : ∀ vars, Holds setting.scopes after env vars →
    Agree env vars (find base) (find lowered) fun found found' vars' =>
      W.isNullish (Found.settle found).value = true ∧
        found' = some (.plain (shortValue W mode)) ∧
        Keeps setting.scopes before after vars vars'
  ends : EndsBy limit lowered
  fixed : isReusable lowered = true → Fixed setting.scopes after lowered

include lowersLinks lowersBase

/-- A chain whose base is always nullish collapses. -/
theorem collapse_yields (nullish : IsNullish setting base) {span : Span}
    (stops : base.span.stop ≤ span.stop) (mode : ChainMode) {progress : Progress}
    (ready : Ready setting.scopes progress) :
    Yields setting progress (do
        let value ← forms'.value
        let _ ← forms.mapM LinkForms.lower
        return (collapse span mode value, (none : Option Expr)))
      fun after pair => pair.2 = none ∧
        Collapsed setting env mode progress after base span.stop pair.1 := by
  refine .next (lowersBase _ ready) fun value _ ready₁ extended₁ valued => ?_
  refine .next (lowersLinks.yields ready₁) fun _ final ready₂ extended₂ _ => .done ready₂ ⟨rfl, ?_⟩
  -- The lowered links are dropped: only the base is evaluated, and the outcome is the short one.
  obtain ⟨settles, sim⟩ := valued.nullish nullish
  refine ⟨fun vars holds => ?_, (valued.ends.later stops).collapse (Nat.le_refl _) mode, ?_⟩
  · rw [find_collapse settles]
    refine (sim.run extended₂ holds).moreLowered fun found found' vars' ⟨same, kept, _⟩ => ?_
    exact .done ⟨same.2, rfl, kept.later extended₂⟩
  · intro reusable
    rw [collapse] at reusable ⊢
    split at reusable
    · unfold cutShort at reusable ⊢
      split at reusable
      · rename_i isDelete
        rw [if_pos isDelete]
        exact ⟨rfl, by simp [Expr.bool, Expr.of]⟩
      · simp [isReusable, Expr.undefined, Expr.unary, Expr.of] at reusable
    · rw [Expr.sequence, List.foldl_append] at reusable
      simp [isReusable, Expr.andThen, Expr.binary, Expr.of] at reusable

variable (headsCallee : ¬IsNullish setting base → Heads setting env true base forms'.callee)

include source chain ends headsCallee

/-- A chain is lowered to an expression with its value. -/
theorem lowers_chain (lacking : ¬IsNullish setting base →
      setting.options.target.supports .optionalChain = false) (isChained : e.isChained = true) :
    ∀ progress, Ready setting.scopes progress →
      Yields setting progress (lowerChain e.span .value ⟨some forms', forms⟩) fun after pair =>
        Valued setting env progress after e pair.1 := by
  intro progress ready
  have stops := chain.stop ends
  rw [lowerChain_eq, source]
  refine .bindsUndefined ?_
  -- A chain on a literal null or undefined is cut short always and is collapsed; any other is
  -- opened with a test of its base.
  split
  · next nullish =>
    refine (collapse_yields lowersLinks lowersBase nullish stops .value ready).weaken ?_
    rintro after ⟨lowered, _⟩ _ ⟨rfl, collapsed⟩
    refine .ofCallee (fun vars holds => ?_) collapsed.ends collapsed.fixed
      fun isNullish => absurd isNullish chain.notNullish
    rw [find_chain chain]
    refine (collapsed.run vars holds).moreSource ?_
    rintro found _ vars' ⟨short, rfl, kept⟩
    simp only [short, if_true]
    exact .done ⟨rfl, kept⟩
  · next notNullish =>
    refine .next (openChain_yields lowersBase (headsCallee notNullish) lowersLinks ready) ?_
    rintro ⟨tested, again, receiver, links'⟩ final ready' extended ⟨first, second, opened⟩
    -- The chain has a last link, so the result is an access or a call and not the base itself.
    obtain ⟨init, last, rfl, written⟩ := chain.last
    obtain ⟨init', last', rfl, _, _⟩ := opened.sims.concat
    dsimp only at opened ⊢
    rw [followLinks_build opened.sims.isPublic (.inl (by simp)) opened.received]
    have value : Sim setting.scopes env SameValue progress final e
        (.cond e.span (.binary e.span .equality tested (.null e.span)) (cutShort e.span .value)
          (buildLinks receiver again (init' ++ [last']))) := by
      intro vars holds
      rw [find_chain chain]
      refine opened.agree (fun object => some <$> runLinks object (init ++ [last]))
        (.refl _) holds (fun vars' kept => ⟨rfl, kept⟩) ?_
      intro object vars' kept holds' starts
      refine (agree_buildLinks opened.sims ends opened.unmade (holds'.earlier opened.ends) starts.1
        starts.2).moreSource fun found found' vars'' ⟨same, _, kept'⟩ => ?_
      exact .done ⟨same, kept.twice (kept'.wide opened.begins opened.ends)⟩
    refine .done ready' ⟨value, ?_, .ofStop (by simp) (by simp) (Nat.le_refl _), ?_, ?_⟩
    · simp [isChained, lacking notNullish]
    · simp [isReusable, Expr.cond, Expr.of]
    · exact fun isNullish => absurd isNullish chain.notNullish

/-- `delete` of a chain is lowered to an expression with its value. -/
theorem lowers_deleteChain {origin : Origin} (stopsWhole : e.span.stop ≤ origin.span.stop)
    (isAccess : isAccess e = true) :
    ∀ progress, Ready setting.scopes progress →
      Yields setting progress (lowerChain e.span .delete ⟨some forms', forms⟩) fun after pair =>
        Valued setting env progress after ⟨origin, .unary .delete e⟩ pair.1 := by
  intro progress ready
  obtain ⟨init, last, rfl, written⟩ := chain.last
  have isAccess := chain.isAccess isAccess
  rw [lowerChain_eq, source]
  refine .bindsUndefined ?_
  -- The two cases of the lowering, as in the chain read for its value; the removal takes the place
  -- of the last link.
  split
  · next nullish =>
    refine (collapse_yields lowersLinks lowersBase nullish (chain.stop ends) .delete ready).weaken ?_
    rintro after ⟨lowered, _⟩ _ ⟨rfl, collapsed⟩
    refine .ofCallee (fun vars holds => ?_) (collapsed.ends.later stopsWhole) collapsed.fixed nofun
    rw [find_delete, remove_chain chain isAccess]
    simp only [bind_assoc]
    refine (collapsed.run vars holds).moreSource ?_
    rintro found _ vars' ⟨short, rfl, kept⟩
    simp only [short, if_true, pure_bind]
    exact .done ⟨rfl, kept⟩
  · next notNullish =>
    refine .next (openChain_yields lowersBase (headsCallee notNullish) lowersLinks ready) ?_
    rintro ⟨tested, again, receiver, links'⟩ final ready' extended ⟨first, second, opened⟩
    obtain ⟨init', last', rfl, sims, simLast⟩ := opened.sims.concat
    dsimp only at opened ⊢
    rw [followLinks_build opened.sims.isPublic (.inl (by simp)) opened.received]
    refine .done ready' (.ofCallee (fun vars holds => ?_)
      (.ofStop (by simp) (by simp) stopsWhole) (by simp [isReusable, Expr.cond, Expr.of]) nofun)
    rw [find_delete, remove_chain chain isAccess]
    -- The links before the last are followed as usual; the last one removes the property of the
    -- object they give.
    have removes : Agree env vars (do
          let object := Found.settle (← find base)
          if W.isNullish object.value then return W.bool true
          else removeLink (← runLinks object init) last)
        (find (.cond e.span (.binary e.span .equality tested (.null e.span))
          (cutShort e.span .delete)
          (.unary e.span .delete (buildLinks receiver again (init' ++ [last'])))))
        fun value found vars' => found = some (.plain value) ∧
          Keeps setting.scopes progress final vars vars' := by
      refine opened.agree (fun object => runLinks object init >>= (removeLink · last))
        (.refl _) holds (fun vars' kept => ⟨rfl, kept⟩) ?_
      intro object vars' kept holds' starts
      rw [buildLinks_concat, Expr.unary, Expr.of, find_delete,
        remove_buildLink (by rw [simLast.isCall, isAccess])]
      simp only [bind_assoc]
      refine (agree_buildLinks sims ends.init opened.unmade (holds'.earlier opened.ends) starts.1
        fun isCalled => starts.2 (startsWithCall_append isCalled)).next ?_
      rintro found found' vars₁ ⟨same, _, kept₁⟩
      have holds₁ := (holds'.earlier opened.ends).kept (.refl _) kept₁
      refine (agree_removeLink simLast isAccess holds₁ same).moreLowered ?_
      rintro value _ vars₂ ⟨rfl, kept₂⟩
      exact .done ⟨rfl, kept.twice ((kept₁.twice kept₂).wide opened.begins opened.ends)⟩
    refine removes.moreSource ?_
    rintro value _ vars' ⟨rfl, kept⟩
    exact .done ⟨rfl, kept⟩

/-- A chain that is called is lowered to an expression with its value, and the receiver of the call
is kept. -/
theorem heads_chain :
    Heads setting env true e (lowerChain e.span .callee ⟨some forms', forms⟩) := by
  intro progress ready
  obtain ⟨init, last, rfl, written⟩ := chain.last
  rw [lowerChain_eq, source]
  refine .bindsUndefined ?_
  split
  · next nullish =>
    refine (collapse_yields lowersLinks lowersBase nullish (chain.stop ends) .callee ready).weaken ?_
    rintro after ⟨lowered, _⟩ _ ⟨rfl, collapsed⟩
    refine ⟨fun vars holds => ?_, by simp, by simp, collapsed.ends, collapsed.fixed⟩
    rw [find_chain chain]
    refine (collapsed.run vars holds).moreSource ?_
    rintro found _ vars' ⟨short, rfl, kept⟩
    simp only [short, if_true]
    exact .done ⟨rfl, kept, fun _ => .inl W.isNullish_undefined⟩
  · next notNullish =>
    refine .next (openChain_yields lowersBase (headsCallee notNullish) lowersLinks ready) ?_
    rintro ⟨tested, again, receiver, links'⟩ final ready' extended ⟨first, second, opened⟩
    obtain ⟨init', last', rfl, sims, simLast⟩ := opened.sims.concat
    dsimp only at opened ⊢
    cases isCall : last.isCall with
    | true =>
      rw [followLinks_build opened.sims.isPublic (.inr (by rw [simLast.isCall, isCall]))
        opened.received]
      refine .done ready' ⟨fun vars holds => ?_, by simp, by simp,
        .ofStop (by simp) (by simp) (Nat.le_refl _), by simp [isReusable, Expr.cond, Expr.of]⟩
      rw [find_chain chain]
      refine opened.agree (fun object => some <$> runLinks object (init ++ [last]))
        (.refl _) holds (fun vars' kept => ⟨rfl, kept, fun _ => .inl W.isNullish_undefined⟩) ?_
      intro object vars' kept holds' starts
      obtain ⟨run, calls⟩ := @runLinks_call _ object init _ isCall
      have agree := agree_buildLinks opened.sims ends opened.unmade (holds'.earlier opened.ends)
        starts.1 starts.2
      rw [calls] at agree ⊢
      refine agree.packed.moreSource ?_
      rintro _ found' vars'' ⟨⟨same, _, kept'⟩, value, rfl⟩
      exact .done ⟨same, kept.twice (kept'.wide opened.begins opened.ends), fun _ => .inr rfl⟩
    | false =>
      have isAccess' : last'.isCall = false := by rw [simLast.isCall, isCall]
      have isPublic := opened.sims.isPublic
      simp only [List.mem_append, List.mem_singleton, or_imp, forall_and, forall_eq] at isPublic
      rw [followLinks_concat isPublic.1 opened.received,
        followLinks_callee isPublic.2 isAccess', bind_assoc]
      -- Without links in front of the last access, the base itself is its object.
      have guarded : isReusable (buildLinks receiver again init') = true →
          Guarded setting.scopes second final (buildLinks receiver again init') := by
        cases init' with
        | nil => exact opened.guarded
        | cons => simp [isReusable_buildLinks]
      refine .next (recapture_yields opened.ends ready' guarded) ?_
      rintro ⟨object, kept⟩ later ready'' extended' captured
      have known := opened.ends.trans extended'
      refine .done ready'' ⟨fun vars holds => ?_, ?_, by simp,
        .ofStop (by simp) (by simp) (Nat.le_refl _), by simp [isReusable, Expr.cond, Expr.of]⟩
      · rw [find_chain chain]
        refine opened.agree (fun object => some <$> runLinks object (init ++ [last]))
          extended' holds (fun vars₀ kept₀ => ⟨rfl, kept₀.later extended', fun _ =>
            .inl W.isNullish_undefined⟩) ?_
        intro object₀ vars₀ kept₀ holds₀ starts
        have splits : some <$> runLinks object₀ (init ++ [last]) = (do
            let found ← runLinks object₀ init
            some <$> runLink found last) := by simp [runLinks]
        simp only [reduceCtorEq, if_false]
        rw [splits, find_buildLink (by simp [isAccess'])]
        have agree := agree_buildLinks sims ends.init opened.unmade (holds₀.earlier known)
          starts.1 fun isCalled => starts.2 (startsWithCall_append isCalled)
        refine (captured.run agree).next ?_
        rintro found found' vars₂ ⟨_, vars₁, ⟨same, _, kept₁⟩, settled, reads, kept₂⟩
        have holds₂ := ((holds₀.kept known kept₁).kept (.refl _) kept₂).earlier known
        have sameObject : (Found.settle found').value = found.value := by
          rw [settled, Found.plain_value, same]
        refine (agree_link simLast holds₂ sameObject (by simp [isCall])).next ?_
        rintro result _ vars₃ ⟨rfl, kept₃, received⟩
        refine .done ⟨rfl, ?_, fun _ => .inr ⟨captured.guarded.1, ?_⟩⟩
        · have wide₁ := kept₁.wide opened.begins known
          have wide₂ := kept₂.earlier (opened.begins.trans opened.goesOn)
          have wide₃ := kept₃.wide opened.begins known
          exact (((kept₀.later extended').twice wide₁).twice wide₂).twice wide₃
        · rw [captured.guarded.before (.refl _) known kept₃, reads, same, Found.settle_some,
            received isCall]
      · rintro _ ⟨⟩
        exact ⟨_, captured.guarded⟩

end Modes

end Meaning

end Downlevel
