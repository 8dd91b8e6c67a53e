import Downlevel.Proofs.Remaining.Trees
import Downlevel.Proofs.StateSteps

/-! What can be said about every step of the lowering that ends, whatever else it does: it only adds
reports, stays inside of the same owners, declares nothing but names, and makes up none that the
source has. -/

namespace Downlevel

open Lowering

/-- A made-up name starts out as nothing, or as what another name or `this` stands for. -/
def Temp.IsPlain (temp : Temp) : Prop :=
  ∀ init ∈ temp.init, init.shape = .this ∨ ∃ name, init.shape = .id name

/-- All the names that are to be declared start out as such, and none that was handed out is one of
the source. -/
structure Temps.IsSound (scopes : ScopeTree) (temps : Temps) : Prop where
  plain : ∀ frame ∈ temps.frames, ∀ temp ∈ frame.declared, temp.IsPlain
  unrecorded : ∀ name ∈ temps.handedOut.names, name ∉ scopes.names.names

/-- What an owner is to the code in it: what gives meaning to `this`, and how waiting is written. -/
def Lowering.Owner.nature (owner : Owner) : OwnerKind × AwaitForm :=
  (owner.kind, owner.awaitForm)

/-- What the lowering is directly inside of. -/
def Lowering.Progress.owner (progress : Progress) : Owner :=
  progress.owners.headD { kind := .module, frame := 0 }

/-- An owner that code at the site can have. -/
def Site.Suits (site : Site) (owner : Owner) : Prop :=
  match site with
  | .own _ => owner.kind = .module ∧ owner.awaitForm = .await
  | .static | .inside .barred => owner.kind ≠ .module
  | .inside (.body ..) => owner.kind ≠ .module ∧ owner.awaitForm = .await
  | .inside .standIn => owner.kind ≠ .module ∧ owner.awaitForm ≠ .await

/-- Owners of one nature can have the same code. -/
theorem Site.Suits.congr {site : Site} {owner other : Owner} (suits : site.Suits owner)
    (same : other.nature = owner.nature) : site.Suits other := by
  obtain ⟨kind, form⟩ := Prod.mk.inj same
  simpa only [Suits, kind, form] using suits

namespace Ending

variable {α β : Type} {ending : Ending} {site : Site} {setting : Setting}
  {before middle after : Progress}

/-- What holds between two moments of the lowering of one part. -/
structure Goes (ending : Ending) (before after : Progress) : Prop where
  reports : ∀ report ∈ before.reports, report ∈ after.reports
  owners : after.owners.map (·.nature) = before.owners.map (·.nature)
  temps : before.temps.IsSound ending.scopes → after.temps.IsSound ending.scopes

namespace Goes

/-- Doing nothing is a way to go on. -/
theorem refl (progress : Progress) : ending.Goes progress progress :=
  ⟨fun _ => id, rfl, id⟩

/-- Going on twice is going on. -/
theorem trans (first : ending.Goes before middle) (second : ending.Goes middle after) :
    ending.Goes before after :=
  ⟨fun report mem => second.reports report (first.reports report mem),
    second.owners.trans first.owners, second.temps ∘ first.temps⟩

/-- The lowering stays inside of the same owner. -/
theorem nature (goes : ending.Goes before after) : after.owner.nature = before.owner.nature := by
  have same := goes.owners
  simp only [Progress.owner]
  cases first : before.owners <;> cases second : after.owners <;> simp_all

end Goes

/-- The lowering is at the site, for the target and with the scopes of the run. -/
structure Fits (ending : Ending) (site : Site) (setting : Setting) (progress : Progress) :
    Prop where
  target : setting.options.target = ending.target
  scopes : setting.scopes = ending.scopes
  suits : site.Suits progress.owner
  dead : ∀ isDead, site = .own isDead → setting.isDead = isDead
  params : setting.inParams = true → site = .inside .barred
  temps : progress.temps.IsSound ending.scopes

/-- The lowering is still at the site later on. -/
theorem Fits.later (fits : ending.Fits site setting before) (goes : ending.Goes before after) :
    ending.Fits site setting after :=
  { fits with suits := fits.suits.congr goes.nature, temps := goes.temps fits.temps }

/-- The source was read, and every report made so far is one of the run. -/
def Hears (ending : Ending) (progress : Progress) : Prop :=
  ending.isRead ∧ ∀ report ∈ progress.reports, ending.reported report.problem

/-- Every report made earlier is one of the run as well. -/
theorem Hears.earlier (hears : ending.Hears after) (goes : ending.Goes before after) :
    ending.Hears before :=
  ⟨hears.1, fun report mem => hears.2 report (goes.reports report mem)⟩

/-- If a step at the site ends, then its result is as described, given that the source was read and
that its reports are those of the run. -/
def Leaves (ending : Ending) (site : Site) (step : Lower α) (described : α → Prop) : Prop :=
  ∀ setting before result after, ending.Fits site setting before →
    step setting before = .ok (result, after) →
    ending.Goes before after ∧ (ending.Hears after → described result)

namespace Leaves

variable {step : Lower α} {rest : α → Lower β} {described : α → Prop} {final : β → Prop}

/-- A result that is there already. -/
theorem pure {result : α} (holds : described result) :
    ending.Leaves site (Pure.pure result) described := by
  rintro setting before _ _ - ⟨⟩
  exact ⟨.refl _, fun _ => holds⟩

/-- One step after another. What comes out of the first is only known to be as described once the
second has ended, since later reports count as well. -/
theorem bind (first : ending.Leaves site step described)
    (second : ∀ result, ending.Leaves site (rest result) fun last => described result → final last) :
    ending.Leaves site (step >>= rest) final := by
  -- Both steps have a result, or the whole has none; the second is heard by the same ending as the
  -- first.
  intro setting before last after fits run
  have both : (step >>= rest) setting before
      = (step setting before >>= fun pair => rest pair.1 setting pair.2) := rfl
  rw [both] at run
  cases begun : step setting before with
  | error fault =>
    rw [begun] at run
    cases run
  | ok pair =>
    obtain ⟨result, middle⟩ := pair
    rw [begun] at run
    obtain ⟨goes, holds⟩ := first setting before result middle fits begun
    obtain ⟨goes', holds'⟩ := second result setting middle last after (fits.later goes) run
    exact ⟨goes.trans goes', fun hears => holds' hears (holds (hears.earlier goes'))⟩

/-- The same step with a weaker description. -/
theorem weaken {weaker : α → Prop} (holds : ending.Leaves site step described)
    (implies : ∀ result, described result → weaker result) : ending.Leaves site step weaker := by
  intro setting before result after fits run
  obtain ⟨goes, shown⟩ := holds setting before result after fits run
  exact ⟨goes, fun hears => implies result (shown hears)⟩

/-- That the source was read is known of every result. -/
theorem known (holds : ending.Leaves site step described) :
    ending.Leaves site step fun result => ending.isRead ∧ described result := by
  intro setting before result after fits run
  obtain ⟨goes, shown⟩ := holds setting before result after fits run
  exact ⟨goes, fun hears => ⟨hears.1, shown hears⟩⟩

/-- A result that is as described because the source was read. -/
theorem pureRead {result : α} (holds : ending.isRead → described result) :
    ending.Leaves site (Pure.pure result) described := by
  rintro setting before _ _ - ⟨⟩
  exact ⟨.refl _, fun hears => holds hears.1⟩

/-- One step after another of which nothing need be known. -/
theorem andThen (first : ending.Leaves site step described)
    (second : ∀ result, ending.Leaves site (rest result) final) :
    ending.Leaves site (step >>= rest) final :=
  first.bind fun result => (second result).weaken fun _ holds _ => holds

/-- A step whose result is packed into another one. -/
theorem map {pack : α → β} (holds : ending.Leaves site step fun result => final (pack result)) :
    ending.Leaves site (pack <$> step) final := by
  rw [← bind_pure_comp]
  exact holds.bind fun _ => .pure id

/-- A step that never ends well. -/
theorem fault {problem : Fault} : ending.Leaves site (throw problem : Lower α) described := by
  rintro setting before _ _ - ⟨⟩

/-- Going on in one of two ways. -/
theorem ite {condition : Prop} [Decidable condition] {step other : Lower α}
    (holds : condition → ending.Leaves site step described)
    (fails : ¬condition → ending.Leaves site other described) :
    ending.Leaves site (if condition then step else other) described := by
  split
  · exact holds ‹_›
  · exact fails ‹_›

/-- A step that is only taken on a condition, and what comes after it. -/
theorem when {condition : Prop} [Decidable condition] {step : Lower Unit} {rest : Unit → Lower β}
    {described : Prop} (first : condition → ending.Leaves site step fun _ => described)
    (second : ending.Leaves site (rest ()) fun last => (condition → described) → final last) :
    ending.Leaves site (if condition then step >>= rest else rest ()) final := by
  refine .ite (fun holds => ?_) fun fails => ?_
  · exact (first holds).bind fun _ => second.weaken fun _ shown known => shown fun _ => known
  · exact second.weaken fun _ shown => shown fun holds => absurd holds fails

/-- A step for each of the items: every result belongs to an item, and every item has a result. -/
theorem mapM {items : List α} {step : α → Lower β} {each : α → β → Prop}
    (holds : ∀ item ∈ items, ending.Leaves site (step item) (each item)) :
    ending.Leaves site (items.mapM step) fun results =>
      (∀ result ∈ results, ∃ item ∈ items, each item result)
        ∧ ∀ item ∈ items, ∃ result ∈ results, each item result := by
  -- Along the items: each of them has a result, and each result is that of an item.
  induction items with
  | nil => exact .pure (by simp)
  | cons item items ih =>
    rw [List.mapM_cons]
    refine (holds item (by simp)).bind fun result => ?_
    refine (ih fun item mem => holds item (by simp [mem])).bind fun results => .pure ?_
    simp only [List.mem_cons, forall_eq_or_imp, exists_eq_or_imp]
    exact fun others own => ⟨⟨.inl own, fun result mem => .inr (others.1 result mem)⟩,
      .inl own, fun item mem => .inr (others.2 item mem)⟩

/-- A check of each of the items. -/
theorem forM {items : List α} {check : α → Lower Unit}
    (holds : ∀ item ∈ items, ending.Leaves site (check item) fun _ => True) :
    ending.Leaves site (items.forM check) fun _ => True := by
  induction items with
  | nil => exact .pure trivial
  | cons item items ih =>
    exact (holds item (by simp)).andThen fun _ => ih fun item mem => holds item (by simp [mem])

/-- Asking about the items, one after the other. -/
theorem anyM {items : List α} {ask : α → Lower Bool}
    (holds : ∀ item ∈ items, ending.Leaves site (ask item) fun _ => True) :
    ending.Leaves site (items.anyM ask) fun _ => True := by
  -- The search stops at the first item that answers; asking leaves nothing either way.
  induction items with
  | nil => exact .pure trivial
  | cons item items ih =>
    rw [List.anyM]
    refine (holds item (by simp)).bind fun found => ?_
    cases found with
    | true => exact .pure fun _ => trivial
    | false =>
      exact (ih fun item mem => holds item (by simp [mem])).weaken fun _ _ _ => trivial

/-- Picking items by asking about each. -/
theorem filterM {items : List α} {ask : α → Lower Bool}
    (holds : ∀ item ∈ items, ending.Leaves site (ask item) fun _ => True) :
    ending.Leaves site (items.filterM ask) fun _ => True := by
  -- The filter asks about each item and gathers those that answer.
  have collects (items found : List α)
      (holds : ∀ item ∈ items, ending.Leaves site (ask item) fun _ => True) :
      ending.Leaves site (List.filterAuxM ask items found) fun _ => True := by
    induction items generalizing found with
    | nil => exact .pure trivial
    | cons item items ih =>
      refine (holds item (by simp)).bind fun _ => ?_
      exact (ih _ fun item mem => holds item (by simp [mem])).weaken fun _ _ _ => trivial
  exact (collects items [] holds).bind fun _ => .pure fun _ => trivial

end Leaves

/-- Steps that only ask about the setting. -/
theorem Leaves.asks {ask : Setting → α} {described : α → Prop}
    (holds : ∀ setting progress, ending.Fits site setting progress → described (ask setting)) :
    ending.Leaves site (do return ask (← read)) described := by
  rintro setting before _ _ fits ⟨⟩
  exact ⟨.refl _, fun _ => holds setting before fits⟩

/-- The setting tells whether the site is in parameters, and whether its code ever runs. -/
theorem leaves_read :
    ending.Leaves site read fun setting => (setting.inParams = true → site = .inside .barred)
      ∧ ∀ isDead, site = .own isDead → setting.isDead = isDead := by
  rintro setting before _ _ fits ⟨⟩
  exact ⟨.refl _, fun _ => ⟨fits.params, fits.dead⟩⟩

/-- Reading the state leaves nothing in the tree. -/
theorem leaves_get : ending.Leaves site get fun _ => True := by
  rintro setting before _ _ fits ⟨⟩
  exact ⟨.refl _, fun _ => trivial⟩

/-- A feature is missing if the target does not have it. -/
theorem leaves_lacks (feature : Feature) :
    ending.Leaves site (lacks feature) (· = !ending.target.supports feature) :=
  .asks fun _ _ fits => by rw [fits.target]

/-- A feature is there if the target has it. -/
theorem leaves_supports (feature : Feature) :
    ending.Leaves site (supports feature) (· = ending.target.supports feature) :=
  .asks fun _ _ fits => by rw [fits.target]

/-- The owner is one that the site can have. -/
theorem leaves_here : ending.Leaves site here fun owner => site.Suits owner := by
  intro setting before result after fits run
  cases found : before.owners with
  | nil =>
    rw [here_of_nil found] at run
    cases run
  | cons owner around =>
    rw [here_of_cons found] at run
    cases run
    have own : before.owner = result := by rw [Progress.owner, found, List.headD_cons]
    exact ⟨.refl _, fun _ => own ▸ fits.suits⟩

/-- A problem that is reported is one of the run. -/
theorem leaves_report (span : Span) (problem : Problem) :
    ending.Leaves site (report span problem) fun _ => ending.reported problem := by
  rintro setting before _ _ fits ⟨⟩
  refine ⟨⟨fun report mem => List.mem_append_left _ mem, rfl, id⟩, fun hears => ?_⟩
  exact hears.2 ⟨problem, span⟩ (List.mem_append_right _ (List.mem_singleton.mpr rfl))

/-- What is not supported is reported. -/
theorem leaves_unsupported (span : Span) (construct : Construct) :
    ending.Leaves site (unsupported span construct) fun _ =>
      ending.reported (.unsupported construct) :=
  leaves_report span _

/-- Whatever the target lacks is reported. -/
theorem leaves_require (feature : Feature) (span : Span) (construct : Construct) :
    ending.Leaves site (require feature span construct) fun _ =>
      ending.Admits feature construct := by
  refine (leaves_lacks feature).bind fun isLacking => ?_
  cases isLacking with
  | false => exact .pure fun known => .inl (by simpa using known.symm)
  | true => exact (leaves_unsupported span construct).weaken fun _ reported _ => .inr reported

end Ending

end Downlevel
