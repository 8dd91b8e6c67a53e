import Downlevel.Lowering.Function
import Downlevel.Lowering.State
import Mathlib.Data.List.Forall2

/-! What the result of a step is like, whatever happens to the state, and what the steps that open and
close frames and owners come to, by what they find in the state. Each of those runs once here, so that
what such a step keeps is a matter of its few outcomes. -/

namespace Downlevel.Lowering

/-- Whatever the step ends with is as demanded. -/
def Ensures {α : Type} (step : Lower α) (demand : α → Prop) : Prop :=
  ∀ setting before result after, step setting before = .ok (result, after) → demand result

namespace Ensures

variable {α β : Type} {step : Lower α} {demand : α → Prop} {final : β → Prop}

/-- A result that is given is as demanded if it is. -/
theorem done {result : α} (holds : demand result) : Ensures (pure result) demand := by
  rintro setting before _ _ ⟨⟩
  exact holds

/-- What follows from the demand holds as well. -/
theorem imp {other : α → Prop} (holds : Ensures step demand)
    (follows : ∀ result, demand result → other result) : Ensures step other :=
  fun setting before result after run => follows result (holds setting before result after run)

/-- One step after another. -/
theorem bind {rest : α → Lower β} (first : Ensures step demand)
    (second : ∀ result, demand result → Ensures (rest result) final) :
    Ensures (step >>= rest) final := by
  intro setting before result after run
  have both : (step >>= rest) setting before
      = (step setting before >>= fun pair => rest pair.1 setting pair.2) := rfl
  rw [both] at run
  cases ran : step setting before with
  | error fault =>
    rw [ran] at run
    cases run
  | ok pair =>
    rw [ran] at run
    exact second pair.1 (first setting before pair.1 pair.2 ran) setting pair.2 result after run

/-- A step that fails ends with nothing. -/
theorem fails {fault : Fault} : Ensures (throw fault : Lower α) demand :=
  fun _ _ _ _ run => nomatch run

/-- Every step ends with something. -/
theorem anyhow : Ensures step fun _ => True :=
  fun _ _ _ _ _ => trivial

/-- A step of which nothing needs to be known. -/
theorem next {rest : α → Lower β} (second : ∀ result, Ensures (rest result) final) :
    Ensures (step >>= rest) final :=
  anyhow.bind fun result _ => second result

/-- The same step in another setting. -/
theorem withReader {change : Setting → Setting} (holds : Ensures step demand) :
    Ensures (withReader change step) demand :=
  fun setting before result after run => holds (change setting) before result after run

/-- A step inside of a function or class. -/
theorem inOwner {owner : Owner} (holds : Ensures step demand) :
    Ensures (inOwner owner step) fun pair => demand pair.1 := by
  refine .next fun _ => .bind (withReader holds) fun result isDemanded => .next fun progress => ?_
  cases progress.owners with
  | nil => exact .fails
  | cons owner around => exact .next fun _ => .done isDemanded

/-- A step in a frame of its own. -/
theorem inFrame {kind : FrameKind} {owner : ScopeId} (holds : Ensures step demand) :
    Ensures (inFrame kind owner step) fun pair => demand pair.1 := by
  refine .next fun _ => .bind holds fun result isDemanded => .next fun progress => ?_
  cases progress.temps.pop? with
  | none => exact .fails
  | some pair => exact .next fun _ => .done isDemanded

/-- Each member of a list makes a member of the result. -/
theorem mapM {γ : Type} {step : γ → Lower α} {relation : γ → α → Prop}
    (each : ∀ member, Ensures (step member) (relation member)) (members : List γ) :
    Ensures (members.mapM step) (List.Forall₂ relation members) := by
  induction members with
  | nil => exact .done .nil
  | cons member rest ih =>
    rw [List.mapM_cons]
    exact (each member).bind fun result isRelated => ih.bind fun results areRelated =>
      .done (.cons isRelated areRelated)

/-- Each member of the result is as demanded if that holds for each member of the list. -/
theorem forall_mapM {γ : Type} {step : γ → Lower α} {members : List γ}
    (each : ∀ member ∈ members, Ensures (step member) demand) :
    Ensures (members.mapM step) fun results => ∀ result ∈ results, demand result := by
  induction members with
  | nil => exact .done (List.forall_mem_nil _)
  | cons member rest ih =>
    have ⟨first, others⟩ := List.forall_mem_cons.mp each
    rw [List.mapM_cons]
    exact first.bind fun result holds => (ih others).bind fun results hold =>
      .done (List.forall_mem_cons.mpr ⟨holds, hold⟩)

/-- A function is put together from the parameters and the body that its frame makes, and either stays
like that or moves into a generator. -/
theorem lowerFunc {source : Func} {params : Lower (List Param)} {body : Lower Body}
    {demand : List Param × Body → Prop}
    (inside : Ensures (do moveParamRests (← inParams params) (← body)) demand) :
    Ensures (lowerFunc source params body) fun func =>
      ∃ left own temps, demand (left, own) ∧
        let inner : Func :=
          { source with params := left, body := declareInBody source.span temps own }
        (func = inner
          ∨ ∃ driver forwards usesThis, func = toGenerator driver forwards usesThis inner) := by
  refine .next fun mode => .next fun setting => .next fun lacksArrow => .next fun isKept =>
    .bind (.inFrame (.next fun progress => .inOwner inside))
      fun ⟨⟨⟨left, own⟩, owner⟩, temps⟩ isDemanded => ?_
  dsimp only
  split
  · exact .done ⟨left, own, temps, isDemanded, .inl rfl⟩
  · exact .next fun driver => .done ⟨left, own, temps, isDemanded, .inr ⟨driver, _, _, rfl⟩⟩

end Ensures

variable {α : Type} {setting : Setting} {before : Progress}

section Alloc

variable {frame : Nat} {base : Option String} {init : Option Expr} {declare : Bool}

/-- Handing out a name depends on what its frame finds. -/
theorem allocIn_run : allocIn frame base init declare setting before
    = (match before.temps.allocIn? frame setting.scopes base init declare with
      | some (name, temps) => do
        set { before with temps }
        return name
      | none => throw .noFrame : Lower String) setting before := rfl

/-- The name that the frames give is handed out. -/
theorem allocIn_of_some {name : String} {temps : Temps}
    (given : before.temps.allocIn? frame setting.scopes base init declare = some (name, temps)) :
    allocIn frame base init declare setting before = .ok (name, { before with temps }) := by
  rw [allocIn_run, given]
  rfl

/-- Where the frames give no name, none is handed out. -/
theorem allocIn_of_none
    (given : before.temps.allocIn? frame setting.scopes base init declare = none) :
    allocIn frame base init declare setting before = .error .noFrame := by
  rw [allocIn_run, given]
  rfl

end Alloc

section Here

/-- The innermost owner is the first one. -/
theorem here_run : here setting before = (match before.owners with
    | owner :: _ => return owner
    | [] => throw .noOwner : Lower Owner) setting before := rfl

/-- The first owner is the one that the lowering is directly inside of. -/
theorem here_of_cons {owner : Owner} {around : List Owner}
    (found : before.owners = owner :: around) :
    here setting before = .ok (owner, before) := by
  rw [here_run, found]
  rfl

/-- Without an owner there is none to ask for. -/
theorem here_of_nil (found : before.owners = []) :
    here setting before = .error .noOwner := by
  rw [here_run, found]
  rfl

end Here

section InFrame

variable {kind : FrameKind} {scope : ScopeId} {step : Lower α} {result : α} {ended : Progress}

/-- A step in a frame of its own runs with that frame open, and closes it. -/
theorem inFrame_run : inFrame kind scope step setting before
    = (step setting { before with temps := before.temps.push kind scope } >>=
      fun (result, ended) =>
        (match ended.temps.pop? with
        | some (declared, temps) => do
          set { ended with temps }
          return (result, declared)
        | none => throw .noFrame : Lower (α × List Temp)) setting ended) := rfl

/-- A step that fails in a frame of its own fails with it. -/
theorem inFrame_of_error {fault : Fault}
    (ran : step setting { before with temps := before.temps.push kind scope } = .error fault) :
    inFrame kind scope step setting before = .error fault := by
  rw [inFrame_run, ran]
  rfl

/-- A step that leaves a frame gives the names of the frame that it closes. -/
theorem inFrame_of_some {declared : List Temp} {temps : Temps}
    (ran : step setting { before with temps := before.temps.push kind scope }
      = .ok (result, ended))
    (closed : ended.temps.pop? = some (declared, temps)) :
    inFrame kind scope step setting before
      = .ok ((result, declared), { ended with temps }) := by
  rw [inFrame_run, ran]
  simp only [bind, Except.bind, closed]
  rfl

/-- A step that leaves no frame to close fails. -/
theorem inFrame_of_none
    (ran : step setting { before with temps := before.temps.push kind scope }
      = .ok (result, ended))
    (closed : ended.temps.pop? = none) :
    inFrame kind scope step setting before = .error .noFrame := by
  rw [inFrame_run, ran]
  simp only [bind, Except.bind, closed]
  rfl

end InFrame

section InOwner

variable {owner : Owner} {step : Lower α} {result : α} {ended : Progress}

/-- A step in an owner of its own runs with that owner innermost, and drops it. -/
theorem inOwner_run : inOwner owner step setting before
    = (step { setting with inParams := false } { before with owners := owner :: before.owners } >>=
      fun (result, ended) =>
        (match ended.owners with
        | owner :: around => do
          set { ended with owners := around }
          return (result, owner)
        | [] => throw .noOwner : Lower (α × Owner)) setting ended) := rfl

/-- A step that fails inside an owner fails with it. -/
theorem inOwner_of_error {fault : Fault}
    (ran : step { setting with inParams := false }
      { before with owners := owner :: before.owners } = .error fault) :
    inOwner owner step setting before = .error fault := by
  rw [inOwner_run, ran]
  rfl

/-- A step inside an owner gives what became of the owner. -/
theorem inOwner_of_cons {marked : Owner} {around : List Owner}
    (ran : step { setting with inParams := false }
      { before with owners := owner :: before.owners } = .ok (result, ended))
    (left : ended.owners = marked :: around) :
    inOwner owner step setting before
      = .ok ((result, marked), { ended with owners := around }) := by
  rw [inOwner_run, ran]
  simp only [bind, Except.bind, left]
  rfl

end InOwner

end Downlevel.Lowering
