import Downlevel.Lowering.Literal
import Downlevel.Proofs.Cooking
import Downlevel.Proofs.StateSteps

/-! A template that becomes a sum has the same text as before, and one behind a tag passes its strings
and its substitutions on. Decoding takes no slice that is not there, so that what becomes of a template
is known without lowering it. -/

namespace Downlevel

namespace Templates

open Lowering

/-- The value of a part of a template. -/
def partValue (span : Span) (text : String) : Expr :=
  .str span ((Text.cook? (rawText text)).getD (rawText text))

/-- The substitutions of a template and the texts that are not empty, in order. -/
def operands (span : Span) (spans : List TemplateSpan) : List Expr :=
  spans.flatMap fun part =>
    part.value :: if part.text.isEmpty then [] else [partValue span part.text]

/-- The sum that a template becomes. -/
def sum (span : Span) (head : String) (spans : List TemplateSpan) : Expr :=
  (operands span spans).foldl (.binary span .addition) (partValue span head)

/-- The value of a part of a tagged template, which has none if it cannot be decoded. -/
def cookedValue (span : Span) (raw : String) : Expr :=
  ((Text.cook? raw).map (.str span)).getD (.undefined span)

/-- The strings of a tagged template. -/
def strings (span : Span) (texts : List String) : List Expr :=
  let raws := texts.map rawText
  let decoded := .array span (raws.map (cookedValue span))
  if raws.map Text.cook? = raws.map some then [decoded]
  else [decoded, .array span (raws.map (.str span))]

end Templates

namespace Lowering

variable {span : Span}

/-- Every text is decoded or malformed, without a fault. -/
theorem cooked_eq (raw : String) : cooked raw = pure (Text.cook? raw) := by
  rw [cooked, Text.cook_eq_ok]

/-- The value of a part of a template needs nothing from the state. -/
theorem partValue_eq (span : Span) (text : String) :
    partValue span text = pure (Templates.partValue span text) := by
  rw [partValue, cooked_eq]
  rfl

/-- The operands of a template need nothing from the state. -/
theorem operands_eq (span : Span) (spans : List TemplateSpan) :
    operands span spans = pure (Templates.operands span spans) := by
  induction spans with
  | nil => rfl
  | cons part rest ih =>
    rw [operands, ih, partValue_eq]
    show _ = pure (part.value :: (if part.text.isEmpty then [] else _) ++ Templates.operands span rest)
    split <;> rfl

/-- A template always becomes its sum. -/
theorem templateToSum_eq (span : Span) (head : String) (spans : List TemplateSpan) :
    templateToSum span head spans = pure (Templates.sum span head spans) := by
  rw [templateToSum, partValue_eq, operands_eq]
  rfl

/-- Decoding many texts is decoding each. -/
theorem mapM_cooked (raws : List String) : raws.mapM cooked = pure (raws.map Text.cook?) := by
  induction raws with
  | nil => rfl
  | cons raw rest ih =>
    rw [List.mapM_cons, cooked_eq, ih]
    rfl

/-- The strings of a tagged template are always made. -/
theorem templateStrings_eq (span : Span) (texts : List String) :
    templateStrings span texts = pure (Templates.strings span texts) := by
  rw [templateStrings, mapM_cooked, Templates.strings]
  dsimp only
  rw [pure_bind]
  -- The values in the array are made from the decoded texts.
  have same : (texts.map rawText |>.map Text.cook? |>.map fun value =>
      (value.map (.str span)).getD (.undefined span))
      = (texts.map rawText).map (Templates.cookedValue span) := List.map_map
  rw [same]
  split <;> rfl

end Lowering

/-- The operands of a sum that is written without parentheses, the first one apart. -/
def Expr.summands : Expr → Expr × List Expr
  | ⟨_, .binary .addition left right⟩ => (left.summands.1, left.summands.2 ++ [right])
  | e => (e, [])
termination_by structural e => e

/-- The text that a sum comes to from left to right, given the texts of its operands. -/
def Expr.sum (textOf : Expr → String) (e : Expr) : String :=
  e.summands.2.foldl (fun soFar operand => soFar ++ textOf operand) (textOf e.summands.1)

/-- The texts of substitutions, each with the decoded text behind it. -/
def substituted? (textOf : Expr → String) : List TemplateSpan → Option String
  | [] => some ""
  | part :: rest => do
    let behind ← Text.cook? (Lowering.rawText part.text)
    return textOf part.value ++ behind ++ (← substituted? textOf rest)

/-- The text of a template whose escapes are well formed. -/
def templateText? (textOf : Expr → String) (head : String) (spans : List TemplateSpan) :
    Option String := do
  return (← Text.cook? (Lowering.rawText head)) ++ (← substituted? textOf spans)

namespace Templates

open Lowering

variable {span : Span} {textOf : Expr → String} {spans : List TemplateSpan} {text value : String}

/-- One more operand behind a sum. -/
theorem summands_addition (left right : Expr) :
    (Expr.binary span .addition left right).summands
      = (left.summands.1, left.summands.2 ++ [right]) := by
  rw [Expr.binary, Expr.of, Expr.summands]

/-- Adding operands to a sum adds them to its summands. -/
theorem summands_foldl (left : Expr) (others : List Expr) :
    (others.foldl (.binary span .addition) left).summands
      = (left.summands.1, left.summands.2 ++ others) := by
  -- By induction on the operands that are added, of which the first becomes part of the left side.
  induction others generalizing left with
  | nil => simp
  | cons right rest ih => rw [List.foldl_cons, ih, summands_addition, List.append_assoc]; rfl

/-- A template is a sum of a string and its operands. -/
theorem summands_sum (head : String) (spans : List TemplateSpan) :
    (sum span head spans).summands = (partValue span head, operands span spans) := by
  rw [sum, summands_foldl]
  rfl

/-- Text without malformed escapes stands for what they decode to. -/
theorem partValue_of_cooks (cooks : Text.cook? (rawText text) = some value) :
    partValue span text = .str span value := by
  rw [partValue, cooks]
  rfl

/-- Text that is left out has nothing to decode. -/
theorem cook?_of_isEmpty (isEmpty : text.isEmpty = true) :
    Text.cook? (rawText text) = some "" := by
  obtain rfl : text = "" := by simpa using isEmpty
  rfl

/-- Adding up the operands adds the texts of the substitutions and what the text behind each decodes
to. -/
theorem foldl_operands (ofString : ∀ value, textOf (.str span value) = value) {result : String}
    (known : substituted? textOf spans = some result) (soFar : String) :
    (operands span spans).foldl (fun soFar operand => soFar ++ textOf operand) soFar
      = soFar ++ result := by
  -- By induction on the substitutions. Text that is left out behind one decodes to nothing.
  induction spans generalizing soFar result with
  | nil =>
    obtain rfl : "" = result := Option.some.inj known
    simp [operands]
  | cons part rest ih =>
    simp only [substituted?, bind, Option.bind_eq_some_iff] at known
    obtain ⟨behind, cooks, later, knownLater, same⟩ := known
    obtain rfl : textOf part.value ++ behind ++ later = result := Option.some.inj same
    have ih := ih knownLater (soFar ++ textOf part.value ++ behind)
    rw [operands] at ih ⊢
    rw [List.flatMap_cons, List.cons_append, List.foldl_cons]
    split
    · rename_i isEmpty
      obtain rfl : "" = behind := Option.some.inj ((cook?_of_isEmpty isEmpty).symm.trans cooks)
      simpa [String.append_assoc] using ih
    · rw [partValue_of_cooks cooks, List.cons_append, List.foldl_cons, ofString]
      simpa [String.append_assoc] using ih

end Templates

open Lowering

/-- A template without malformed escapes becomes a sum that has the same text, whatever the texts of the
substitutions are. The sum starts with a string, and has every substitution for an operand once and in
order. -/
theorem sum_templateToSum {span : Span} {textOf : Expr → String} {head result : String}
    {spans : List TemplateSpan} (ofString : ∀ value, textOf (.str span value) = value)
    (known : templateText? textOf head spans = some result) :
    ∃ sum, templateToSum span head spans = pure sum
      ∧ (∃ value, sum.summands.1 = .str span value)
      ∧ List.Sublist (spans.map (·.value)) sum.summands.2
      ∧ sum.sum textOf = result := by
  refine ⟨_, templateToSum_eq span head spans, ?_⟩
  simp only [templateText?, bind, Option.bind_eq_some_iff] at known
  obtain ⟨value, cooks, behind, knownBehind, same⟩ := known
  obtain rfl : value ++ behind = result := Option.some.inj same
  rw [Expr.sum, Templates.summands_sum, Templates.partValue_of_cooks cooks]
  refine ⟨⟨value, rfl⟩, ?_, ?_⟩
  · clear knownBehind
    induction spans with
    | nil => exact .slnil
    | cons part rest ih =>
      rw [Templates.operands, List.flatMap_cons, List.map_cons]
      exact .cons_cons _ (ih.trans (List.sublist_append_right ..))
  · rw [Templates.foldl_operands ofString knownBehind, ofString]

/-- A substitution between two texts, the second of which has an escape. -/
theorem sum_templateToSum_escape :
    let textOf : Expr → String := fun e => match e.shape with
      | .str value => value
      | _ => "1"
    let spans : List TemplateSpan := [⟨.id ⟨4, 5⟩ "b", "\\n"⟩]
    templateText? textOf "a" spans = some "a1\n"
      ∧ ∃ sum, templateToSum ⟨0, 9⟩ "a" spans = pure sum
        ∧ (∃ value, sum.summands.1 = .str ⟨0, 9⟩ value)
        ∧ List.Sublist (spans.map (·.value)) sum.summands.2
        ∧ sum.sum textOf = "a1\n" := by
  intro textOf spans
  have known : templateText? textOf "a" spans = some "a1\n" := by decide +kernel
  exact ⟨known, sum_templateToSum (fun _ => rfl) known⟩

/-- The strings of a template as they are passed to its tag. -/
inductive PassedStrings (span : Span) (texts : List String) : List Expr → Prop
  /-- Each string decodes to what it is written as. -/
  | decoded (alike : ∀ text ∈ texts, Text.cook? (rawText text) = some (rawText text)) :
    PassedStrings span texts
      [.array span (texts.map fun text => Templates.cookedValue span (rawText text))]
  | alsoRaw (differs : ∃ text ∈ texts, Text.cook? (rawText text) ≠ some (rawText text)) :
    PassedStrings span texts
      [.array span (texts.map fun text => Templates.cookedValue span (rawText text)),
        .array span (texts.map fun text => .str span (rawText text))]

namespace Lowering

variable {span : Span}

/-- The strings of a template are passed as they have to be. -/
theorem passedStrings_strings (texts : List String) :
    PassedStrings span texts (Templates.strings span texts) := by
  simp only [Templates.strings, List.map_map, Function.comp_def]
  split
  · rename_i alike
    exact .decoded (by simpa using alike)
  · rename_i differs
    exact .alsoRaw (by simpa using differs)

/-- A tag gets one string more than there are substitutions, and these behind it in order. -/
theorem ensures_taggedToCall {tag : Expr} {receiver : Option Expr} {head : String}
    {spans : List TemplateSpan} :
    Ensures (taggedToCall span tag receiver head spans) fun e =>
      ∃ name strings, PassedStrings span (head :: spans.map (·.text)) strings
        ∧ let made := .assign span (.id span name) (.helper span "__template" strings)
          let args := .binary span .logicalOr (.id span name) made :: spans.map (·.value)
          e = match receiver with
            | some receiver => .callWithThis span tag receiver (args.map (⟨false, ·⟩))
            | none => .call span tag args := by
  unfold taggedToCall
  rw [templateStrings_eq, pure_bind]
  refine .next fun name => ?_
  cases receiver with
  | some receiver => exact .done ⟨name, _, passedStrings_strings _, rfl⟩
  | none => exact .done ⟨name, _, passedStrings_strings _, rfl⟩

end Lowering

end Downlevel
