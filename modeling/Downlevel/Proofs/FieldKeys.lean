import Downlevel.Lowering.Class.Body
import Downlevel.Proofs.StateSteps
import Downlevel.Proofs.Numerals

/-! The names of properties. A field that moves out of its class body defines the property that its key
denotes there, unless the key is an identifier with escapes and the field is not assigned but
defined. -/

namespace Downlevel

open Text

/-- An identifier as it is spelled, with escapes in some places, and the name that it is. -/
inductive SpelledName : (text name : List Char) → Prop
  | nil : SpelledName [] []
  | plain {c : Char} {text name : List Char} :
    c ≠ '\\' → SpelledName text name → SpelledName (c :: text) (c :: name)
  | unit {digits text name : List Char} {code : Nat} :
    Numeral 16 digits code → digits.length = 4 → SpelledName text name →
      SpelledName ('\\' :: 'u' :: digits ++ text) (charOrReplacement code :: name)
  | codePoint {digits text name : List Char} {code : Nat} :
    Numeral 16 digits code → SpelledName text name →
      SpelledName ('\\' :: 'u' :: '{' :: digits ++ '}' :: text) (charOrReplacement code :: name)

namespace SpelledName

variable {text name : List Char}

/-- Without escapes an identifier is spelled like its name. -/
theorem eq_of_plain (spelled : SpelledName text name) (plain : '\\' ∉ text) : name = text := by
  induction spelled with
  | nil => rfl
  | plain _ _ ih => rw [ih fun mem => plain (List.mem_cons_of_mem _ mem)]
  | unit => exact absurd (List.mem_cons_self ..) plain
  | codePoint => exact absurd (List.mem_cons_self ..) plain

/-- A name is not longer than the text that spells it. -/
theorem length_le (spelled : SpelledName text name) : name.length ≤ text.length := by
  induction spelled with
  | nil => exact Nat.le_refl _
  | plain _ _ ih => exact Nat.succ_le_succ ih
  | unit _ _ _ ih =>
    simp only [List.length_cons, List.length_append]
    omega
  | codePoint _ _ ih =>
    simp only [List.length_cons, List.length_append]
    omega

/-- Each escape makes the text longer than the name. -/
theorem length_lt (spelled : SpelledName text name) (escaped : '\\' ∈ text) :
    name.length < text.length := by
  -- By induction on the spelling: an escape is longer than the character it stands for.
  induction spelled with
  | nil => cases escaped
  | plain plain _ ih =>
    exact Nat.succ_lt_succ (ih ((List.mem_cons.mp escaped).resolve_left (Ne.symm plain)))
  | unit _ _ rest _ =>
    have behind := rest.length_le
    simp only [List.length_cons, List.length_append]
    omega
  | codePoint _ rest _ =>
    have behind := rest.length_le
    simp only [List.length_cons, List.length_append]
    omega

/-- Two spellings, one behind the other, spell both names. -/
theorem append {more rest : List Char} (spelled : SpelledName text name)
    (behind : SpelledName more rest) : SpelledName (text ++ more) (name ++ rest) := by
  induction spelled with
  | nil => exact behind
  | plain plain _ ih => exact .plain plain ih
  | unit numeral four _ ih =>
    simp only [List.cons_append, List.append_assoc]
    exact .unit numeral four ih
  | codePoint numeral _ ih =>
    simp only [List.cons_append, List.append_assoc]
    exact .codePoint numeral ih

end SpelledName

/-- The characters that mark the radix of a number that is not decimal. -/
def radixMarks : List (Char × Nat) :=
  [('x', 16), ('X', 16), ('o', 8), ('O', 8), ('b', 2), ('B', 2)]

/-- The digits of a large integer, with separators between them, and its value. -/
inductive LargeInteger : List Char → Nat → Prop
  | decimal {digits : List Char} {value : Nat} :
    Numeral 10 (digits.filter (· != '_')) value → LargeInteger digits value
  | marked {mark : Char} {radix : Nat} {digits : List Char} {value : Nat} :
    (mark, radix) ∈ radixMarks → Numeral radix (digits.filter (· != '_')) value →
      LargeInteger ('0' :: mark :: digits) value

section Denotations

/-! How the value of a number is written as the name of a property is the same for a key and for an
expression, and does not matter here. -/

variable (numeric : String → String)

/-- The name of the property that a key of the source denotes. -/
inductive Denotes : KeyName → String → Prop
  | identifier {span : Span} {text name : String} :
    SpelledName text.toList name.toList → Denotes ⟨span, text, .identifier⟩ name
  | string {span : Span} {value : String} : Denotes ⟨span, value, .string⟩ value
  | number {span : Span} {text : String} : Denotes ⟨span, text, .number⟩ (numeric text)
  | bigint {span : Span} {digits : String} {value : Nat} :
    LargeInteger digits.toList value → Denotes ⟨span, digits, .bigint⟩ (toString value)

/-- The name of the property that a literal stands for where a key is computed. -/
inductive Names : Expr → String → Prop
  | string {origin : Origin} {value : String} : Names ⟨origin, .str value⟩ value
  | number {origin : Origin} {text : String} : Names ⟨origin, .num text⟩ (numeric text)

/-- The name of the property that is written by an assignment to a member. -/
inductive Places : Expr → String → Prop
  | member {origin : Origin} {object : Expr} {text name : String} :
    SpelledName text.toList name.toList → Places ⟨origin, .member .plain object text⟩ name
  | computed {origin : Origin} {object key : Expr} {name : String} :
    Names numeric key name → Places ⟨origin, .computed .plain object key⟩ name

end Denotations

namespace Lowering

variable {numeric : String → String} {key : KeyName} {name : String}

/-- A large integer is read as its value, in every notation and with separators anywhere. -/
theorem bigintValue?_of_largeInteger {digits : String} {value : Nat}
    (literal : LargeInteger digits.toList value) : bigintValue? digits = some value := by
  have read {radix : Nat} {letters : List Char} (numeral : Numeral radix letters value) :
      (if letters.isEmpty then none else digitsValue? radix 0 letters) = some value := by
    simp [numeral.ne_nil, numeral.read]
  simp only [bigintValue?, withoutSeparators]
  generalize digits.toList = letters at literal
  cases literal with
  | decimal numeral =>
    -- No decimal digits start with the mark of another radix.
    have noMark (mark : Char) (radix : Nat) (known : (mark, radix) ∈ radixMarks) {rest : List Char}
        (starts : letters.filter (· != '_') = '0' :: mark :: rest) : False := by
      have large : ∀ pair ∈ radixMarks, (digitValue? pair.1).all (10 ≤ ·) = true := by decide
      obtain ⟨digit, isDigit, small⟩ := numeral.digit (c := mark) (by simp [starts])
      have noDigit := large (mark, radix) known
      simp only [isDigit, Option.all_some, decide_eq_true_eq] at noDigit
      omega
    split
    · exact (noMark 'x' 16 (by decide) ‹_›).elim
    · exact (noMark 'X' 16 (by decide) ‹_›).elim
    · exact (noMark 'o' 8 (by decide) ‹_›).elim
    · exact (noMark 'O' 8 (by decide) ‹_›).elim
    · exact (noMark 'b' 2 (by decide) ‹_›).elim
    · exact (noMark 'B' 2 (by decide) ‹_›).elim
    · exact read numeral
  | marked known numeral =>
    simp only [radixMarks, List.mem_cons, Prod.mk.injEq, List.not_mem_nil, or_false] at known
    rcases known with ⟨rfl, rfl⟩ | ⟨rfl, rfl⟩ | ⟨rfl, rfl⟩ | ⟨rfl, rfl⟩ | ⟨rfl, rfl⟩ | ⟨rfl, rfl⟩
    all_goals exact read numeral

/-- The value that a field is defined by names the property that its key denotes, exactly if the key is
no identifier with escapes. -/
theorem names_fieldKey_iff (denotes : Denotes numeric key name) :
    Names numeric (fieldKey (.direct key)) name
      ↔ (key.kind = .identifier → '\\' ∉ key.text.toList) := by
  cases denotes with
  | @identifier span text _ spelled =>
    constructor
    · intro names _ escaped
      -- The text itself is too long for the name.
      have shorter := spelled.length_lt escaped
      cases names
      exact Nat.lt_irrefl _ shorter
    · intro plain
      obtain rfl := String.toList_injective (spelled.eq_of_plain (plain rfl))
      exact .string
  | string => exact ⟨nofun, fun _ => .string⟩
  | number => exact ⟨nofun, fun _ => .number⟩
  | @bigint span digits value literal =>
    refine ⟨nofun, fun _ => ?_⟩
    simp only [fieldKey, bigintValue?_of_largeInteger literal]
    exact .string

/-- The place that a field is assigned to is the property that its key denotes. -/
theorem places_fieldPlace (denotes : Denotes numeric key name) (span : Span) (receiver : Expr) :
    Places numeric (fieldPlace span receiver (.direct key)) name := by
  cases denotes with
  | identifier spelled => exact .member spelled
  | string => exact .computed .string
  | number => exact .computed .number
  | bigint literal =>
    refine .computed ?_
    simp only [fieldKey, bigintValue?_of_largeInteger literal]
    exact .string

/-- A key that is lowered still denotes the same property; only a large integer is spelled in another
way. -/
theorem ensures_lowerKey (denotes : Denotes numeric key name) :
    Ensures (lowerKey (.direct key)) fun lowered => ∃ again, lowered = .direct again
      ∧ Denotes numeric again name ∧ (again = key ∨ key.kind = .bigint ∧ again.kind = .string) := by
  unfold lowerKey
  refine .next fun isLacking => ?_
  split
  · rename_i isBigint
    -- Only a large integer is rewritten, and its digits are the name.
    cases denotes with
    | bigint literal =>
      rw [bigintValue?_of_largeInteger literal]
      exact .done ⟨_, rfl, .string, .inr ⟨rfl, rfl⟩⟩
    | identifier => cases isBigint.1
    | string => cases isBigint.1
    | number => cases isBigint.1
  · exact .done ⟨key, rfl, denotes, .inl rfl⟩

/-- A field that moves out of its class body is assigned to the property that its key denotes. Where it
is defined instead, its key names that property exactly if it is no identifier with escapes. -/
theorem ensures_movedKey (denotes : Denotes numeric key name) :
    Ensures (lowerKey (.direct key)) fun lowered =>
      (∀ span receiver, Places numeric (fieldPlace span receiver lowered) name)
        ∧ (Names numeric (fieldKey lowered) name
          ↔ (key.kind = .identifier → '\\' ∉ key.text.toList)) := by
  refine (ensures_lowerKey denotes).imp fun lowered made => ?_
  obtain ⟨again, rfl, denotes', same⟩ := made
  refine ⟨places_fieldPlace denotes', (names_fieldKey_iff denotes').trans ?_⟩
  rcases same with rfl | ⟨isBigint, isString⟩
  · exact .rfl
  · simp [isBigint, isString]

/-- A key that is spelled in quotes. -/
theorem ensures_movedKey_quoted :
    let key : KeyName := ⟨⟨0, 5⟩, "a-b", .string⟩
    Denotes id key "a-b" ∧ Ensures (lowerKey (.direct key)) fun lowered =>
      (∀ span receiver, Places id (fieldPlace span receiver lowered) "a-b")
        ∧ (Names id (fieldKey lowered) "a-b"
          ↔ (key.kind = .identifier → '\\' ∉ key.text.toList)) := by
  intro key
  have denotes : Denotes id key "a-b" := .string
  exact ⟨denotes, ensures_movedKey denotes⟩

end Lowering

end Downlevel
