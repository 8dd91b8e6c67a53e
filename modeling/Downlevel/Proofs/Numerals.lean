import Downlevel.Text.Escape
import Mathlib.Algebra.Group.Nat.Defs
import Mathlib.Data.List.Induction
import Mathlib.Tactic.SplitIfs

/-! Digits and the numbers that they spell, apart from how they are read. Digits are read as the number
that they spell, and nothing else is read as a number but digits behind a plus sign. -/

namespace Downlevel.Text

/-- Digits of a radix and the number that they spell; the first digit counts most. -/
inductive Numeral (radix : Nat) : List Char → Nat → Prop
  | single {c : Char} {digit : Nat} :
    digitValue? c = some digit → digit < radix → Numeral radix [c] digit
  | push {digits : List Char} {value : Nat} {c : Char} {digit : Nat} :
    Numeral radix digits value → digitValue? c = some digit → digit < radix →
      Numeral radix (digits ++ [c]) (value * radix + digit)

variable {radix value other : Nat} {digits text : List Char} {c : Char}

/-- Digits are read in two parts one after the other. -/
theorem digitsValue?_append (radix soFar : Nat) (front back : List Char) :
    digitsValue? radix soFar (front ++ back)
      = (digitsValue? radix soFar front).bind (digitsValue? radix · back) := by
  induction front generalizing soFar with
  | nil => rfl
  | cons c rest ih =>
    -- The first character is a digit of the radix, or both sides are undefined.
    simp only [List.cons_append, digitsValue?]
    cases digitValue? c with
    | none => rfl
    | some digit =>
      by_cases small : digit < radix
      · simp only [small, if_true, ih]
      · simp only [small, if_false, Option.bind_none]

/-- One digit is read if it is one of the radix. -/
theorem digitsValue?_single {soFar : Nat} :
    digitsValue? radix soFar [c] = some value
      ↔ ∃ digit, digitValue? c = some digit ∧ digit < radix ∧ value = soFar * radix + digit := by
  simp only [digitsValue?]
  cases digitValue? c with
  | none => simp
  | some digit => by_cases small : digit < radix <;> simp [small, eq_comm]

namespace Numeral

/-- A number has at least one digit. -/
theorem ne_nil (numeral : Numeral radix digits value) : digits ≠ [] := by
  cases numeral <;> simp

/-- Digits are read as the number that they spell. -/
theorem read (numeral : Numeral radix digits value) : digitsValue? radix 0 digits = some value := by
  induction numeral with
  | single isDigit small => exact digitsValue?_single.mpr ⟨_, isDigit, small, by simp⟩
  | push _ isDigit small ih =>
    rw [digitsValue?_append, ih]
    exact digitsValue?_single.mpr ⟨_, isDigit, small, rfl⟩

/-- What is read as a number spells it. -/
theorem of_read (nonempty : digits ≠ []) (found : digitsValue? radix 0 digits = some value) :
    Numeral radix digits value := by
  -- The digits in front of the last one spell a number, unless there are none.
  induction digits using List.reverseRecOn generalizing value with
  | nil => exact absurd rfl nonempty
  | append_singleton front c ih =>
    rw [digitsValue?_append, Option.bind_eq_some_iff] at found
    obtain ⟨sofar, first, last⟩ := found
    obtain ⟨digit, isDigit, small, rfl⟩ := digitsValue?_single.mp last
    cases front with
    | nil =>
      obtain rfl : sofar = 0 := (Option.some.inj first).symm
      simpa using single isDigit small
    | cons d rest => exact push (ih (List.cons_ne_nil _ _) first) isDigit small

/-- Digits spell one number only. -/
theorem unique (numeral : Numeral radix digits value) (again : Numeral radix digits other) :
    value = other :=
  Option.some.inj (numeral.read.symm.trans again.read)

/-- Every character of a number is one of its digits. -/
theorem digit (numeral : Numeral radix digits value) (mem : c ∈ digits) :
    ∃ digit, digitValue? c = some digit ∧ digit < radix := by
  induction numeral with
  | single isDigit small =>
    obtain rfl := List.mem_singleton.mp mem
    exact ⟨_, isDigit, small⟩
  | push _ isDigit small ih =>
    rcases List.mem_append.mp mem with inFront | isLast
    · exact ih inFront
    · obtain rfl := List.mem_singleton.mp isLast
      exact ⟨_, isDigit, small⟩

/-- A number is smaller than the first one that takes more digits. -/
theorem lt (numeral : Numeral radix digits value) : value < radix ^ digits.length := by
  induction numeral with
  | single _ small => simpa using small
  | push _ _ small ih =>
    rw [List.length_append, List.length_singleton, Nat.pow_succ]
    calc _ < (_ + 1) * radix := by rw [Nat.succ_mul]; omega
      _ ≤ _ := Nat.mul_le_mul_right radix ih

/-- A number starts with a digit, whatever follows it. -/
theorem head_ne (numeral : Numeral radix digits value) (noDigit : digitValue? c = none)
    (more : List Char) : (digits ++ more).head? ≠ some c := by
  obtain ⟨d, tail, rfl⟩ := List.exists_cons_of_ne_nil numeral.ne_nil
  obtain ⟨digit, isDigit, -⟩ := numeral.digit (List.mem_cons_self ..)
  intro starts
  rw [Option.some.inj starts, noDigit] at isDigit
  cases isDigit

/-- A sign is no digit. -/
theorem unsigned (numeral : Numeral radix digits value) : digits.head? ≠ some '+' := by
  simpa using numeral.head_ne (c := '+') rfl []

end Numeral

/-- Without a sign in front, just the digits are read. -/
theorem number?_eq_some_iff (unsigned : text.head? ≠ some '+') :
    number? radix text = some value ↔ Numeral radix text value := by
  rw [number?, if_neg unsigned]
  cases text with
  | nil => exact ⟨nofun, fun numeral => absurd rfl numeral.ne_nil⟩
  | cons c rest =>
    exact ⟨Numeral.of_read (List.cons_ne_nil _ _), Numeral.read⟩

/-- A number that is read has digits, possibly behind a sign. -/
theorem numeral_of_number? (found : number? radix text = some value) :
    Numeral radix text value ∨ ∃ digits, text = '+' :: digits ∧ Numeral radix digits value := by
  by_cases signed : text.head? = some '+'
  · obtain ⟨digits, rfl⟩ := List.head?_eq_some_iff.mp signed
    rw [number?, if_pos signed] at found
    cases digits with
    | nil => cases found
    | cons c rest => exact .inr ⟨c :: rest, rfl, .of_read (List.cons_ne_nil _ _) found⟩
  · exact .inl ((number?_eq_some_iff signed).mp found)

/-- Only digits and a sign are read as a number. -/
theorem sign_or_digit_of_number? (found : number? radix text = some value) (mem : c ∈ text) :
    c = '+' ∨ ∃ digit, digitValue? c = some digit ∧ digit < radix := by
  rcases numeral_of_number? found with numeral | ⟨digits, rfl, numeral⟩
  · exact .inr (numeral.digit mem)
  · exact (List.mem_cons.mp mem).imp_right numeral.digit

/-- The value of a digit, by the code of the character. -/
theorem digitValue?_eq (c : Char) :
    digitValue? c = if 48 ≤ c.toNat ∧ c.toNat ≤ 57 then some (c.toNat - 48)
      else if 97 ≤ c.toNat ∧ c.toNat ≤ 102 then some (c.toNat - 97 + 10)
      else if 65 ≤ c.toNat ∧ c.toNat ≤ 70 then some (c.toNat - 65 + 10) else none := by
  simp only [digitValue?, isDecimalDigit, Bool.and_eq_true, decide_eq_true_eq, Char.le_def,
    UInt32.le_iff_toNat_le]
  rfl

/-- Octal digits have values below eight. -/
theorem isOctalDigit_iff :
    isOctalDigit c = true ↔ ∃ digit, digitValue? c = some digit ∧ digit < 8 := by
  have codes : isOctalDigit c = true ↔ 48 ≤ c.toNat ∧ c.toNat ≤ 55 := by
    simp only [isOctalDigit, Bool.and_eq_true, decide_eq_true_eq, Char.le_def,
      UInt32.le_iff_toNat_le]
    rfl
  rw [codes, digitValue?_eq]
  split_ifs <;> simp <;> omega

/-- Digits of a radix that has only these digits spell a number, unless there are none. -/
theorem exists_numeral_iff {isDigit : Char → Bool}
    (isDigit_iff : ∀ c, isDigit c = true ↔ ∃ digit, digitValue? c = some digit ∧ digit < radix) :
    (∃ value, Numeral radix digits value) ↔ digits ≠ [] ∧ ∀ c ∈ digits, isDigit c = true := by
  constructor
  · rintro ⟨value, numeral⟩
    exact ⟨numeral.ne_nil, fun c mem => (isDigit_iff c).mpr (numeral.digit mem)⟩
  · rintro ⟨nonempty, all⟩
    induction digits using List.reverseRecOn with
    | nil => exact absurd rfl nonempty
    | append_singleton front c ih =>
      obtain ⟨inFront, last⟩ := List.forall_mem_append.mp all
      obtain ⟨digit, known, small⟩ := (isDigit_iff c).mp (last c (List.mem_singleton_self c))
      cases front with
      | nil => exact ⟨_, .single known small⟩
      | cons d rest =>
        obtain ⟨sofar, numeral⟩ := ih (List.cons_ne_nil _ _) inFront
        exact ⟨_, numeral.push known small⟩

end Downlevel.Text
