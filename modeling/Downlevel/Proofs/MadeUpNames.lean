import Downlevel.NameSupply
import Downlevel.Temp
import Downlevel.Text.Classes
import Mathlib.Data.List.Nodup
import Mathlib.Data.Set.Operations
import Mathlib.Tactic.Common

/-! Names that are made up. Fresh names are free, and they keep the start of the name they are made
from. Short names are numbered without gaps: every index has a name of its own, every text of the right
form has an index, and shorter names come first. A frame that hands out a name gives one that no open
frame and no scope holds. -/

namespace Downlevel

/-- Two numbers are written alike only if they are the same. -/
theorem toString_nat_injective {first second : Nat} (same : toString first = toString second) :
    first = second := by
  -- Reading the digits back gives the number they were written from.
  have digits : Nat.toDigits 10 first = Nat.toDigits 10 second := by
    have texts := congrArg String.toList same
    simpa [Nat.toString_eq_ofList_toDigits] using texts
  have read := congrArg (Nat.ofDigitChars 10 · 0) digits
  simpa using read

/-- Numbered forms of one name differ from one another. -/
theorem numbered_injective {base : String} {first second : Nat}
    (same : base ++ toString first = base ++ toString second) : first = second := by
  have texts := congrArg String.toList same
  simp only [String.toList_append, List.append_cancel_left_eq] at texts
  exact toString_nat_injective (String.toList_injective texts)

/-- A numbered form is longer than the name itself. -/
theorem numbered_ne_base (base : String) (number : Nat) : base ++ toString number ≠ base := by
  intro same
  have texts := congrArg String.toList same
  simp at texts

/-- The forms of a name that are tried when the name itself is taken. -/
def numberedForms (base : String) (number tries : Nat) : List String :=
  (List.range tries).map fun offset => base ++ toString (number + offset)

/-- Looking for a free form either finds one or has seen all of them taken. -/
theorem numberedName_free_or_all_taken (taken : List String) (base : String) (tries number : Nat) :
    numberedName taken base tries number ∉ taken ∨ numberedForms base number tries ⊆ taken := by
  -- Each try either stops at a free form or adds one more form that is taken.
  induction tries generalizing number with
  | zero => exact .inr (by simp [numberedForms])
  | succ tries ih =>
    rw [numberedName]
    by_cases isTaken : taken.contains (base ++ toString number)
    · simp only [isTaken, if_true]
      rcases ih (number + 1) with free | allTaken
      · exact .inl free
      · refine .inr fun name member => ?_
        simp only [numberedForms, List.mem_map, List.mem_range] at member
        obtain ⟨offset, below, rfl⟩ := member
        cases offset with
        | zero => simpa using isTaken
        | succ offset =>
          refine allTaken (List.mem_map.2 ⟨offset, by simp; omega, ?_⟩)
          rw [Nat.add_right_comm, Nat.add_assoc]
    · simp only [isTaken]
      exact .inl (by simpa using isTaken)

/-- A fresh name is not taken. -/
theorem freshName_not_mem (taken : List String) (base : String) :
    freshName taken base ∉ taken := by
  rw [freshName]
  -- Either the name itself is free, or the search goes through its numbered forms.
  by_cases isTaken : taken.contains base
  · simp only [isTaken, if_true]
    rcases numberedName_free_or_all_taken taken base taken.length 2 with free | allTaken
    · exact free
    · -- The name and its forms are one more than the list can hold.
      exfalso
      have distinct : (base :: numberedForms base 2 taken.length).Nodup := by
        refine List.nodup_cons.2 ⟨?_, ?_⟩
        · simp only [numberedForms, List.mem_map, not_exists, not_and]
          intro offset _ same
          exact numbered_ne_base _ _ same
        · refine List.pairwise_map.2 (List.Pairwise.imp ?_ List.nodup_range)
          intro first second differ same
          have := numbered_injective same
          omega
      have inside : base :: numberedForms base 2 taken.length ⊆ taken := by
        intro name member
        rcases List.mem_cons.1 member with rfl | member
        · simpa using isTaken
        · exact allTaken member
      have bound := distinct.length_le_of_subset inside
      simp only [numberedForms, List.length_cons, List.length_map, List.length_range] at bound
      omega
  · simp only [isTaken]
    simpa using isTaken

/-- The numbered name that is found is a form of the base. -/
theorem numberedName_eq (taken : List String) (base : String) (tries number : Nat) :
    ∃ found : Nat, numberedName taken base tries number = base ++ toString found := by
  induction tries generalizing number with
  | zero => exact ⟨number, rfl⟩
  | succ tries ih =>
    rw [numberedName]
    split
    · exact ih (number + 1)
    · exact ⟨number, rfl⟩

/-- A fresh name is the name it is made from, or that name with a number behind it. -/
theorem freshName_cases (taken : List String) (base : String) :
    freshName taken base = base ∨ ∃ number : Nat, freshName taken base = base ++ toString number := by
  rw [freshName]
  split
  · exact .inr (numberedName_eq taken base taken.length 2)
  · exact .inl rfl

/-- A fresh name starts with the name it is made from. -/
theorem freshName_prefix (taken : List String) (base : String) :
    ∃ rest, (freshName taken base).toList = base.toList ++ rest := by
  rcases freshName_cases taken base with same | ⟨number, same⟩
  · exact ⟨[], by simp [same]⟩
  · exact ⟨(toString number).toList, by rw [same, String.toList_append]⟩

namespace ShortName

/-- Every character behind the first one of a short name is picked from the same list. -/
theorem mem_tails_of_mem_tail {fuel index : Nat} {c : Char} (mem : c ∈ tail fuel index) :
    c ∈ tails := by
  induction fuel generalizing index with
  | zero => cases index <;> simp [tail] at mem
  | succ fuel ih =>
    cases index with
    | zero => simp [tail] at mem
    | succ index =>
      rw [tail, List.mem_append] at mem
      exact mem.elim (fun first => List.mem_of_getElem? (Option.mem_toList.mp first)) ih

/-- So is the first one, from the start of that list. -/
theorem mem_tails {index : Nat} {c : Char} (mem : c ∈ (shortName index).toList) :
    c ∈ tails := by
  rw [shortName, String.toList_ofList, List.mem_append] at mem
  rcases mem with first | rest
  · exact List.mem_append_left _ (List.mem_of_getElem? (Option.mem_toList.mp first))
  · exact mem_tails_of_mem_tail rest

/-- A name can start in 54 ways. -/
theorem length_heads : heads.length = 54 := by decide +kernel

/-- A name can go on in 64 ways. -/
theorem length_tails : tails.length = 64 := by
  rw [tails, List.length_append, length_heads]
  rfl

/-- There is some way to start a name. -/
theorem length_heads_pos : 0 < heads.length :=
  length_heads ▸ Nat.succ_pos 53

/-- There is some way to go on with a name. -/
theorem length_tails_pos : 0 < tails.length :=
  length_tails ▸ Nat.succ_pos 63

/-- No character is listed twice among those that go on. -/
theorem nodup_tails : tails.Nodup := by decide +kernel

/-- No character is listed twice among those that start a name. -/
theorem nodup_heads : heads.Nodup :=
  (List.nodup_append.mp nodup_tails).1

/-- Nothing is picked when nothing is left. -/
@[simp] theorem tail_zero (fuel : Nat) : tail fuel 0 = [] := by
  cases fuel <;> rfl

/-- More fuel than the index changes nothing. -/
theorem tail_eq_of_le {fuel more index : Nat} (enough : index ≤ fuel) (alsoEnough : index ≤ more) :
    tail fuel index = tail more index := by
  -- Every character that is picked leaves a smaller index.
  induction fuel generalizing more index with
  | zero =>
    obtain rfl := Nat.le_zero.mp enough
    rw [tail_zero, tail_zero]
  | succ fuel ih =>
    match index, more with
    | 0, _ => rw [tail_zero, tail_zero]
    | index + 1, more + 1 =>
      have smaller := Nat.div_le_self index tails.length
      have same : tail fuel (index / tails.length) = tail more (index / tails.length) :=
        ih (by omega) (by omega)
      rw [tail, tail, same]

section Picking

variable {alphabet : List Char} {c : Char}

/-- The number that picks the character from the list and leaves so much. -/
def unpick (alphabet : List Char) (c : Char) (left : Nat) : Nat :=
  alphabet.length * left + alphabet.idxOf c

/-- Every number picks a character. -/
theorem exists_pick (alphabet : List Char) (nonempty : 0 < alphabet.length) (index : Nat) :
    ∃ c, alphabet[index % alphabet.length]? = some c :=
  ⟨_, List.getElem?_eq_getElem (Nat.mod_lt index nonempty)⟩

/-- The character is found where its number says. -/
theorem pick_unpick (mem : c ∈ alphabet) (left : Nat) :
    alphabet[unpick alphabet c left % alphabet.length]? = some c := by
  have inside : alphabet.idxOf c < alphabet.length := List.idxOf_lt_length_of_mem mem
  rw [unpick, Nat.mul_add_mod, Nat.mod_eq_of_lt inside, List.getElem?_idxOf mem]

/-- What is left of a number is found again. -/
theorem unpick_div (mem : c ∈ alphabet) (left : Nat) :
    unpick alphabet c left / alphabet.length = left := by
  have inside : alphabet.idxOf c < alphabet.length := List.idxOf_lt_length_of_mem mem
  rw [unpick, Nat.mul_add_div (Nat.zero_lt_of_lt inside), Nat.div_eq_of_lt inside, Nat.add_zero]

/-- What is picked and what is left determine the number, if the list does not repeat itself. -/
theorem unpick_of_pick (distinct : alphabet.Nodup) {index : Nat}
    (picked : alphabet[index % alphabet.length]? = some c) :
    unpick alphabet c (index / alphabet.length) = index := by
  obtain ⟨inside, rfl⟩ := List.getElem?_eq_some_iff.mp picked
  rw [unpick, distinct.idxOf_getElem, Nat.div_add_mod]

end Picking

/-- The characters behind the first one, for what is left of an index. -/
def suffix (left : Nat) : List Char :=
  tail left left

/-- Nothing is left to be spelled. -/
@[simp] theorem suffix_zero : suffix 0 = [] := rfl

/-- A name goes on with characters that go on. -/
theorem mem_tails_of_mem_suffix {left : Nat} {c : Char} (mem : c ∈ suffix left) : c ∈ tails :=
  mem_tails_of_mem_tail mem

/-- One character is picked, and the others for what is left then. -/
theorem suffix_succ {left : Nat} {c : Char} (picked : tails[left % tails.length]? = some c) :
    suffix (left + 1) = c :: suffix (left / tails.length) := by
  have enough := tail_eq_of_le (Nat.div_le_self left tails.length) (Nat.le_refl _)
  rw [suffix, tail, picked, enough]
  rfl

/-- What is left of an index that gives a text behind the first character. -/
def suffixIndex : List Char → Nat
  | [] => 0
  | c :: rest => unpick tails c (suffixIndex rest) + 1

/-- Every text of these characters is picked for its index. -/
theorem suffix_suffixIndex {text : List Char} (spelled : ∀ c ∈ text, c ∈ tails) :
    suffix (suffixIndex text) = text := by
  induction text with
  | nil => rfl
  | cons c rest ih =>
    obtain ⟨own, later⟩ := List.forall_mem_cons.mp spelled
    rw [suffixIndex, suffix_succ (pick_unpick own _), unpick_div own, ih later]

/-- The index of a text is what it was picked for. -/
theorem suffixIndex_suffix (left : Nat) : suffixIndex (suffix left) = left := by
  -- Behind the character that is picked first stands the text for a smaller index.
  induction left using Nat.strongRecOn with
  | ind left ih =>
    cases left with
    | zero => rfl
    | succ left =>
      have smaller : left / tails.length < left + 1 := Nat.lt_succ_of_le (Nat.div_le_self ..)
      obtain ⟨c, picked⟩ := exists_pick tails length_tails_pos left
      rw [suffix_succ picked, suffixIndex, ih _ smaller, unpick_of_pick nodup_tails picked]

/-- How many texts of these characters there are up to a length, without the empty one. -/
def suffixes : (length : Nat) → Nat
  | 0 => 0
  | length + 1 => tails.length * suffixes length + tails.length

/-- Shorter texts come first. -/
theorem length_suffix_le_iff {left length : Nat} :
    (suffix left).length ≤ length ↔ left ≤ suffixes length := by
  -- One character less leaves an index that is smaller by the length of the list.
  induction length generalizing left with
  | zero =>
    cases left with
    | zero => simp
    | succ left =>
      obtain ⟨c, picked⟩ := exists_pick tails length_tails_pos left
      simp [suffix_succ picked, suffixes]
  | succ length ih =>
    cases left with
    | zero => simp
    | succ left =>
      obtain ⟨c, picked⟩ := exists_pick tails length_tails_pos left
      rw [suffix_succ picked, List.length_cons, Nat.succ_le_succ_iff, ih, suffixes, length_tails]
      omega

/-- The word before, unless the subtraction wraps around. -/
def before? (word : USize) : Option USize :=
  if 1 ≤ word then some (word - 1) else none

/-- The characters behind the first one, picked with machine words. There is no result if a
subtraction wraps around, if the list has no such character, or if the rounds do not suffice. -/
def pickSuffix? : (rounds : Nat) → (left : USize) → Option (List Char)
  | rounds, left =>
    if 0 < left then
      match rounds with
      | 0 => none
      | rounds + 1 => do
        let before ← before? left
        let c ← tails[(before % .ofNat tails.length).toNat]?
        let rest ← pickSuffix? rounds (before / .ofNat tails.length)
        return c :: rest
    else
      some []

/-- A whole name, picked with machine words for an index of 32 bits. -/
def pick? (rounds : Nat) (index : UInt32) : Option String := do
  let head ← heads[(index.toUSize % .ofNat heads.length).toNat]?
  let rest ← pickSuffix? rounds (index.toUSize / .ofNat heads.length)
  return String.ofList (head :: rest)

/-- The lengths of both lists are machine words. -/
theorem toNat_ofNat_length_heads : (USize.ofNat heads.length).toNat = heads.length := by
  rw [length_heads]
  exact USize.toNat_ofNat_of_lt_32 (by decide)

/-- The number of ways to go on fits into a word. -/
theorem toNat_ofNat_length_tails : (USize.ofNat tails.length).toNat = tails.length := by
  rw [length_tails]
  exact USize.toNat_ofNat_of_lt_32 (by decide)

/-- A word that is left has one before it. -/
theorem before?_of_toNat {word : USize} {left : Nat} (value : word.toNat = left + 1) :
    ∃ before : USize, before? word = some before ∧ before.toNat = left := by
  have one : (1 : USize).toNat = 1 := USize.toNat_one
  have inside : 1 ≤ word := by
    rw [USize.le_iff_toNat_le, one, value]
    exact Nat.le_add_left ..
  refine ⟨word - 1, if_pos inside, ?_⟩
  rw [USize.toNat_sub_of_le _ _ inside, one, value, Nat.add_sub_cancel]

/-- With a round for each character, machine words pick the same ones as unbounded numbers. -/
theorem pickSuffix?_eq_some {rounds : Nat} {word : USize}
    (enough : (suffix word.toNat).length ≤ rounds) :
    pickSuffix? rounds word = some (suffix word.toNat) := by
  -- Every round goes from what is left of the index to what is left behind one more character.
  induction rounds generalizing word with
  | zero =>
    have none : word.toNat = 0 := Nat.le_zero.mp (length_suffix_le_iff.mp enough)
    have stops : ¬0 < word := by simp [USize.lt_iff_toNat_lt, none]
    rw [pickSuffix?, if_neg stops, none, suffix_zero]
  | succ rounds ih =>
    cases value : word.toNat with
    | zero =>
      have stops : ¬0 < word := by simp [USize.lt_iff_toNat_lt, value]
      rw [pickSuffix?, if_neg stops, suffix_zero]
    | succ left =>
      have goesOn : 0 < word := by simp [USize.lt_iff_toNat_lt, value]
      obtain ⟨before, found, rfl⟩ := before?_of_toNat value
      obtain ⟨c, picked⟩ := exists_pick tails length_tails_pos before.toNat
      have cut := suffix_succ picked
      have later : pickSuffix? rounds (before / .ofNat tails.length)
          = some (suffix (before.toNat / tails.length)) := by
        rw [value, cut, List.length_cons, Nat.succ_le_succ_iff] at enough
        rw [ih, USize.toNat_div, toNat_ofNat_length_tails]
        rwa [USize.toNat_div, toNat_ofNat_length_tails]
      have place : (before % .ofNat tails.length).toNat = before.toNat % tails.length := by
        rw [USize.toNat_mod, toNat_ofNat_length_tails]
      rw [pickSuffix?, if_pos goesOn, found, cut]
      simp only [Option.bind_eq_bind, Option.bind_some, place, picked, later, Option.pure_def]

end ShortName

open ShortName

/-- A short name is a first character and the others for what is left of its index. -/
theorem toList_shortName (index : Nat) :
    ∃ head, heads[index % heads.length]? = some head
      ∧ (shortName index).toList = head :: suffix (index / heads.length) := by
  obtain ⟨head, picked⟩ := exists_pick heads length_heads_pos index
  refine ⟨head, picked, ?_⟩
  rw [shortName, String.toList_ofList, picked]
  rfl

/-- The index that gives a name. -/
def nameIndex : List Char → Nat
  | [] => 0
  | head :: rest => unpick heads head (suffixIndex rest)

/-- The index of a name is what it was made for. -/
theorem nameIndex_shortName (index : Nat) : nameIndex (shortName index).toList = index := by
  obtain ⟨head, picked, spelled⟩ := toList_shortName index
  rw [spelled, nameIndex, suffixIndex_suffix, unpick_of_pick nodup_heads picked]

/-- Every name of the right form is made for its index. -/
theorem toList_shortName_nameIndex {head : Char} {rest : List Char} (starts : head ∈ heads)
    (goesOn : ∀ c ∈ rest, c ∈ tails) :
    (shortName (nameIndex (head :: rest))).toList = head :: rest := by
  obtain ⟨first, picked, spelled⟩ := toList_shortName (nameIndex (head :: rest))
  have same : some head = some first := by rw [← picked, nameIndex, pick_unpick starts]
  rw [spelled, nameIndex, unpick_div starts, suffix_suffixIndex goesOn, Option.some.inj same]

/-- The length of a name. -/
theorem length_shortName (index : Nat) :
    (shortName index).length = (suffix (index / heads.length)).length + 1 := by
  obtain ⟨head, -, spelled⟩ := toList_shortName index
  rw [← String.length_toList, spelled, List.length_cons]

/-- Names of up to so many characters behind the first one are those of the smallest indices. -/
theorem length_shortName_le_iff {index length : Nat} :
    (shortName index).length ≤ length + 1 ↔ index < heads.length * (suffixes length + 1) := by
  rw [length_shortName, Nat.succ_le_succ_iff, length_suffix_le_iff, length_heads]
  omega

/-- A name that is shorter comes first. -/
theorem lt_of_length_shortName_lt {first second : Nat}
    (shorter : (shortName first).length < (shortName second).length) : first < second := by
  -- The indices of the names that are as short as the first one have a bound, and the second one is
  -- beyond it.
  have size := length_shortName first
  rw [size, ← Nat.not_le, length_shortName_le_iff] at shorter
  have small := length_shortName_le_iff.mp (Nat.le_of_eq size)
  omega

/-- Machine words pick the name of every index of 32 bits, in five rounds at most. -/
theorem pick?_eq_some (index : UInt32) : pick? 5 index = some (shortName index.toNat) := by
  obtain ⟨head, first, spelled⟩ := toList_shortName index.toNat
  have named : shortName index.toNat
      = String.ofList (head :: suffix (index.toNat / heads.length)) := by
    rw [← spelled, String.ofList_toList]
  have short : (suffix (index.toNat / heads.length)).length ≤ 5 := by
    have bound := index.toNat_lt
    rw [length_suffix_le_iff, length_heads]
    simp only [suffixes, length_tails]
    omega
  have place : (index.toUSize % .ofNat heads.length).toNat = index.toNat % heads.length := by
    rw [USize.toNat_mod, UInt32.toNat_toUSize, toNat_ofNat_length_heads]
  have left : (index.toUSize / .ofNat heads.length).toNat = index.toNat / heads.length := by
    rw [USize.toNat_div, UInt32.toNat_toUSize, toNat_ofNat_length_heads]
  have later : pickSuffix? 5 (index.toUSize / .ofNat heads.length)
      = some (suffix (index.toNat / heads.length)) := by
    rw [pickSuffix?_eq_some (left.symm ▸ short), left]
  simp only [pick?, Option.bind_eq_bind, Option.bind_some, place, first, later, named,
    Option.pure_def]

/-- No first character is a digit. -/
theorem isDecimalDigit_of_mem_heads {c : Char} (mem : c ∈ heads) :
    Text.isDecimalDigit c = false := by
  have none : (heads.all fun c => !Text.isDecimalDigit c) = true := by decide +kernel
  simpa using List.all_eq_true.mp none c mem

/-- Short names are a numbering: no two indices have the same name, the names are the texts of a first
character and any others that may follow it, shorter names come first, and none starts with a digit.
Machine words pick the name of every index of 32 bits, never below zero and never outside a list. -/
theorem shortName_numbering :
    Function.Injective shortName
      ∧ Set.range shortName = {name | ∃ head rest, name.toList = head :: rest
          ∧ head ∈ heads ∧ ∀ c ∈ rest, c ∈ tails}
      ∧ (∀ first second, (shortName first).length < (shortName second).length → first < second)
      ∧ (∀ index, ∃ head rest, (shortName index).toList = head :: rest
          ∧ Text.isDecimalDigit head = false)
      ∧ ∀ index : UInt32, pick? 5 index = some (shortName index.toNat) := by
  have start (index : Nat) : ∃ head rest, (shortName index).toList = head :: rest
      ∧ head ∈ heads ∧ ∀ c ∈ rest, c ∈ tails := by
    obtain ⟨head, first, spelled⟩ := toList_shortName index
    exact ⟨head, _, spelled, List.mem_of_getElem? first, fun _ => mem_tails_of_mem_suffix⟩
  refine ⟨?_, ?_, fun _ _ => lt_of_length_shortName_lt, fun index => ?_, pick?_eq_some⟩
  · -- The index can be read off the name.
    intro first second same
    rw [← nameIndex_shortName first, same, nameIndex_shortName]
  · ext name
    constructor
    · rintro ⟨index, rfl⟩
      exact start index
    · rintro ⟨head, rest, spelled, starts, goesOn⟩
      refine ⟨nameIndex (head :: rest), String.toList_injective ?_⟩
      rw [toList_shortName_nameIndex starts goesOn, spelled]
  · obtain ⟨head, rest, spelled, starts, -⟩ := start index
    exact ⟨head, rest, spelled, isDecimalDigit_of_mem_heads starts⟩

/-- The names around the ends of the first two lengths. -/
example : [0, 25, 26, 51, 52, 53, 54, 107, 108, 3509, 3510].map shortName
    = ["a", "z", "A", "Z", "_", "$", "aa", "$a", "ab", "$9", "aaa"] := by decide

namespace NameSet

/-- Inserting into an ordered list adds the name and loses nothing. -/
theorem mem_insertInto {name other : String} {names : List String} :
    other ∈ insertInto name names ↔ other = name ∨ other ∈ names := by
  induction names with
  | nil => simp [insertInto]
  | cons first rest ih =>
    rw [insertInto]
    -- The name goes in front of the first one, is the first one, or goes further back.
    split
    · simp
    · split
      · -- The name is there already.
        rename_i same
        subst same
        simp
      · simp only [List.mem_cons, ih]
        exact or_left_comm

/-- A set with one more name holds that name and those it held before. -/
@[simp]
theorem mem_insert {set : NameSet} {name other : String} :
    other ∈ (set.insert name).names ↔ other = name ∨ other ∈ set.names :=
  mem_insertInto

end NameSet

namespace Temps

/-- A name that some open frame has handed out. -/
def Holds (temps : Temps) (name : String) : Prop :=
  ∃ frame ∈ temps.frames, name ∈ frame.own.names

/-- The innermost frame is the last one. -/
@[simp]
theorem length_frames (temps : Temps) : temps.frames.length = temps.current + 1 := by
  simp [frames, current]

/-- Changing the frame with an index changes it in the list of frames. -/
theorem frames_modifyFrame (temps : Temps) (index : Nat) (change : Frame → Frame) :
    (temps.modifyFrame index change).frames = temps.frames.modify index change := by
  cases index with
  | zero => rfl
  | succ below => simp [modifyFrame, frames]

/-- Changing a frame opens none and closes none. -/
@[simp]
theorem current_modifyFrame (temps : Temps) (index : Nat) (change : Frame → Frame) :
    (temps.modifyFrame index change).current = temps.current := by
  cases index with
  | zero => rfl
  | succ below => simp [modifyFrame, current]

/-- The frames hold one more name when one of them gets it. -/
theorem holds_modifyFrame {temps : Temps} {index : Nat} (isOpen : index ≤ temps.current)
    {name : String} {change : Frame → Frame}
    (adds : ∀ frame, (change frame).own = frame.own.insert name) (other : String) :
    (temps.modifyFrame index change).Holds other ↔ other = name ∨ temps.Holds other := by
  have inside : index < temps.frames.length := by simp; omega
  rw [Holds, frames_modifyFrame, List.modify_eq_take_cons_drop inside]
  rw [Holds]
  -- The list of frames splits at the one that changes.
  have split : temps.frames
      = temps.frames.take index ++ temps.frames[index] :: temps.frames.drop (index + 1) := by
    rw [List.getElem_cons_drop, List.take_append_drop]
  constructor
  · rintro ⟨frame, member, held⟩
    rw [List.mem_append, List.mem_cons] at member
    rcases member with before | rfl | behind
    · exact .inr ⟨frame, List.mem_of_mem_take before, held⟩
    · rw [adds, NameSet.mem_insert] at held
      exact held.imp id fun old => ⟨_, List.getElem_mem inside, old⟩
    · exact .inr ⟨frame, List.mem_of_mem_drop behind, held⟩
  · rintro (rfl | ⟨frame, member, held⟩)
    · exact ⟨_, List.mem_append_right _ (List.mem_cons_self ..), by rw [adds]; simp⟩
    · rw [split, List.mem_append, List.mem_cons] at member
      rcases member with before | rfl | behind
      · exact ⟨frame, List.mem_append_left _ before, held⟩
      · exact ⟨_, List.mem_append_right _ (List.mem_cons_self ..), by rw [adds]; simp [held]⟩
      · exact ⟨frame, List.mem_append_right _ (List.mem_cons_of_mem _ behind), held⟩

/-- What an open frame is asked for it hands out: a name that no frame and no scope holds, and that
starts like the base. -/
theorem allocIn?_spec {temps : Temps} {index : Nat} (isOpen : index ≤ temps.current)
    (scopes : ScopeTree) (base : Option String) (init : Option Expr) (declare : Bool) :
    ∃ name after, temps.allocIn? index scopes base init declare = some (name, after) ∧
      name ∉ scopes.names.names ∧ ¬temps.Holds name ∧
      (∀ other, after.Holds other ↔ other = name ∨ temps.Holds other) ∧
      after.current = temps.current ∧
      ((∀ text, base = some text → text.toList.head? = some '_') →
        name.toList.head? = some '_') := by
  -- The frame is there, so a name is given; that it is new comes from how it is chosen.
  have inside : index < temps.frames.length := by simp; omega
  let frame := temps.frames[index]
  let start := base.getD ("_" ++ shortName frame.nextSeq)
  let name := freshName (temps.taken frame scopes) start
  have free : name ∉ temps.taken frame scopes := freshName_not_mem _ _
  simp only [taken, List.mem_append, List.mem_flatMap, not_or] at free
  have found : temps.frame? index = some frame := List.getElem?_eq_getElem inside
  refine ⟨name, _, by rw [allocIn?, found]; rfl, free.1.1, free.2, ?_, ?_, ?_⟩
  · exact holds_modifyFrame isOpen fun _ => rfl
  · exact current_modifyFrame ..
  · -- The start of the base is also the start of the name.
    intro starts
    obtain ⟨rest, spelled⟩ := freshName_prefix (temps.taken frame scopes) start
    have head : start.toList.head? = some '_' := by
      cases base with
      | none => simp [start]
      | some text => exact starts text rfl
    rw [show name.toList = _ from spelled]
    cases letters : start.toList with
    | nil => simp [letters] at head
    | cons c more => simpa [letters] using head

end Temps

end Downlevel
