import Downlevel.Text.Bytes
import Downlevel.Text.Classes

/-! Searching the bytes of a text for an ASCII character stops in front of that character and never
inside of another one, so that the text can be cut there. -/

namespace Downlevel.Text

variable {c : Char} {text front back : List Char}

/-- As many bytes as there are in the encoding. -/
@[simp]
theorem length_utf8 (text : List Char) : (utf8 text).length = byteSize text := by
  induction text with
  | nil => rfl
  | cons c rest ih =>
    rw [utf8, List.flatMap_cons, List.length_append, String.length_utf8EncodeChar, ← utf8, ih,
      byteSize]

/-- The first character is encoded in front of the others. -/
theorem utf8_cons (c : Char) (rest : List Char) :
    utf8 (c :: rest) = String.utf8EncodeChar c ++ utf8 rest :=
  rfl

/-- Two texts are encoded one behind the other. -/
theorem utf8_append (front back : List Char) : utf8 (front ++ back) = utf8 front ++ utf8 back :=
  List.flatMap_append

/-- An ASCII character is a single byte. -/
theorem encode_of_isAscii (ascii : isAscii c = true) : String.utf8EncodeChar c = [c.toUInt8] := by
  have small : c.val ≤ 127 := by
    simpa [isAscii, UInt32.lt_iff_toNat_lt, UInt32.le_iff_toNat_le, Nat.lt_succ_iff] using ascii
  exact String.utf8EncodeChar_eq_singleton (Char.utf8Size_eq_one_iff.mpr small)

/-- A character of ASCII takes one byte. -/
theorem utf8Size_of_isAscii (ascii : isAscii c = true) : c.utf8Size = 1 := by
  rw [← String.length_utf8EncodeChar, encode_of_isAscii ascii, List.length_singleton]

/-- In an ASCII text, characters are as many as bytes. -/
theorem byteSize_of_isAscii (ascii : ∀ c ∈ text, isAscii c = true) :
    byteSize text = text.length := by
  induction text with
  | nil => rfl
  | cons c rest ih =>
    obtain ⟨first, others⟩ := List.forall_mem_cons.mp ascii
    rw [byteSize, utf8Size_of_isAscii first, ih others, List.length_cons, Nat.add_comm]

/-- The byte of an ASCII character has its high bit clear. -/
theorem toUInt8_lt (ascii : isAscii c = true) : c.toUInt8 < 128 := by
  have small : c.val.toNat < 128 := by simpa [isAscii, UInt32.lt_iff_toNat_lt] using ascii
  rw [UInt8.lt_iff_toNat_lt, Char.toUInt8, UInt32.toNat_toUInt8]
  exact Nat.lt_of_le_of_lt (Nat.mod_le ..) small

/-- ASCII characters are told apart by their bytes. -/
theorem toUInt8_inj {d : Char} (ascii : isAscii c = true) (asciiToo : isAscii d = true)
    (same : c.toUInt8 = d.toUInt8) : c = d := by
  have small : c.val.toNat < 128 := by simpa [isAscii, UInt32.lt_iff_toNat_lt] using ascii
  have smallToo : d.val.toNat < 128 := by simpa [isAscii, UInt32.lt_iff_toNat_lt] using asciiToo
  have same := congrArg UInt8.toNat same
  rw [Char.toUInt8, Char.toUInt8, UInt32.toNat_toUInt8, UInt32.toNat_toUInt8,
    Nat.mod_eq_of_lt (by omega), Nat.mod_eq_of_lt (by omega)] at same
  exact Char.ext (UInt32.toNat_inj.mp same)

/-- All bytes of any other character have their high bit set. -/
theorem le_of_mem_encode (wide : isAscii c = false) {byte : UInt8}
    (inside : byte ∈ String.utf8EncodeChar c) : 128 ≤ byte := by
  have large : ¬c.val.toNat ≤ 127 := by
    simpa [isAscii, UInt32.le_iff_toNat_le, Nat.succ_le_iff] using wide
  -- One case for each number of bytes, of which the first carries a mark and the others carry six
  -- bits.
  rw [UInt8.le_iff_toNat_le]
  unfold String.utf8EncodeChar at inside
  simp only [if_neg large] at inside
  split at inside
  · rcases List.mem_cons.mp inside with rfl | inside
    · simp; omega
    · rcases List.mem_singleton.mp inside with rfl; simp; omega
  · split at inside
    · simp only [List.mem_cons, List.not_mem_nil, or_false] at inside
      rcases inside with rfl | rfl | rfl <;> simp <;> omega
    · simp only [List.mem_cons, List.not_mem_nil, or_false] at inside
      rcases inside with rfl | rfl | rfl | rfl <;> simp <;> omega

/-- A text starts with an ASCII character if its bytes start with that one's byte. -/
theorem head?_utf8 {d : Char} (ascii : isAscii d = true) (text : List Char) :
    (utf8 text).head? = some d.toUInt8 ↔ text.head? = some d := by
  cases text with
  | nil => exact iff_of_false nofun nofun
  | cons c rest =>
    rw [List.head?_cons, Option.some.injEq, utf8_cons]
    cases narrow : isAscii c with
    | true =>
      rw [encode_of_isAscii narrow, List.singleton_append, List.head?_cons, Option.some.injEq]
      exact ⟨toUInt8_inj narrow ascii, congrArg Char.toUInt8⟩
    | false =>
      -- The first byte of the other character is none of ASCII.
      obtain ⟨byte, more, bytes⟩ := List.exists_cons_of_ne_nil (String.utf8EncodeChar_ne_nil (c := c))
      have large : 128 ≤ byte := le_of_mem_encode narrow (bytes ▸ List.mem_cons_self)
      rw [bytes, List.cons_append, List.head?_cons, Option.some.injEq]
      refine iff_of_false (fun same => ?_) fun same => ?_
      · exact absurd (same ▸ toUInt8_lt ascii) (UInt8.not_lt.mpr large)
      · rw [same, ascii] at narrow
        cases narrow

/-! ### Cutting between characters -/

/-- Leaving out the bytes of the front leaves the back. -/
theorem dropBytes_append (front back : List Char) :
    dropBytes (byteSize front) (front ++ back) = .ok back := by
  simp [dropBytes, splitBytes, splitBytes?_append, Functor.map, Except.map]

/-- Taking the bytes of the front gives the front. -/
theorem takeBytes_append (front back : List Char) :
    takeBytes (byteSize front) (front ++ back) = .ok front := by
  simp [takeBytes, splitBytes, splitBytes?_append, Functor.map, Except.map]

/-- Leaving out the bytes of some characters leaves out those characters. -/
theorem dropBytes_take (count : Nat) (text : List Char) :
    dropBytes (byteSize (text.take count)) text = .ok (text.drop count) := by
  have cut := dropBytes_append (text.take count) (text.drop count)
  rwa [List.take_append_drop] at cut

/-- Taking the bytes of some characters takes those characters. -/
theorem takeBytes_take (count : Nat) (text : List Char) :
    takeBytes (byteSize (text.take count)) text = .ok (text.take count) := by
  have cut := takeBytes_append (text.take count) (text.drop count)
  rwa [List.take_append_drop] at cut

/-! ### Searching for a byte -/

/-- A class of ASCII characters, and the class of the bytes that spell them. -/
structure SpelledBy (inBytes : UInt8 → Bool) (inClass : Char → Bool) : Prop where
  ascii : ∀ c, inClass c = true → isAscii c = true
  wide : ∀ byte, 128 ≤ byte → inBytes byte = false
  same : ∀ c, isAscii c = true → inBytes c.toUInt8 = inClass c

namespace SpelledBy

variable {inBytes : UInt8 → Bool} {inClass : Char → Bool}

/-- A character outside of the class has no byte of it. -/
theorem not_of_mem_encode (spelled : SpelledBy inBytes inClass) (outside : inClass c = false)
    {byte : UInt8} (inside : byte ∈ String.utf8EncodeChar c) : inBytes byte = false := by
  cases ascii : isAscii c with
  | false => exact spelled.wide byte (le_of_mem_encode ascii inside)
  | true =>
    rw [encode_of_isAscii ascii, List.mem_singleton] at inside
    rw [inside, spelled.same c ascii, outside]

/-- The bytes of the class in front are the characters of the class in front. -/
theorem takeWhile_utf8 (spelled : SpelledBy inBytes inClass) (text : List Char) :
    (utf8 text).takeWhile inBytes = utf8 (text.takeWhile inClass) := by
  induction text with
  | nil => rfl
  | cons c rest ih =>
    cases inside : inClass c with
    | true =>
      have ascii := spelled.ascii c inside
      have first : inBytes c.toUInt8 = true := (spelled.same c ascii).trans inside
      rw [List.takeWhile_cons_of_pos inside, utf8_cons, utf8_cons, encode_of_isAscii ascii,
        List.singleton_append, List.singleton_append, List.takeWhile_cons_of_pos first, ih]
    | false =>
      -- The first byte of the character ends the run.
      obtain ⟨byte, more, bytes⟩ := List.exists_cons_of_ne_nil (l := String.utf8EncodeChar c)
        (String.utf8EncodeChar_ne_nil)
      have first := spelled.not_of_mem_encode inside (bytes ▸ List.mem_cons_self)
      rw [List.takeWhile_cons_of_neg (by simp [inside]), utf8_cons, bytes, List.cons_append,
        List.takeWhile_cons_of_neg (by simp [first])]
      rfl

/-- Characters of the class are as many as their bytes. -/
theorem byteSize_takeWhile (spelled : SpelledBy inBytes inClass) (text : List Char) :
    byteSize (text.takeWhile inClass) = (text.takeWhile inClass).length :=
  byteSize_of_isAscii fun c inside => spelled.ascii c (List.all_eq_true.mp List.all_takeWhile c inside)

/-- So many bytes of the class are in front as there are characters. -/
theorem length_takeWhile (spelled : SpelledBy inBytes inClass) (text : List Char) :
    ((utf8 text).takeWhile inBytes).length = (text.takeWhile inClass).length := by
  rw [spelled.takeWhile_utf8, length_utf8, spelled.byteSize_takeWhile]

end SpelledBy

/-- Behind the characters of the class in front come the bytes of the others. -/
theorem SpelledBy.drop_utf8 {inBytes : UInt8 → Bool} {inClass : Char → Bool}
    (spelled : SpelledBy inBytes inClass) (text : List Char) :
    (utf8 text).drop (text.takeWhile inClass).length
      = utf8 (text.drop (text.takeWhile inClass).length) := by
  obtain ⟨back, split⟩ := List.takeWhile_prefix (l := text) inClass
  have size : (utf8 (text.takeWhile inClass)).length = (text.takeWhile inClass).length := by
    rw [length_utf8, spelled.byteSize_takeWhile]
  generalize text.takeWhile inClass = front at split size
  rw [← split, utf8_append, List.drop_left' size, List.drop_left]

/-- So many bytes of the class come first exactly if so many of its characters do. -/
theorem SpelledBy.take_utf8 {inBytes : UInt8 → Bool} {inClass : Char → Bool}
    (spelled : SpelledBy inBytes inClass) (count : Nat) (text : List Char) :
    (((utf8 text).take count).length = count ∧ ((utf8 text).take count).all inBytes = true)
      ↔ (text.take count).length = count ∧ (text.take count).all inClass = true := by
  -- Along the text, as long as its characters are in the class.
  induction count generalizing text with
  | zero => exact Iff.rfl
  | succ count ih =>
    cases text with
    | nil => exact iff_of_false nofun nofun
    | cons c rest =>
      cases inside : inClass c with
      | true =>
        have ascii := spelled.ascii c inside
        have first : inBytes c.toUInt8 = true := (spelled.same c ascii).trans inside
        rw [utf8_cons, encode_of_isAscii ascii, List.singleton_append]
        simpa [first, inside] using ih rest
      | false =>
        obtain ⟨byte, more, bytes⟩ :=
          List.exists_cons_of_ne_nil (String.utf8EncodeChar_ne_nil (c := c))
        have first := spelled.not_of_mem_encode inside (bytes ▸ List.mem_cons_self)
        rw [utf8_cons, bytes, List.cons_append]
        simp [first, inside]

/-- ASCII characters are ordered as their bytes are. -/
theorem toUInt8_le_iff {d : Char} (ascii : isAscii c = true) (asciiToo : isAscii d = true) :
    c.toUInt8 ≤ d.toUInt8 ↔ c ≤ d := by
  have small : c.val.toNat < 128 := by simpa [isAscii, UInt32.lt_iff_toNat_lt] using ascii
  have smallToo : d.val.toNat < 128 := by simpa [isAscii, UInt32.lt_iff_toNat_lt] using asciiToo
  rw [UInt8.le_iff_toNat_le, Char.toUInt8, Char.toUInt8, UInt32.toNat_toUInt8,
    UInt32.toNat_toUInt8, Nat.mod_eq_of_lt (by omega), Nat.mod_eq_of_lt (by omega), Char.le_def,
    UInt32.le_iff_toNat_le]

/-- A range of characters is spelled by the range of their bytes. -/
theorem spelledBy_range (first last : Char) (firstAscii : isAscii first = true)
    (lastAscii : isAscii last = true) :
    SpelledBy (fun byte => first.toUInt8 ≤ byte && byte ≤ last.toUInt8)
      fun c => first ≤ c && c ≤ last where
  ascii c inside := by
    have upper := (Bool.and_eq_true .. ▸ inside).2
    have below : c.val ≤ last.val := by simpa [Char.le_def] using upper
    have small : last.val < 128 := by simpa [isAscii] using lastAscii
    simpa [isAscii] using UInt32.lt_of_le_of_lt below small
  wide byte large := by
    have small := toUInt8_lt lastAscii
    have above : ¬byte ≤ last.toUInt8 := UInt8.not_le.mpr (UInt8.lt_of_lt_of_le small large)
    simp [above]
  same c ascii := by
    simp only [toUInt8_le_iff firstAscii ascii, toUInt8_le_iff ascii lastAscii]

/-- Classes are joined as the classes of their bytes are. -/
theorem SpelledBy.or {inBytes inOther : UInt8 → Bool} {inClass inOtherClass : Char → Bool}
    (one : SpelledBy inBytes inClass) (other : SpelledBy inOther inOtherClass) :
    SpelledBy (fun byte => inBytes byte || inOther byte) fun c => inClass c || inOtherClass c where
  ascii c inside := (Bool.or_eq_true_iff.mp inside).elim (one.ascii c) (other.ascii c)
  wide byte large := by rw [one.wide byte large, other.wide byte large]; rfl
  same c ascii := by rw [one.same c ascii, other.same c ascii]

/-- The given characters are a class, spelled by their own bytes. -/
theorem spelledBy_stops (stops : List Char) (ascii : ∀ c ∈ stops, isAscii c = true) :
    SpelledBy (stops.map Char.toUInt8).contains stops.contains where
  ascii c inside := ascii c (List.contains_iff_mem.mp inside)
  wide byte large := by
    refine Bool.eq_false_iff.mpr fun inside => ?_
    obtain ⟨c, member, rfl⟩ := List.mem_map.mp (List.contains_iff_mem.mp inside)
    exact absurd (toUInt8_lt (ascii c member)) (UInt8.not_lt.mpr large)
  same c isAscii := by
    rw [Bool.eq_iff_iff, List.contains_iff_mem, List.contains_iff_mem, List.mem_map]
    refine ⟨fun ⟨d, member, same⟩ => ?_, fun member => ⟨c, member, rfl⟩⟩
    exact toUInt8_inj (ascii d member) isAscii same ▸ member

/-- The search stops at a character that is searched for. -/
theorem findByte?_stop {stops : List Char} (ascii : ∀ c ∈ stops, isAscii c = true)
    (inside : c ∈ stops) (rest : List Char) : findByte? stops (c :: rest) = some 0 := by
  have found : (stops.map Char.toUInt8).contains c.toUInt8 = true :=
    List.contains_iff_mem.mpr (List.mem_map_of_mem inside)
  rw [findByte?, utf8_cons, encode_of_isAscii (ascii c inside), List.singleton_append,
    List.findIdx?_cons, if_pos found]

/-- It goes over every other one as a whole. -/
theorem findByte?_skip {stops : List Char} (ascii : ∀ c ∈ stops, isAscii c = true)
    (outside : c ∉ stops) (rest : List Char) :
    findByte? stops (c :: rest) = (findByte? stops rest).map (· + c.utf8Size) := by
  have none : (String.utf8EncodeChar c).findIdx? (stops.map Char.toUInt8).contains = .none :=
    List.findIdx?_eq_none_iff.mpr fun _ inside =>
      (spelledBy_stops stops ascii).not_of_mem_encode (by simpa using outside) inside
  rw [findByte?, utf8_cons, List.findIdx?_append, none, Option.none_or,
    String.length_utf8EncodeChar]
  rfl

/-- A search for a byte finds the first of the characters searched for, or there is none of them. -/
theorem findByte?_cases (stops : List Char) (ascii : ∀ c ∈ stops, isAscii c = true)
    (text : List Char) :
    (findByte? stops text = none ∧ ∀ c ∈ text, c ∉ stops)
      ∨ ∃ plain stop rest, text = plain ++ stop :: rest ∧ (∀ c ∈ plain, c ∉ stops)
        ∧ stop ∈ stops ∧ findByte? stops text = some (byteSize plain) := by
  -- Along the text, until a character stops the search.
  induction text with
  | nil => exact .inl ⟨rfl, nofun⟩
  | cons c rest ih =>
    by_cases inside : c ∈ stops
    · exact .inr ⟨[], c, rest, rfl, nofun, inside, findByte?_stop ascii inside rest⟩
    · have more {text : List Char} (others : ∀ d ∈ text, d ∉ stops) : ∀ d ∈ c :: text, d ∉ stops :=
        List.forall_mem_cons.mpr ⟨inside, others⟩
      rcases ih with ⟨found, others⟩ | ⟨plain, stop, behind, rfl, others, isStop, found⟩
      · refine .inl ⟨?_, more others⟩
        rw [findByte?_skip ascii inside, found, Option.map_none]
      · refine .inr ⟨c :: plain, stop, behind, rfl, more others, isStop, ?_⟩
        rw [findByte?_skip ascii inside, found, Option.map_some, byteSize, Nat.add_comm]

/-! ### Searching for several bytes -/

/-- Bytes that the needle does not start with are passed over. -/
theorem findBytes?_append {first : UInt8} {needle front : List UInt8}
    (other : ∀ byte ∈ front, byte ≠ first) (back : List UInt8) :
    findBytes? (first :: needle) (front ++ back)
      = (findBytes? (first :: needle) back).map (· + front.length) := by
  induction front with
  | nil => simp
  | cons byte front ih =>
    obtain ⟨differs, others⟩ := List.forall_mem_cons.mp other
    have noPrefix : (first :: needle).isPrefixOf (byte :: (front ++ back)) = false := by
      simp [List.isPrefixOf, differs.symm]
    rw [List.cons_append, findBytes?, noPrefix, if_neg Bool.false_ne_true, ih others,
      Option.map_map]
    rfl

end Downlevel.Text
