/-! Offsets into a text count the bytes of its UTF-8 form, so characters are measured, searched for
and cut off here. -/

namespace Downlevel.Text

/-- What reading a text may never come to. -/
inductive Misread
  /-- A slice starts or ends inside a character, or behind the end of the text. -/
  | badSlice
  /-- A loop goes round more often than there are characters. -/
  | endless
deriving DecidableEq

/-- The number of bytes the characters take up in UTF-8. -/
def byteSize : List Char → Nat
  | [] => 0
  | c :: rest => c.utf8Size + byteSize rest

/-- The bytes of the characters. -/
def utf8 (text : List Char) : List UInt8 :=
  text.flatMap String.utf8EncodeChar

/-- The number of bytes in front of the first one that is one of the given characters, which are
ASCII. -/
def findByte? (stops : List Char) (text : List Char) : Option Nat :=
  (utf8 text).findIdx? (stops.map Char.toUInt8).contains

/-- The number of bytes in front of the first place where the needle stands. -/
def findBytes? (needle : List UInt8) : List UInt8 → Option Nat
  | [] => if needle.isEmpty then some 0 else none
  | byte :: rest =>
    if needle.isPrefixOf (byte :: rest) then some 0 else (findBytes? needle rest).map (· + 1)

/-- The characters in front of a byte offset and those behind it; nothing if the offset is behind the
end or inside a character. -/
def splitBytes? : (count : Nat) → List Char → Option (List Char × List Char)
  | 0, text => some ([], text)
  | _ + 1, [] => none
  | count + 1, c :: rest =>
    if c.utf8Size ≤ count + 1 then
      (splitBytes? (count + 1 - c.utf8Size) rest).map fun (front, back) => (c :: front, back)
    else
      none

/-- The text in two slices, which have to be there. -/
def splitBytes (count : Nat) (text : List Char) : Except Misread (List Char × List Char) :=
  match splitBytes? count text with
  | some parts => .ok parts
  | none => .error .badSlice

/-- The text without so many bytes in front. -/
def dropBytes (count : Nat) (text : List Char) : Except Misread (List Char) :=
  Prod.snd <$> splitBytes count text

/-- So many bytes from the front of the text. -/
def takeBytes (count : Nat) (text : List Char) : Except Misread (List Char) :=
  Prod.fst <$> splitBytes count text

/-- Bytes add up over concatenation. -/
@[simp]
theorem byteSize_append (front back : List Char) :
    byteSize (front ++ back) = byteSize front + byteSize back := by
  -- Each character of the front part contributes once on either side.
  induction front with
  | nil => simp [byteSize]
  | cons c rest ih => simp [byteSize, ih, Nat.add_assoc]

/-- A text is cut where two characters meet. -/
theorem splitBytes?_append (front back : List Char) :
    splitBytes? (byteSize front) (front ++ back) = some (front, back) := by
  induction front with
  | nil => cases back <;> rfl
  | cons c rest ih =>
    have positive := c.utf8Size_pos
    -- A character takes at least one byte, so the offset is no zero.
    obtain ⟨count, size⟩ := Nat.exists_eq_succ_of_ne_zero
      (show byteSize (c :: rest) ≠ 0 from Nat.ne_of_gt (Nat.lt_of_lt_of_le positive
        (Nat.le_add_right ..)))
    have whole : count + 1 = c.utf8Size + byteSize rest := size.symm
    have left : count + 1 - c.utf8Size = byteSize rest := by omega
    rw [size, List.cons_append, splitBytes?, if_pos (by omega), left, ih]
    rfl

/-- A text is cut nowhere else. -/
theorem eq_append_of_splitBytes? {count : Nat} {text front back : List Char}
    (cut : splitBytes? count text = some (front, back)) :
    text = front ++ back ∧ byteSize front = count := by
  -- Along the characters in front of the cut, each of which takes its bytes off the count.
  induction text generalizing count front with
  | nil =>
    cases count with
    | zero => cases cut; exact ⟨rfl, rfl⟩
    | succ count => cases cut
  | cons c rest ih =>
    cases count with
    | zero => cases cut; exact ⟨rfl, rfl⟩
    | succ count =>
      rw [splitBytes?] at cut
      split at cut
      · rename_i fits
        obtain ⟨⟨inner, outer⟩, found, same⟩ := Option.map_eq_some_iff.mp cut
        cases same
        obtain ⟨rfl, size⟩ := ih found
        exact ⟨rfl, by rw [byteSize, size]; omega⟩
      · cases cut

/-- The characters before a byte offset, or nothing when the offset splits a character.
An offset past the end takes the whole text. -/
def before? : Nat → List Char → Option (List Char)
  | 0, _ => some []
  | _ + 1, [] => some []
  | offset + 1, c :: rest =>
    -- A character is taken only when all of its bytes lie before the offset.
    if c.utf8Size ≤ offset + 1 then
      (before? (offset + 1 - c.utf8Size) rest).map (c :: ·)
    else
      none

/-- What stands in front of the end of a character. -/
theorem before?_append (front back : List Char) :
    before? (byteSize front) (front ++ back) = some front := by
  induction front with
  | nil =>
    cases back <;> rfl
  | cons c rest ih =>
    have positive := c.utf8Size_pos
    -- A character takes at least one byte, so the offset is no zero.
    obtain ⟨offset, size⟩ := Nat.exists_eq_succ_of_ne_zero
      (show byteSize (c :: rest) ≠ 0 from Nat.ne_of_gt (Nat.lt_of_lt_of_le positive
        (Nat.le_add_right ..)))
    have whole : offset + 1 = c.utf8Size + byteSize rest := size.symm
    have left : offset + 1 - c.utf8Size = byteSize rest := by omega
    rw [size, List.cons_append, before?, if_pos (by omega), left, ih, Option.map_some]

/-- The characters without so many bytes in front and so many behind, or nothing when there are fewer
or a character is split. -/
def inner? (front back : Nat) (text : List Char) : Option (List Char) := do
  if byteSize text < front + back then none
  let outside ← before? front text
  let kept ← before? (byteSize text - back) text
  return kept.drop outside.length

/-- What stands between two ends of characters. -/
theorem inner?_append (front inside back : List Char) :
    inner? (byteSize front) (byteSize back) (front ++ inside ++ back) = some inside := by
  -- The back is cut off first; what is left is the front and what is inside.
  have size : byteSize (front ++ inside ++ back) - byteSize back = byteSize (front ++ inside) := by
    rw [byteSize_append _ back, Nat.add_sub_cancel]
  have outside := before?_append front (inside ++ back)
  rw [← List.append_assoc] at outside
  have enough : ¬byteSize (front ++ inside ++ back) < byteSize front + byteSize back := by
    simp only [byteSize_append]
    omega
  simp only [inner?, if_neg enough, size, before?_append, outside, Option.bind_eq_bind,
    Option.bind_some, List.drop_left]
  rfl

/-- Whether the needle starts the text. -/
def startsWith : (needle text : List Char) → Bool
  | [], _ => true
  | _ :: _, [] => false
  | n :: needle, c :: text => n == c && startsWith needle text

/-- Whether the needle occurs anywhere in the text. -/
def contains (needle : List Char) : List Char → Bool
  | [] => needle.isEmpty
  | c :: rest => startsWith needle (c :: rest) || contains needle rest

end Downlevel.Text
