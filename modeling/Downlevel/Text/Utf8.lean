/-! Reading bytes as UTF-8 text, and the first place where they are none. -/

namespace Downlevel.Text

/-- Where bytes stop being text. -/
structure Utf8Fault where
  /-- The number of bytes in front of the fault. -/
  start : Nat
  /-- The number of bytes that fit nothing; none when the bytes end inside a character. -/
  size : Option Nat
deriving DecidableEq

/-- What a user is told about bytes that are no text. -/
def Utf8Fault.message (fault : Utf8Fault) : String :=
  match fault.size with
  | some size =>
    "invalid utf-8 sequence of " ++ toString size ++ " bytes from index " ++ toString fault.start
  | none => "incomplete utf-8 byte sequence from index " ++ toString fault.start

/-- The number of bytes behind the first byte of a character. -/
def trailSize? (lead : UInt8) : Option Nat :=
  if lead < 0x80 then some 0
  else if lead < 0xC2 then none
  else if lead < 0xE0 then some 1
  else if lead < 0xF0 then some 2
  else if lead < 0xF5 then some 3
  else none

/-- The bits of a character that its first byte holds: the more bytes follow, the fewer. -/
def leadBits (lead : UInt8) : (trail : Nat) → Nat
  | 0 => lead.toNat % 128
  | 1 => lead.toNat % 32
  | 2 => lead.toNat % 16
  | _ => lead.toNat % 8

/-- The bounds of the second byte. They leave out long forms, halves of pairs and codes past the
last one. -/
def secondBounds (lead : UInt8) : UInt8 × UInt8 :=
  if lead = 0xE0 then (0xA0, 0xBF)
  else if lead = 0xED then (0x80, 0x9F)
  else if lead = 0xF0 then (0x90, 0xBF)
  else if lead = 0xF4 then (0x80, 0x8F)
  else (0x80, 0xBF)

/-- A character of which some bytes are read. -/
structure PartialChar where
  code : Nat
  seen : Nat
  missing : Nat
  bounds : UInt8 × UInt8

/-- Reads on behind the given number of bytes, which are text but for a character that is not
complete. -/
def decodeFrom (start : Nat) : Option PartialChar → List UInt8 → Except Utf8Fault (List Char)
  | none, [] => .ok []
  | some _, [] => .error ⟨start, none⟩
  | none, lead :: rest =>
    match trailSize? lead with
    | none => .error ⟨start, some 1⟩
    | some 0 => do return Char.ofNat lead.toNat :: (← decodeFrom (start + 1) none rest)
    | some trail =>
      decodeFrom start (some ⟨leadBits lead trail, 1, trail, secondBounds lead⟩) rest
  | some char, byte :: rest =>
    if byte < char.bounds.1 || char.bounds.2 < byte then .error ⟨start, some char.seen⟩
    else
      let code := char.code * 64 + byte.toNat % 64
      if char.missing ≤ 1 then do
        return Char.ofNat code :: (← decodeFrom (start + char.seen + 1) none rest)
      else
        decodeFrom start (some ⟨code, char.seen + 1, char.missing - 1, (0x80, 0xBF)⟩) rest

/-- The text that bytes spell. -/
def decodeUtf8 (bytes : List UInt8) : Except Utf8Fault String :=
  (decodeFrom 0 none bytes).map String.ofList

end Downlevel.Text
