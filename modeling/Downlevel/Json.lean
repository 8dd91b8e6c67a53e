/-! JSON values and their indented text. Objects keep the order of their fields, and a name may
occur twice. -/

namespace Downlevel

/-- A JSON value. -/
inductive Json
  | null
  | bool (value : Bool)
  /-- A number as it is written. -/
  | number (text : String)
  | string (value : String)
  | array (items : List Json)
  | object (fields : List (String × Json))
  /-- A string, or an object with a name, that holds half of a surrogate pair and so is no text. It
  does no harm where its value is not asked for. -/
  | unpaired
deriving Inhabited, BEq

namespace Json

/-- A character inside a string. Only the control characters, the quote and the backslash are
escaped. -/
def escape (c : Char) : String :=
  if c = '"' then "\\\""
  else if c = '\\' then "\\\\"
  else if c = '\n' then "\\n"
  else if c = '\r' then "\\r"
  else if c = '\t' then "\\t"
  else if c = '\x08' then "\\b"
  else if c = '\x0c' then "\\f"
  else if c.toNat < 0x20 then
    "\\u00" ++ String.ofList [Nat.digitChar (c.toNat / 16), Nat.digitChar (c.toNat % 16)]
  else String.singleton c

/-- A string with its quotes. -/
def quote (text : String) : String :=
  "\"" ++ String.join (text.toList.map escape) ++ "\""

/-- A new line with two blanks for each level. -/
def newline (indent : Nat) : String :=
  "\n" ++ String.join (List.replicate indent "  ")

/-- Entries on lines of their own between two brackets, or nothing between them. -/
def enclose (opening closing : String) (indent : Nat) (entries : List String) : String :=
  if entries.isEmpty then opening ++ closing
  else
    opening ++ newline (indent + 1) ++ ("," ++ newline (indent + 1)).intercalate entries
      ++ newline indent ++ closing

mutual

/-- The text of a value whose first line is already indented. -/
def prettyAt (indent : Nat) : Json → String
  | .null => "null"
  | .bool value => if value then "true" else "false"
  | .number text => text
  | .string value => quote value
  | .array items => enclose "[" "]" indent (prettyItems (indent + 1) items)
  | .object fields => enclose "\x7b" "\x7d" indent (prettyFields (indent + 1) fields)
  | .unpaired => "null"

/-- The texts of the items of an array. -/
def prettyItems (indent : Nat) : List Json → List String
  | [] => []
  | item :: rest => prettyAt indent item :: prettyItems indent rest

/-- The text of a field. -/
def prettyField (indent : Nat) : String × Json → String
  | (name, value) => quote name ++ ": " ++ prettyAt indent value

/-- The texts of the fields of an object. -/
def prettyFields (indent : Nat) : List (String × Json) → List String
  | [] => []
  | field :: rest => prettyField indent field :: prettyFields indent rest

end

/-- The text of a value, with two blanks for each level. -/
def pretty (value : Json) : String :=
  prettyAt 0 value

/-- A string, or null in its absence. -/
def ofText? : Option String → Json
  | some text => .string text
  | none => .null

end Json

end Downlevel
