import Downlevel.Text.Classes

/-! What a run finds around it, and the names for bindings that it takes from the names of files. -/

namespace Downlevel.CommandLine

/-- The last part of a path that names something; a path that leads upwards has none. -/
def fileName? (path : String) : Option String :=
  match ((path.splitOn "/").filter fun part => part != "" && part != ".").getLast? with
  | some name => if name = ".." then none else some name
  | none => none

/-- A file name without what follows its last dot. A dot in front does not count. -/
def stem (name : String) : String :=
  let parts := name.splitOn "."
  let front := ".".intercalate parts.dropLast
  if front.isEmpty then name else front

/-- A character of a name for a binding. -/
def bindingChar (c : Char) : Char :=
  if c.isAlphanum || c = '_' || c = '$' then c else '_'

/-- A name for a binding from the name of a file, such as `my_lib_min` from `my-lib.min.js`. -/
def fileStem? (path : String) : Option String :=
  match (fileName? path).map fun name => (stem name).toList.map bindingChar with
  | some (c :: rest) =>
    -- No name starts with a digit.
    let front := if c.isDigit then ['_'] else []
    some (String.ofList (front ++ c :: rest))
  | _ => none

/-- Why a file cannot be used. -/
structure FileError where
  text : String
  /-- The number that the operating system gives to the reason. -/
  code : Option Nat := none
deriving DecidableEq

namespace FileError

/-- What a user is told about a file. -/
def message (error : FileError) : String :=
  match error.code with
  | some code => error.text ++ " (os error " ++ toString code ++ ")"
  | none => error.text

/-- Nothing has the name. -/
def notFound : FileError := ⟨"No such file or directory", some 2⟩

/-- A file stands where a directory has to. -/
def notDirectory : FileError := ⟨"Not a directory", some 20⟩

/-- A directory stands where a file has to. -/
def isDirectory : FileError := ⟨"Is a directory", some 21⟩

/-- No file can have the name. -/
def nameTooLong : FileError := ⟨"File name too long", some 36⟩

/-- No path can hold the character that ends a name. -/
def nulInName : FileError := ⟨"file name contained an unexpected NUL byte", none⟩

/-- The file is no text. -/
def notText : FileError := ⟨"stream did not contain valid UTF-8", none⟩

end FileError

/-- Access to files by their paths. Without a path, a standard stream is meant. -/
structure Surroundings (m : Type → Type) where
  read : Option String → m (Except FileError (List UInt8))
  write : Option String → String → m (Except FileError Unit)

end Downlevel.CommandLine
