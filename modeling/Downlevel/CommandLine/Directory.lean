import Downlevel.CommandLine.Surroundings

/-! A working directory held in memory, for runs that touch nothing else. -/

namespace Downlevel.CommandLine

/-- Where the way to a place starts. -/
inductive Base
  /-- So many directories above the working directory. -/
  | up (levels : Nat)
  | root
deriving DecidableEq

/-- A place, by its way from a base. -/
structure Place where
  base : Base := .up 0
  parts : List String := []
deriving DecidableEq

namespace Place

/-- The directory that a place is in. The root is in itself. -/
def parent (place : Place) : Place :=
  match place.base, place.parts with
  | .up levels, [] => { base := .up (levels + 1) }
  | base, parts => ⟨base, parts.dropLast⟩

/-- The place with a name in a directory. -/
def child (place : Place) (name : String) : Place :=
  ⟨place.base, place.parts ++ [name]⟩

/-- Whether a place is another one or in it, at any depth. -/
def isWithin (place outer : Place) : Bool :=
  place.base = outer.base && outer.parts.isPrefixOf place.parts

end Place

/-- A file without a content of its own. -/
inductive Device
  /-- Holds nothing and keeps nothing. -/
  | null
  | input
  | output
  | messages
deriving DecidableEq

/-- The device with a name among the devices. -/
def Device.ofName? : String → Option Device
  | "null" => some .null
  | "stdin" => some .input
  | "stdout" => some .output
  | "stderr" => some .messages
  | _ => none

/-- What is at a place. -/
inductive Entry
  | file (content : List UInt8)
  | device (device : Device)
  | directory

/-- What every system has below its root. -/
def Entry.common? : List String → Option Entry
  | [] | ["dev"] | ["tmp"] => some .directory
  | ["dev", name] => (Device.ofName? name).map .device
  | _ => none

/-- The longest name of a file, in bytes. -/
def longestName : Nat := 255

/-- The longest path that can be followed, in bytes. -/
def longestPath : Nat := 4095

/-- The parts of a path. -/
def pathParts (path : String) : List String :=
  path.splitOn "/"

/-- Refuses a path that is not even followed. -/
def checkPath (path : String) : Except FileError Unit := do
  if path.contains '\x00' then throw .nulInName
  if path.isEmpty then throw .notFound
  if longestPath < path.utf8ByteSize then throw .nameTooLong

/-- Files by their places. A directory is there when a file is in it. -/
structure Directory where
  files : List (Place × List UInt8) := []

namespace Directory

/-- The working directory with the given files, by their paths. -/
def ofFiles (files : List (String × List UInt8)) : Directory where
  files := files.map fun (path, content) =>
    ({ parts := (pathParts path).filter fun part => part ≠ "" && part ≠ "." }, content)

/-- What is at a place. The working directory and those above it are always there. -/
def entry? (directory : Directory) (place : Place) : Option Entry :=
  match directory.files.find? (·.1 = place) with
  | some (_, content) => some (.file content)
  | none =>
    if directory.files.any (·.1.isWithin place) then some .directory
    else
      match place.base with
      | .root => Entry.common? place.parts
      | .up _ => if place.parts.isEmpty then some .directory else none

/-- Follows one part of a path. Only a directory leads on, also to itself. -/
def step (directory : Directory) (place : Place) (part : String) : Except FileError Place :=
  match directory.entry? place with
  | none => .error .notFound
  | some (.file _) | some (.device _) => .error .notDirectory
  | some .directory =>
    if part = "" || part = "." then .ok place
    else if part = ".." then .ok place.parent
    else if longestName < part.utf8ByteSize then .error .nameTooLong
    else .ok (place.child part)

/-- Follows a path. An empty first part stands for the root. -/
def walk (directory : Directory) : (path : List String) → Except FileError Place
  | "" :: rest => rest.foldlM directory.step { base := .root }
  | parts => parts.foldlM directory.step {}

/-- What a path leads to. -/
def find (directory : Directory) (path : String) : Except FileError Entry := do
  checkPath path
  match directory.entry? (← directory.walk (pathParts path)) with
  | none => throw .notFound
  | some entry => return entry

/-- The place for a file that is written. A path that can only lead to a directory is refused
before the last name is looked at. -/
def target (directory : Directory) (path : String) : Except FileError Place := do
  checkPath path
  let (slashes, reversed) := (pathParts path).reverse.span (· = "")
  match reversed with
  | [] => throw .isDirectory
  | name :: above =>
    -- The step in place tells whether there is a directory to write in.
    let holder ← directory.step (← directory.walk above.reverse) "."
    if name = "." || name = ".." || !slashes.isEmpty then throw .isDirectory
    directory.step holder name

/-- The directory with the file at a place replaced or added. -/
def insert (directory : Directory) (place : Place) (content : List UInt8) : Directory :=
  ⟨(place, content) :: directory.files.filter (·.1 ≠ place)⟩

end Directory

/-- A directory together with the standard streams. -/
structure InMemory where
  directory : Directory := {}
  input : List UInt8 := []
  output : String := ""
  messages : String := ""

namespace InMemory

/-- All that is left in a device. What was read once is gone. -/
def readDevice (state : InMemory) : Device → List UInt8 × InMemory
  | .input => (state.input, { state with input := [] })
  | _ => ([], state)

/-- Adds a text to what a device has taken. -/
def writeDevice (state : InMemory) (text : String) : Device → InMemory
  | .output => { state with output := state.output ++ text }
  | .messages => { state with messages := state.messages ++ text }
  | _ => state

/-- Reads the file at a path. -/
def readAt (state : InMemory) (path : String) : Except FileError (List UInt8) × InMemory :=
  match state.directory.find path with
  | .error error => (.error error, state)
  | .ok .directory => (.error .isDirectory, state)
  | .ok (.file content) => (.ok content, state)
  | .ok (.device device) => (state.readDevice device).map .ok id

/-- Writes the file at a path. -/
def writeAt (state : InMemory) (path text : String) : Except FileError Unit × InMemory :=
  match state.directory.target path with
  | .error error => (.error error, state)
  | .ok place =>
    match state.directory.entry? place with
    | some .directory => (.error .isDirectory, state)
    | some (.device device) => (.ok (), state.writeDevice text device)
    | some (.file _) | none =>
      (.ok (), { state with directory := state.directory.insert place text.toUTF8.toList })

/-- The surroundings of a run in memory. -/
def surroundings : Surroundings (StateM InMemory) where
  read
    | none => modifyGet fun state => (state.readDevice .input).map .ok id
    | some path => modifyGet (·.readAt path)
  write
    | none, text => modifyGet fun state => (.ok (), state.writeDevice text .output)
    | some path, text => modifyGet (·.writeAt path text)

end InMemory

end Downlevel.CommandLine
