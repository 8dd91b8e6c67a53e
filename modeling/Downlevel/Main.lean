import Downlevel.CommandLine.Run

/-! The program with real files and streams. -/

namespace Downlevel.CommandLine

/-- What the operating system says about a file. -/
def FileError.ofSystem : IO.Error → FileError
  | .noFileOrDirectory _ code details => ⟨details, some code.toNat⟩
  | .permissionDenied _ code details => ⟨details, some code.toNat⟩
  | .inappropriateType _ code details => ⟨details, some code.toNat⟩
  | .invalidArgument _ code details => ⟨details, some code.toNat⟩
  | .resourceExhausted _ code details => ⟨details, some code.toNat⟩
  | error => ⟨toString error, none⟩

/-- All bytes that are left in a stream. -/
partial def readAll (stream : IO.FS.Stream) (read : ByteArray) : IO ByteArray := do
  let bytes ← stream.read 65536
  if bytes.isEmpty then return read else readAll stream (read ++ bytes)

/-- The result of an action, or what the operating system says against it. -/
def attempt {α : Type} (action : IO α) : IO (Except FileError α) := do
  try return .ok (← action) catch error => return .error (.ofSystem error)

/-- The files and streams of the process. -/
def processSurroundings : Surroundings IO where
  read path := attempt do
    let bytes ← match path with
      | some path => IO.FS.readBinFile path
      | none => readAll (← IO.getStdin) .empty
    return bytes.toList
  write path text := attempt do
    match path with
    | some path => IO.FS.writeFile path text
    | none => do
      let stdout ← IO.getStdout
      stdout.putStr text
      stdout.flush

end Downlevel.CommandLine

/-- Runs the program on the arguments of the process. -/
def main (arguments : List String) : IO UInt32 := do
  let outcome ← Downlevel.CommandLine.run Downlevel.CommandLine.processSurroundings arguments
  IO.eprint outcome.messages
  return UInt32.ofNat outcome.status
