import Scriptlet.Command

/-!
# The program: reads the arguments and the script, runs it and prints the report

It is the shell that §6 of the specification leaves out, with the options of §10.4.
-/

open Scriptlet Command

/-- The bytes of a stream up to its end. -/
partial def readAll (stream : IO.FS.Stream) (got : ByteArray) : IO ByteArray := do
  let chunk ← stream.read 65536
  if chunk.isEmpty then return got else readAll stream (got ++ chunk)

def decodeText (bytes : ByteArray) : Except String String :=
  match String.fromUTF8? bytes with
  | some text => .ok text
  | none => .error "stream did not contain valid UTF-8"

/-- The number of a system error; some calls report it negated. -/
def errorNumber (code : UInt32) : Nat := if code < 0x80000000 then code.toNat else (0 - code).toNat

/-- A system error in words, with its number. -/
def systemError (code : UInt32) (reason : String) : String :=
  let number := errorNumber code
  let words := match number with
    | 2 => "No such file or directory"
    | 13 => "Permission denied"
    | 20 => "Not a directory"
    | 21 => "Is a directory"
    | 36 => "File name too long"
    | _ => reason
  s!"{words} (os error {number})"

def fileError : IO.Error → String
  | .noFileOrDirectory _ code reason => systemError code reason
  | .permissionDenied _ code reason => systemError code reason
  | .inappropriateType _ code reason => systemError code reason
  | .invalidArgument _ code reason => systemError code reason
  | e => toString e

def readInput : Input → IO (Except String String)
  | .text source => return .ok source
  | .file path => do
    match ← (IO.FS.readBinFile path).toBaseIO with
    | .ok bytes => return decodeText bytes
    | .error e => return .error (fileError e)
  | .standard => return decodeText (← readAll (← IO.getStdin) .empty)

def main (args : List String) : IO UInt32 := do
  match plan args with
  | .refuse => do
    IO.eprint usage
    return 2
  | .help => do
    IO.print usage
    return 0
  | .run options => do
    let report ← match ← readInput options.input with
      | .ok source => pure ((options.execute ampleFuel source).getD (.failure "" "out of fuel"))
      | .error reason => pure (.unreadable options.input reason)
    IO.print report.output
    IO.eprint report.errors
    return report.exitCode.toUInt32
