import FiniteAutomata.CommandLine.Run
import Std.Time.Zoned

/-!
The program on a real machine: it reads standard input or a file, prints the output, and tells
on standard error what it logged and what failed.
-/

namespace FiniteAutomata.CommandLine

def padded (width n : Nat) : String :=
  let digits := toString n
  String.ofList (List.replicate (width - digits.length) '0') ++ digits

-- A time to the millisecond, which follows a comma.
def timestamp (t : Std.Time.PlainDateTime) : String :=
  padded 4 t.year.toInt.toNat ++ "-" ++ padded 2 t.month.toNat ++ "-" ++ padded 2 t.day.toNat ++
    " " ++ padded 2 t.hour.toNat ++ ":" ++ padded 2 t.minute.toNat ++ ":" ++
    padded 2 t.second.toNat ++ "," ++ padded 3 (t.nanosecond.toNat / 1000000)

-- The local time, or that of Greenwich on a machine without time zones.
def now : IO Std.Time.PlainDateTime := do
  match ← Std.Time.PlainDateTime.now.toBaseIO with
  | .ok t => return t
  | .error _ => return .ofWallTime (.ofTimestamp (← Std.Time.Timestamp.now) .zero)

-- The failure of the system. Its number may come negated in 32 bits.
def ReadError.ofSystem : IO.Error → ReadError
  | .noFileOrDirectory _ code reason | .inappropriateType _ code reason
  | .invalidArgument _ code reason | .permissionDenied _ code reason
  | .resourceExhausted _ code reason | .noSuchThing _ code reason
  | .hardwareFault code reason | .otherError code reason =>
    .ofNumber (min code.toNat (UInt32.size - code.toNat)) reason
  | e => .other 5 (toString e)

def readFile (path : Path) : IO (Except ReadError ByteArray) := do
  return (← (IO.FS.readBinFile path.text).toBaseIO).mapError .ofSystem

partial def readAll (input : IO.FS.Stream) (bytes : ByteArray) : IO ByteArray := do
  let more ← input.read 65536
  if more.isEmpty then return bytes else readAll input (bytes ++ more)

def readSource : Source → IO (Except ReadError ByteArray)
  | .standardInput => do return .ok (← readAll (← IO.getStdin) .empty)
  | .file path => readFile path

def report (o : Outcome) : IO UInt32 := do
  for r in o.log do
    IO.eprintln (timestamp (← now) ++ " " ++ r.text)
  for e in o.error do
    IO.eprintln e
  IO.print o.output
  return o.exitCode.toUInt32

end FiniteAutomata.CommandLine

open FiniteAutomata.CommandLine in
def main (args : List String) : IO UInt32 := do
  match request args with
  | .error outcome => report outcome
  | .ok s => report (conclude s (← readSource (.ofSettings s)))
