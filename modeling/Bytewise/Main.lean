/-
The command: a run over the files of the system.
-/
import Bytewise.CommandLine.Run

namespace Bytewise.CommandLine

/-- The fault that an error number of the system stands for. Some errors carry
it negated. -/
def faultOfNumber? (number : UInt32) : Option FileFault :=
  match number.toInt32.toInt.natAbs with
  | 20 => some .notDirectory
  | 21 => some .isDirectory
  | 36 => some .nameTooLong
  | _ => none

/-- The fault that a system error stands for. -/
def faultOf (error : IO.Error) : FileFault :=
  match error with
  | .noFileOrDirectory .. => .notFound
  | .permissionDenied .. => .denied
  | .inappropriateType _ number _ | .invalidArgument _ number _ =>
    (faultOfNumber? number).getD (.other (toString error))
  | _ => .other (toString error)

/-- The files of the system. -/
def systemFiles : Files IO where
  read path := do
    try
      match String.fromUTF8? (← IO.FS.readBinFile path) with
      | some text => return .ok text
      | none => return .error .notText
    catch error => return .error (faultOf error)
  write path text := do
    try
      IO.FS.writeFile path text
      return .ok ()
    catch error => return .error (faultOf error)

end Bytewise.CommandLine

/-- Runs the command with its arguments. -/
def main (args : List String) : IO UInt32 := do
  let outcome ← Bytewise.CommandLine.run Bytewise.CommandLine.systemFiles args
  IO.print outcome.stdout
  IO.eprint outcome.stderr
  return outcome.exitCode.toUInt32
