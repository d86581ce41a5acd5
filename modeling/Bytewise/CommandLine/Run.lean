/-
A run of the command, over any way to reach files.

Options come from a file, if one is named, and then from the arguments.
The first thing that fails ends the run: with exit code 2 if it is about
arguments or files, with 1 if it is about what the files hold.
-/
import Bytewise.Artifact
import Bytewise.CommandLine.Arguments
import Bytewise.Manifest.Graph

namespace Bytewise.CommandLine

-- ====================================================== files

/-- Why a file cannot be read or written. -/
inductive FileFault where
  | notFound
  | notDirectory
  | isDirectory
  | denied
  | nameTooLong
  | notText
  | other (text : String)
deriving DecidableEq, Repr

/-- The wording of a file fault. -/
def FileFault.message : FileFault → String
  | notFound => "No such file or directory (os error 2)"
  | denied => "Permission denied (os error 13)"
  | notDirectory => "Not a directory (os error 20)"
  | isDirectory => "Is a directory (os error 21)"
  | nameTooLong => "File name too long (os error 36)"
  | notText => "stream did not contain valid UTF-8"
  | other text => text

/-- A way to reach files by name. -/
structure Files (m : Type → Type) where
  read : (path : String) → m (Except FileFault String)
  write : (path text : String) → m (Except FileFault Unit)

-- ====================================================== outcomes

/-- What a run leaves behind, files apart. -/
structure Outcome where
  exitCode : UInt8
  stdout : String := ""
  stderr : String := ""
deriving DecidableEq, Repr

/-- The name of the command. -/
def command : String := "llpc"

/-- The prefix of symbols if neither the arguments nor the manifest give
one. -/
def defaultPrefix : String := "llparse"

/-- The text that explains the arguments. -/
def usage : String :=
  "Usage: " ++ command ++ " [OPTIONS] <GRAPH>\n"

/-- A run that fails with a message. -/
def failure (exitCode : UInt8) (message : String) : Outcome :=
  { exitCode, stderr := command ++ ": " ++ message ++ "\n" }

/-- A run that fails on the file at `path`. -/
def fileFailure (exitCode : UInt8) (path message : String) : Outcome :=
  failure exitCode ("error: " ++ path ++ ": " ++ message)

/-- A run that fails on a compile error. -/
def compileFailure (cause : Cause) : Outcome :=
  failure 1 cause.report.render

/-- A run that fails on its manifest. -/
def manifestFailure (path : String) : Manifest.Failure → Outcome
  | .compile cause => compileFailure cause
  | other => fileFailure 1 path other.message

-- ====================================================== running

/-- A step of a run, which may end it. -/
abbrev Run (m : Type → Type) := ExceptT Outcome m

variable {m : Type → Type} [Monad m]

/-- The text of a file. -/
def readFile (files : Files m) (path : String) : Run m String := do
  match ← files.read path with
  | .ok text => return text
  | .error fault => throw (fileFailure 2 path fault.message)

/-- The options of a run: those of its file, then those of its arguments. -/
def options (files : Files m) (settings : Settings) : Run m Options := do
  let base ← match settings.config with
    | none => pure {}
    | some path => do
      match Options.ofJson (← readFile files path) with
      | .ok options => pure options
      | .error fault =>
        throw (fileFailure 1 path ("invalid options: " ++ fault.message))
  return { base with
    debugHook := settings.debugHook <|> base.debugHook
    headerName := settings.headerName <|> base.headerName }

/-- The text that a run produces. -/
def Emit.text (emit : Emit) (artifact : Artifact) : String :=
  match emit with
  | .source => artifact.source
  | .header => artifact.header
  | .buildInfo => artifact.info.render

/-- Compiles as the arguments say. -/
def compile (files : Files m) (settings : Settings) : Run m Outcome := do
  let options ← options files settings
  let text ← readFile files settings.graph
  let loaded ← match Manifest.parse text with
    | .ok loaded => pure loaded
    | .error failure => throw (manifestFailure settings.graph failure)
  let symbolPrefix := (settings.symbolPrefix <|> loaded.symbolPrefix).getD
    defaultPrefix
  let artifact ← match Artifact.ofGraph loaded.graph loaded.root
      symbolPrefix options with
    | .ok artifact => pure artifact
    | .error cause => throw (compileFailure cause)
  let text := settings.emit.text artifact
  match settings.output with
  | none => return { exitCode := 0, stdout := text }
  | some path =>
    match ← files.write path text with
    | .ok () => return { exitCode := 0 }
    | .error fault => throw (fileFailure 2 path fault.message)

/-- A whole run. -/
def run (files : Files m) (args : List String) : m Outcome := do
  match Request.ofArguments args with
  | .error error =>
      return { exitCode := 2,
               stderr := "error: " ++ error.message ++ "\n\n" ++ usage }
  | .ok .version =>
    return { exitCode := 0,
             stdout := command ++ " " ++ compilerVersion ++ "\n" }
  | .ok .help => return { exitCode := 0, stdout := usage }
  | .ok (.compile settings) =>
    match ← (compile files settings).run with
    | .ok outcome => return outcome
    | .error outcome => return outcome

end Bytewise.CommandLine
