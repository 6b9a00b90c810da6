/-
The program.  Evaluation is a pure function of the files in reach, so that a
file is read when evaluation has failed for want of it, and the evaluation then
starts again: an error ends an evaluation, and nothing of a failed attempt is
kept.
-/
import Lisplet.Session

namespace Lisplet

abbrev KnownFiles := List (String × Except FileFault String)

/-- No file is there but those that have been read. -/
def KnownFiles.files (known : KnownFiles) : Files :=
  fun path => (known.lookup path).getD (.error .notFound)

/-- The code by which the operating system says that a file is a directory. -/
def directoryCode : UInt32 := 21

def readDisk (path : String) : IO (Except FileFault String) := do
  if let some fault := pathFault? path then
    return .error fault
  try
    return decodeText (← IO.FS.readBinFile path)
  catch
    | .inappropriateType _ code _ =>
        return .error (if code = directoryCode then .isDirectory else .notDirectory)
    | .invalidArgument .. => return .error .nameTooLong
    | _ => return .error .notFound

partial def performOnDisk (act : Eval Value) (m : Machine) (known : KnownFiles) :
    IO (Outcome Value) := do
  match act { m with files := known.files } with
  | .error (.io (.file path .notFound)) after =>
      if (known.lookup path).isSome then
        return .error (.io (.file path .notFound)) after
      else performOnDisk act m ((path, ← readDisk path) :: known)
  | outcome => return outcome

def flushPrinted (m : Machine) : IO Machine := do
  IO.print m.printed
  (← IO.getStdout).flush
  return { m with printed := "" }

/-- Perform an action that reads no files. -/
def performPure (act : Eval α) : StateT Machine IO α := fun m => do
  match act m with
  | .value result m => return (result, ← flushPrinted m)
  | .error cause _ => throw (IO.userError (cause.text.getD "stack overflow"))
  | .unfinished => throw (IO.userError "out of steps")

def performFully (act : Eval Value) : StateT Machine IO (Except Error Value) := fun m => do
  match ← performOnDisk act m [] with
  | .value result m => return (.ok result, m)
  | .error cause m => return (.error cause, m)
  | .unfinished => throw (IO.userError "out of steps")

partial def converseOnTerminal (settings : Settings) (root : Scope) : StateT Machine IO Unit := do
  let input ← IO.getStdin
  if ← input.isTty then
    IO.print settings.prompt
    (← IO.getStdout).flush
  let line ← input.getLine
  if line.isEmpty ∨ Request.ofLine line = .quit then performPure (.printLine farewell)
  else
    (Request.ofLine line).answerBy performPure
      (fun line => performFully (evaluateLine line root)) root
    converseOnTerminal settings root

/-- Run a script, or a session on standard input; the exit code. -/
def runOnTerminal (settings : Settings) : StateT Machine IO Nat := do
  let root ← performPure (newProgramScope settings)
  match settings.script with
  | some path =>
      let answer ← performFully (evaluate (scriptForm path) root)
      let ending ← performPure (Ending.ofScript answer)
      IO.eprint ending.complaint
      return ending.code
  | none =>
      performPure (printLines banner)
      converseOnTerminal settings root
      return 0

end Lisplet

open Lisplet in
def main (arguments : List String) : IO UInt32 := do
  let code ← (runOnTerminal (Settings.ofArguments arguments)).run' (Machine.fresh noFiles)
  return UInt32.ofNat code
