/-
Sessions: what the program does with a script, or with the lines of a user.
-/
import Lisplet.CommandLine
import Lisplet.Listing
import Lisplet.Root

namespace Lisplet

def printLines (lines : List String) : Eval Unit :=
  lines.forM .printLine

def banner : List String :=
  ["malxp - make-a-lisp interpreter",
   "Enter forms like: (+ 1 2)",
   "Type :help for more commands, or Ctrl+D to exit.",
   ""]

def farewell : String := "Goodbye!"

def helpLines : List String :=
  ["malxp commands:",
   "  :help      - Show this help message",
   "  :env       - Show current environment bindings",
   "  :quit      - Exit the interpreter",
   "  :exit      - Exit the interpreter",
   "  Ctrl+D     - Exit the interpreter",
   "",
   "Special forms:",
   "  def! let* do if fn* quote quasiquote quasiquoteexpand defmacro! macroexpand",
   "",
   "Reader shorthands:",
   "  'x => (quote x)   \x60x => (quasiquote x)   ~x => (unquote x)",
   "  ~@x => (splice-unquote x)   @a => (deref a)",
   "",
   "Examples:",
   "  (def! inc (fn* (x) (+ x 1)))",
   "  (let* [a 1 b (inc a)] (list a b))",
   "  (defmacro! unless (fn* (p a b) \x60(if ~p ~b ~a)))",
   "  (def! counter (atom 0))",
   "  (swap! counter inc)",
   "  (load-file \"script.mal\")",
   ""]

def rowsOfFour : List α → List (List α)
  | a :: b :: c :: d :: items => [a, b, c, d] :: rowsOfFour items
  | [] => []
  | items => [items]

def column (name : String) : String :=
  "  " ++ name ++ String.ofList (List.replicate (15 - name.length) ' ')

/-- One row of names, without blanks at its end. -/
def nameRow (names : List String) : String :=
  trimEnd (String.join (names.map column))

def bindsNative (binding : String × Value) : Bool :=
  binding.2.kind = .native

/-- The lines of a listing before those of the values: the native functions by
name, and how many other bindings there are. -/
def listingHead (bindings : Frame) : List String :=
  if bindings.isEmpty then ["Environment is empty."]
  else
    let natives := bindings.filter bindsNative
    let others := bindings.filter fun binding => !bindsNative binding
    let nativeLines :=
      if natives.isEmpty then []
      else
        ["Built-in functions (" ++ toString natives.length ++ "):"]
          ++ (rowsOfFour (natives.map Prod.fst)).map nameRow ++ [""]
    let otherLines :=
      if others.isEmpty then []
      else ["User-defined values (" ++ toString others.length ++ "):"]
    ["Environment bindings (" ++ toString bindings.length ++ " total):", ""]
      ++ nativeLines ++ otherLines

def bindingLine (m : Machine) (binding : String × Value) : Rendering :=
  (m.text .readable binding.2).map fun text => "  " ++ binding.1 ++ " = " ++ text

def printBinding (binding : String × Value) : Eval Unit := do
  .printLine (← .writing fun m => bindingLine m binding)

/-- Print the bindings in sight of a scope: first the native functions by name,
then the other bindings with their values. -/
def printBindings (scope : Scope) : Eval Unit := do
  let bindings ← .read (·.bindings scope)
  printLines (listingHead bindings)
  (bindings.filter fun binding => !bindsNative binding).forM printBinding

def evaluateLine (line : String) (scope : Scope) : Eval Value := do
  let form ← .ofExcept ((readFirst line).mapError .read)
  evaluate form scope

inductive Request where
  | nothing
  | help
  | listing
  | quit
  | evaluation (line : String)
deriving DecidableEq

/-- What a line asks for, blanks at its ends aside. -/
def Request.ofLine (line : String) : Request :=
  let line := trim line
  if line = "" then nothing
  else if line = ":help" then help
  else if line = ":env" then listing
  else if line = ":quit" ∨ line = ":exit" then quit
  else evaluation line

def complain (cause : Error) : Eval Unit := do
  .printLine ("Error: " ++ (← .writing fun _ => cause.text))

/-- Report what came of a line.  A line without a form has nothing to report. -/
def report : Except Error Value → Eval Unit
  | .ok value => do .printLine (← .writing fun m => m.text .readable value)
  | .error (.read e) => if e.kind = .noForm then return () else complain (.read e)
  | .error cause => complain cause

/-- Answer a request.  How actions are performed, and how a line is evaluated,
is left open. -/
def Request.answerBy [Monad M] (perform : Eval Unit → M Unit)
    (evaluateLine : String → M (Except Error Value)) (scope : Scope) : Request → M Unit
  | .nothing | .quit => return ()
  | .help => perform (printLines helpLines)
  | .listing => perform (printBindings scope)
  | .evaluation line => do perform (report (← evaluateLine line))

/-- Answer a request where all is evaluated in turn. -/
def Request.answer (scope : Scope) : Request → Eval Unit :=
  answerBy id (fun line => (evaluateLine line scope).attempt) scope

/-- Answer the lines of a session one by one, until one asks to quit. -/
def converse (scope : Scope) : List String → Eval Unit
  | [] => .printLine farewell
  | line :: lines =>
      if Request.ofLine line = .quit then .printLine farewell
      else do
        (Request.ofLine line).answer scope
        converse scope lines

def interact (scope : Scope) (lines : List String) : Eval Unit := do
  printLines banner
  converse scope lines

/-- How a run of the program ends: its exit code, and what it has to say about
an error. -/
structure Ending where
  code : Nat
  complaint : String
deriving DecidableEq

def scriptForm (path : String) : Value :=
  .list [.symbol "load-file", .string path]

/-- How a run ends when its script has come to this. -/
def Ending.ofScript : Except Error Value → Eval Ending
  | .ok _ => return ⟨0, ""⟩
  | .error cause => do return ⟨1, "Error: " ++ (← .writing fun _ => cause.text) ++ "\n"⟩

def runScript (path : String) (scope : Scope) : Eval Ending := do
  Ending.ofScript (← (evaluate (scriptForm path) scope).attempt)

def newProgramScope (settings : Settings) : Eval Scope := do
  let root ← newRoot
  .define root "*ARGV*" (.list (settings.scriptArguments.map .string))
  .define root "*host-language*" (.string "rust")
  return root

/-- Run the program.  A session answers the lines that the line editor returns. -/
def runProgram (settings : Settings) (lines : List String) : Eval Ending := do
  let root ← newProgramScope settings
  match settings.script with
  | some path => runScript path root
  | none => do
      interact root lines
      return ⟨0, ""⟩

end Lisplet
