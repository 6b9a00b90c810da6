/-
The command line: without arguments the program is an interactive session; with
some, the first is the path of a script and the others are left to it.
-/

namespace Lisplet

/-- What a run of the program is asked to do. -/
structure Settings where
  script : Option String
  scriptArguments : List String
  prompt : String
deriving DecidableEq

def Settings.ofArguments (arguments : List String) : Settings where
  script := arguments.head?
  scriptArguments := arguments.tail
  prompt := "user> "

end Lisplet
