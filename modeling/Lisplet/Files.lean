/-
Files as programs see them: every path leads to a text or to a fault.
-/

namespace Lisplet

/-- Why a file could not be read as text. -/
inductive FileFault where
  | notFound
  | isDirectory
  | notDirectory
  | nameTooLong
  | zeroInName
  | notText
deriving DecidableEq

/-- The words for the fault: those of the operating system, where it was asked. -/
def FileFault.text : FileFault → String
  | notFound => "No such file or directory (os error 2)"
  | isDirectory => "Is a directory (os error 21)"
  | notDirectory => "Not a directory (os error 20)"
  | nameTooLong => "File name too long (os error 36)"
  | zeroInName => "file name contained an unexpected NUL byte"
  | notText => "stream did not contain valid UTF-8"

/-- What reading the file at each path gives. -/
abbrev Files := String → Except FileFault String

def noFiles : Files :=
  fun _ => .error .notFound

def maxPathBytes : Nat := 4095

/-- The fault of a path that no directory is asked about. -/
def pathFault? (path : String) : Option FileFault :=
  if '\x00' ∈ path.toList then some .zeroInName
  else if maxPathBytes < path.utf8ByteSize then some .nameTooLong
  else if path = "" then some .notFound
  else none

def decodeText (bytes : ByteArray) : Except FileFault String :=
  match String.fromUTF8? bytes with
  | some text => .ok text
  | none => .error .notText

end Lisplet
