/-
Quoted text: a string literal between double quotes.  Quotes, backslashes and
line feeds are written with a backslash before them; every other character
stands for itself.
-/

namespace Lisplet

def escapeChar : Char → List Char
  | '"' => ['\\', '"']
  | '\\' => ['\\', '\\']
  | '\n' => ['\\', 'n']
  | c => [c]

/-- The character that a backslash and this character stand for. -/
def unescapeChar? : Char → Option Char
  | 'n' => some '\n'
  | '\\' => some '\\'
  | '"' => some '"'
  | _ => none

def quoted (text : String) : String :=
  .ofList ('"' :: text.toList.flatMap escapeChar ++ ['"'])

example : quoted "a\"b\\c\nd" = "\"a\\\"b\\\\c\\nd\"" := by decide

end Lisplet
