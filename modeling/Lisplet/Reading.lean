/-
Reading: from text to forms.  A form is an atom, a string, a bracketed sequence
or a shorthand such as `'x`; blanks, commas and comments separate forms.  The
functions below take the characters that are left and return, with what they
have read, the characters that follow it; on failure they return the fault and
the characters from where it was noticed, which is how its position is known.
-/
import Lisplet.ReadError
import Lisplet.Text.Blank
import Lisplet.Text.Decimal
import Lisplet.Text.Quoted
import Lisplet.Value

namespace Lisplet

def maxNesting : Nat := 256

inductive ReadFault where
  | unexpectedEnd
  | unclosedString
  | unknownEscape
  | unexpectedCloser
  | unpairedMap
  | tooDeep
  | integerOutOfRange
  | metadata
deriving DecidableEq

/-- Where reading stopped, and why. -/
structure Stuck where
  fault : ReadFault
  rest : List Char
deriving DecidableEq

/-- What has been read and the characters after it, or where reading stopped. -/
abbrev Reading (α : Type) := Except Stuck (α × List Char)

mutual

def skipSeparators : List Char → List Char
  | [] => []
  | c :: chars =>
      if isBlank c || c == ',' then skipSeparators chars
      else if c = ';' then skipComment chars
      else c :: chars

/-- Skip to the end of the line, and the separators after it. -/
def skipComment : List Char → List Char
  | [] => []
  | c :: chars => if c = '\n' then skipSeparators chars else skipComment chars

end

/-- The characters that end a token, besides blanks. -/
def delimiters : List Char := "[]\x7b\x7d()'\"`,;".toList

def isTokenChar (c : Char) : Bool :=
  !isBlank c && !delimiters.contains c

/-- The value that a token denotes: a word with a meaning of its own, an integer
if it looks like one, else a symbol.  An integer out of range denotes nothing. -/
def ofToken? (token : List Char) : Option Value :=
  if token = "nil".toList then some .nil
  else if token = "true".toList then some (.bool true)
  else if token = "false".toList then some (.bool false)
  else
    match ofDecimal? token with
    | some n => (int64? n).map .number
    | none => some (.symbol (.ofList token))

/-- Read the longest token at the front of `chars`. -/
def readToken (chars : List Char) : Reading Value :=
  match ofToken? (chars.takeWhile isTokenChar) with
  | some value => .ok (value, chars.dropWhile isTokenChar)
  | none => .error ⟨.integerOutOfRange, chars⟩

/-- Read the inside of a string up to its closing quote.  `opening` is the rest
of the text from the opening quote on, and `text` what has been read so far. -/
def readString (opening : List Char) (text : String) : List Char → Reading Value
  | [] => .error ⟨.unclosedString, opening⟩
  | '"' :: rest => .ok (.string text, rest)
  | ['\\'] => .error ⟨.unclosedString, opening⟩
  | '\\' :: escaped :: rest =>
      match unescapeChar? escaped with
      | some c => readString opening (text.push c) rest
      | none => .error ⟨.unknownEscape, '\\' :: escaped :: rest⟩
  | c :: rest => readString opening (text.push c) rest

/-- Read forms up to the closing bracket.  `items` holds the forms read so far,
the last one first.  Each form takes a character at least, so that as many
steps as there are characters, and one more, are always enough. -/
def readItems (form : List Char → Reading Value) (closer : Char) :
    Nat → List Value → List Char → Reading (List Value)
  | 0, _, chars => .error ⟨.unexpectedEnd, chars⟩
  | steps + 1, items, chars =>
      match skipSeparators chars with
      | [] => .error ⟨.unexpectedEnd, []⟩
      | c :: rest =>
          if c = closer then .ok (items.reverse, rest)
          else
            match form (c :: rest) with
            | .ok (item, rest) => readItems form closer steps (item :: items) rest
            | .error stuck => .error stuck

def reading (make : α → β) : Reading α → Reading β
  | .ok (a, rest) => .ok (make a, rest)
  | .error stuck => .error stuck

/-- The form that a shorthand before `form` stands for. -/
def shorthand (name : String) (form : Value) : Value :=
  .list [.symbol name, form]

/-- The map with these entries, if they come in pairs.  `opening` is the rest of
the text from the opening brace on. -/
def pairedMap (opening : List Char) : Reading (List Value) → Reading Value
  | .ok (entries, rest) =>
      if entries.length % 2 = 0 then .ok (.map entries, rest)
      else .error ⟨.unpairedMap, opening⟩
  | .error stuck => .error stuck

def readAtom : List Char → Reading Value
  | [] => .error ⟨.unexpectedEnd, []⟩
  | '"' :: rest => readString ('"' :: rest) "" rest
  | c :: rest =>
      if c = ')' ∨ c = ']' ∨ c = '\x7d' then .error ⟨.unexpectedCloser, c :: rest⟩
      else if c = '^' then .error ⟨.metadata, c :: rest⟩
      else readToken (c :: rest)

/-- Read the form at the front of `chars`, at most `levels` levels deep. -/
def readForm (steps : Nat) : Nat → List Char → Reading Value
  | 0, chars => .error ⟨.tooDeep, chars⟩
  | levels + 1, chars =>
      match skipSeparators chars with
      | '(' :: rest => reading .list (readItems (readForm steps levels) ')' steps [] rest)
      | '[' :: rest => reading .vector (readItems (readForm steps levels) ']' steps [] rest)
      | '\x7b' :: rest =>
          pairedMap ('\x7b' :: rest) (readItems (readForm steps levels) '\x7d' steps [] rest)
      | '\'' :: rest => reading (shorthand "quote") (readForm steps levels rest)
      | '\x60' :: rest => reading (shorthand "quasiquote") (readForm steps levels rest)
      | '~' :: '@' :: rest => reading (shorthand "splice-unquote") (readForm steps levels rest)
      | '~' :: rest => reading (shorthand "unquote") (readForm steps levels rest)
      | '@' :: rest => reading (shorthand "deref") (readForm steps levels rest)
      | chars => readAtom chars

def ReadFault.kind : ReadFault → ReadErrorKind
  | unexpectedEnd | unclosedString => .incomplete
  | unknownEscape | unexpectedCloser | unpairedMap => .invalidSyntax
  | tooDeep => .tooDeeplyNested
  | integerOutOfRange => .implementationLimit
  | metadata => .unsupported

def ReadFault.message (offset : Nat) : ReadFault → String
  | unexpectedEnd => "unbalanced: unexpected end of input"
  | unclosedString => "unbalanced string: missing closing '\"'"
  | unknownEscape => "Unknown escape sequence in string at position " ++ toString offset
  | unexpectedCloser => "Unexpected closing delimiter at position " ++ toString offset
  | unpairedMap => "Map literal requires an even number of forms"
  | tooDeep => "Expression too deeply nested (max depth: " ++ toString maxNesting ++ ")"
  | integerOutOfRange => "Integer literal out of range at position " ++ toString offset
  | metadata => "Metadata reader macro '^' is not supported"

/-- The byte offset in `text` of what is left of it. -/
def offsetOf (text : String) (rest : List Char) : Nat :=
  byteLength text.toList - byteLength rest

/-- The error for reading that stopped in `text`. -/
def Stuck.error (text : String) (stuck : Stuck) : ReadError :=
  let offset := offsetOf text stuck.rest
  .atOffset stuck.fault.kind (stuck.fault.message offset) text offset

/-- The first form of a text and the characters after it. -/
def readLeading (text : String) : Except ReadError (Value × List Char) :=
  match skipSeparators text.toList with
  | [] => .error (.ofMessage .noForm "No form to read")
  | chars =>
      match readForm (text.length + 1) maxNesting chars with
      | .ok reading => .ok reading
      | .error stuck => .error (stuck.error text)

/-- The first form of a text, whatever follows it. -/
def readFirst (text : String) : Except ReadError Value :=
  (readLeading text).map Prod.fst

def readWhole (text : String) : Except ReadError Value := do
  let (form, rest) ← readLeading text
  match skipSeparators rest with
  | [] => .ok form
  | rest =>
      let message := "Unexpected remaining input: '" ++ trimEnd (.ofList rest) ++ "'"
      .error (.atOffset .trailingContent message text (offsetOf text rest))

end Lisplet
