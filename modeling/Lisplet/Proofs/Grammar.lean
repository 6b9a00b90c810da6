/-
The grammar of forms, apart from any way of reading them.  Texts are lists of
characters.  Where a text ends depends on what comes next, a token being as long
as it can be and a comment as long as its line, so that the relations below say
which text stands there and which text follows it.
-/
import Lisplet.Reading

namespace Lisplet

/-- A text of separators: blanks, commas, and comments that reach to the end of
their line or of the whole text. -/
inductive Separators : (text next : List Char) → Prop
  | nil {next} : Separators [] next
  | blank {c text next} (hc : isBlank c = true ∨ c = ',') (htext : Separators text next) :
      Separators (c :: text) next
  | comment {body text next} (hbody : '\n' ∉ body)
      (hend : ∀ c, (text ++ next).head? = some c → c = '\n') (htext : Separators text next) :
      Separators (';' :: (body ++ text)) next

/-- What stands between the quotes of a string, and the characters it stands for. -/
inductive StringBody : (body chars : List Char) → Prop
  | nil : StringBody [] []
  | plain {c body chars} (hquote : c ≠ '"') (hbackslash : c ≠ '\\')
      (hbody : StringBody body chars) : StringBody (c :: body) (c :: chars)
  | newline {body chars} (hbody : StringBody body chars) :
      StringBody ('\\' :: 'n' :: body) ('\n' :: chars)
  | backslash {body chars} (hbody : StringBody body chars) :
      StringBody ('\\' :: '\\' :: body) ('\\' :: chars)
  | quote {body chars} (hbody : StringBody body chars) :
      StringBody ('\\' :: '"' :: body) ('"' :: chars)

/-- A row of decimal digits and the natural number that it denotes. -/
inductive Digits : List Char → Nat → Prop
  | one {digit} (hdigit : digit < 10) : Digits [digit.digitChar] digit
  | snoc {digits n digit} (hdigits : Digits digits n) (hdigit : digit < 10) :
      Digits (digits ++ [digit.digitChar]) (10 * n + digit)

/-- The form `-?[0-9]+`, and the integer that it denotes. -/
inductive IntegerText : List Char → Int → Prop
  | plain {digits n} (hdigits : Digits digits n) : IntegerText digits n
  | minus {digits n} (hdigits : Digits digits n) : IntegerText ('-' :: digits) (-n)

def words : List (List Char) := ["nil".toList, "true".toList, "false".toList]

/-- What a token denotes: one of three words, a number whose integer it is, or a
symbol.  An integer beyond the range of numbers denotes nothing. -/
inductive Token : List Char → Value → Prop
  | nil : Token "nil".toList .nil
  | true : Token "true".toList (.bool true)
  | false : Token "false".toList (.bool false)
  | number {chars word} (hinteger : IntegerText chars word.toInt) : Token chars (.number word)
  | symbol {chars} (hword : chars ∉ words) (hinteger : ∀ n, ¬ IntegerText chars n) :
      Token chars (.symbol (.ofList chars))

/-- The brackets around the items of a sequence. -/
inductive Bracket : (opener closer : Char) → (items : List Value) → (form : Value) → Prop
  | list {items} : Bracket '(' ')' items (.list items)
  | vector {items} : Bracket '[' ']' items (.vector items)
  | map {items} (heven : items.length % 2 = 0) : Bracket '\x7b' '\x7d' items (.map items)

/-- The marks that may stand before a form, and the names they stand for. -/
inductive Mark : List Char → String → Prop
  | quote : Mark ['\''] "quote"
  | quasiquote : Mark ['\x60'] "quasiquote"
  | unquote : Mark ['~'] "unquote"
  | spliceUnquote : Mark ['~', '@'] "splice-unquote"
  | deref : Mark ['@'] "deref"

/-- The characters that begin a mark, or what forms cannot begin with, although
they can be part of a token. -/
def notInitial : List Char := ['~', '@', '^']

variable (token : List Char → Value → Prop)

mutual

/-- At a level of nesting the text reads as the form, if tokens denote what
`token` says and the other text comes next. -/
inductive Reads : (level : Nat) → (text : List Char) → Value → (next : List Char) → Prop
  | token {level c chars value next} (hlevel : level < maxNesting)
      (hinitial : c ∉ notInitial) (hchars : ∀ d ∈ c :: chars, isTokenChar d = true)
      (hmaximal : ∀ d, next.head? = some d → isTokenChar d = false)
      (hvalue : token (c :: chars) value) : Reads level (c :: chars) value next
  | string {level body chars next} (hlevel : level < maxNesting)
      (hbody : StringBody body chars) :
      Reads level ('"' :: (body ++ ['"'])) (.string (.ofList chars)) next
  | bracketed {level opener closer body items form next} (hlevel : level < maxNesting)
      (hbracket : Bracket opener closer items form)
      (hitems : ReadsItems (level + 1) body items (closer :: next)) :
      Reads level (opener :: (body ++ [closer])) form next
  /-- The mark of two characters is preferred to the one that it begins with. -/
  | marked {level mark name gap text form next} (hlevel : level < maxNesting)
      (hmark : Mark mark name)
      (hprefer : mark = ['~'] → (gap ++ text).head? ≠ some '@')
      (hgap : Separators gap (text ++ next)) (hform : Reads (level + 1) text form next) :
      Reads level (mark ++ (gap ++ text)) (.list [.symbol name, form]) next

/-- The text reads as forms with separators around them. -/
inductive ReadsItems : (level : Nat) → (text : List Char) → List Value → (next : List Char) → Prop
  | nil {level gap next} (hgap : Separators gap next) : ReadsItems level gap [] next
  | cons {level gap text body item items next} (hgap : Separators gap (text ++ (body ++ next)))
      (hitem : Reads level text item (body ++ next))
      (hitems : ReadsItems level body items next) :
      ReadsItems level (gap ++ (text ++ body)) (item :: items) next

end

/-- The whole text is separators, a form at the outermost level, and separators. -/
def IsTextOf (text : List Char) (form : Value) : Prop :=
  ∃ before inner after, text = before ++ (inner ++ after) ∧ Separators before (inner ++ after) ∧
    Reads token 0 inner form after ∧ Separators after []

end Lisplet
