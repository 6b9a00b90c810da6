/-
Excerpts: the part of a text that is shown around a position in it.  Positions
count UTF-8 bytes, the width of an excerpt counts characters.
-/

namespace Lisplet

def byteLength (chars : List Char) : Nat :=
  chars.foldr (fun c bytes => c.utf8Size + bytes) 0

/-- How many characters come before a byte offset, and the characters from there
on; nothing when the offset falls inside a character or past the end.  `before`
counts the characters already passed. -/
def splitAtByte? (before offset : Nat) : List Char → Option (Nat × List Char)
  | [] => if offset = 0 then some (before, []) else none
  | c :: chars =>
      if offset = 0 then some (before, c :: chars)
      else if c.utf8Size ≤ offset then
        splitAtByte? (before + 1) (offset - c.utf8Size) chars
      else none

/-- What is shown of a text around an offset, and the character found there. -/
structure Excerpt where
  shown : String
  found : Option Char
deriving DecidableEq

/-- How many characters before the offset an excerpt shows. -/
def excerptLead : Nat := 20

def excerptWidth : Nat := 100

def ellipsis : List Char := "[...]".toList

/-- Write line feeds as `\n` and leave carriage returns out. -/
def onOneLine (chars : List Char) : List Char :=
  chars.flatMap fun c =>
    if c = '\n' then ['\\', 'n'] else if c = '\r' then [] else [c]

/-- The excerpt of a text around a byte offset.  An offset that is no boundary
between characters counts as the end of the text, and nothing is found there. -/
def excerptAround (text : String) (offset : Nat) : Excerpt :=
  let chars := text.toList
  let split := splitAtByte? 0 offset chars
  let before := (split.map Prod.fst).getD chars.length
  let skipped := before - excerptLead
  let window := (chars.drop skipped).take excerptWidth
  let opening := if 0 < skipped then ellipsis else []
  let closing := if skipped + window.length < chars.length then ellipsis else []
  { shown := .ofList (onOneLine (opening ++ window ++ closing))
    found := split.bind fun (_, after) => after.head? }

@[simp] theorem byteLength_nil : byteLength [] = 0 := rfl

@[simp] theorem byteLength_cons (c : Char) (chars : List Char) :
    byteLength (c :: chars) = c.utf8Size + byteLength chars := rfl

@[simp] theorem byteLength_append (front back : List Char) :
    byteLength (front ++ back) = byteLength front + byteLength back := by
  induction front with
  | nil => simp
  | cons c front ih => simp [ih, Nat.add_assoc]

/-- A text splits after any of its beginnings. -/
theorem splitAtByte?_append (before : Nat) (front back : List Char) :
    splitAtByte? before (byteLength front) (front ++ back)
      = some (before + front.length, back) := by
  induction front generalizing before with
  | nil => cases back <;> simp [splitAtByte?]
  | cons c front ih =>
      have hpos := c.utf8Size_pos
      have hne : ¬ c.utf8Size + byteLength front = 0 := by omega
      have hle : c.utf8Size ≤ c.utf8Size + byteLength front := by omega
      have hrest : c.utf8Size + byteLength front - c.utf8Size = byteLength front := by omega
      have hcount : before + 1 + front.length = before + (c :: front).length := by
        simp only [List.length_cons]; omega
      rw [List.cons_append, byteLength_cons, splitAtByte?, if_neg hne, if_pos hle, hrest, ih,
        hcount]

end Lisplet
