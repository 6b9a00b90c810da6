/-
Blank characters.  A character is blank when it has the Unicode property
`White_Space`; blanks separate forms in a text, and are trimmed from the ends
of an interactive line.
-/

namespace Lisplet

/-- The first and the last code point of each range with the property
`White_Space`. -/
def blankRanges : List (Nat × Nat) :=
  [(0x0009, 0x000D), (0x0020, 0x0020), (0x0085, 0x0085), (0x00A0, 0x00A0),
   (0x1680, 0x1680), (0x2000, 0x200A), (0x2028, 0x2029), (0x202F, 0x202F),
   (0x205F, 0x205F), (0x3000, 0x3000)]

def isBlank (c : Char) : Bool :=
  blankRanges.any fun (first, last) => first ≤ c.toNat && c.toNat ≤ last

def trimEnd (text : String) : String :=
  .ofList (text.toList.reverse.dropWhile isBlank).reverse

def trim (text : String) : String :=
  trimEnd (.ofList (text.toList.dropWhile isBlank))

example : isBlank '\u3000' = true ∧ isBlank '\u200b' = false := by decide

end Lisplet
