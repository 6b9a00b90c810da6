/-
Printing and reading.  The readable text of a form is a text of the grammar for
that form, so that reading gives the form back; and whatever has been read can
be printed and read again.
-/
import Lisplet.Proofs.ReaderGrammar
import Lisplet.Value.Text

namespace Lisplet

/-- Does the name of a symbol stand for that symbol in a text? -/
structure IsName (name : String) : Prop where
  nonempty : name ≠ ""
  chars : ∀ c ∈ name.toList, isTokenChar c = true
  initial : ∀ c, name.toList.head? = some c → c ∉ notInitial
  word : name.toList ∉ words
  integer : ∀ n, ¬ IntegerText name.toList n

theorem isName_iff {name : String} :
    IsName name ↔ name ≠ "" ∧ name.toList.all isTokenChar = true ∧
      name.toList.head?.all (fun c => !notInitial.contains c) = true ∧
      name.toList ∉ words ∧ ofDecimal? name.toList = none := by
  rw [List.all_eq_true, Option.all_eq_true, ofDecimal?_eq_none_iff]
  constructor
  · intro h
    refine ⟨h.nonempty, h.chars, fun c hc => ?_, h.word, h.integer⟩
    simpa using h.initial c hc
  · rintro ⟨hne, hchars, hinitial, hword, hinteger⟩
    refine ⟨hne, hchars, fun c hc => ?_, hword, hinteger⟩
    simpa using hinitial c hc

instance (name : String) : Decidable (IsName name) :=
  decidable_of_iff _ isName_iff.symm

mutual

/-- The form is built of what texts can say, and nests at most so many levels,
of which a form without items takes one. -/
inductive Readable : (levels : Nat) → Value → Prop
  | nil {levels} : Readable (levels + 1) .nil
  | bool {levels truth} : Readable (levels + 1) (.bool truth)
  | number {levels word} : Readable (levels + 1) (.number word)
  | string {levels text} : Readable (levels + 1) (.string text)
  | symbol {levels name} (hname : IsName name) : Readable (levels + 1) (.symbol name)
  | list {levels items} (hitems : ReadableItems levels items) :
      Readable (levels + 1) (.list items)
  | vector {levels items} (hitems : ReadableItems levels items) :
      Readable (levels + 1) (.vector items)
  | map {levels entries} (heven : entries.length % 2 = 0)
      (hentries : ReadableItems levels entries) : Readable (levels + 1) (.map entries)

inductive ReadableItems : (levels : Nat) → List Value → Prop
  | nil {levels} : ReadableItems levels []
  | cons {levels item items} (hitem : Readable levels item)
      (hitems : ReadableItems levels items) : ReadableItems levels (item :: items)

end

/-- The characters of an integer belong to tokens, also at their beginning. -/
theorem IntegerText.tokenChars {chars : List Char} {n : Int} (h : IntegerText chars n) :
    chars ≠ [] ∧ ∀ c ∈ chars, isTokenChar c = true ∧ c ∉ notInitial := by
  have hdigit : ∀ digit < 10, isTokenChar digit.digitChar = true ∧
      digit.digitChar ∉ notInitial := by decide
  have hdigits : ∀ {digits : List Char} {n : Nat}, Digits digits n →
      digits ≠ [] ∧ ∀ c ∈ digits, isTokenChar c = true ∧ c ∉ notInitial := by
    intro digits n h
    refine ⟨by cases h <;> simp, fun c hc => ?_⟩
    obtain ⟨digit, hlt, rfl⟩ := exists_digitChar (List.all_eq_true.mp h.all_isDigit c hc)
    exact hdigit digit hlt
  cases h with
  | plain h => exact hdigits h
  | minus h =>
      refine ⟨List.cons_ne_nil _ _, fun c hc => ?_⟩
      rcases List.mem_cons.mp hc with rfl | hc
      · decide
      · exact (hdigits h).2 c hc

/-- What comes next ends a token. -/
def EndsToken (next : List Char) : Prop :=
  ∀ c, next.head? = some c → isTokenChar c = false

theorem reads_token {level : Nat} {chars next : List Char} {value : Value}
    (hlevel : level < maxNesting) (hne : chars ≠ [])
    (hchars : ∀ c ∈ chars, isTokenChar c = true)
    (hinitial : ∀ c, chars.head? = some c → c ∉ notInitial) (hnext : EndsToken next)
    (hvalue : Token chars value) : Reads Token level chars value next := by
  rcases chars with _ | ⟨c, chars⟩
  · exact (hne rfl).elim
  · exact .token hlevel (hinitial c rfl) hchars hnext hvalue

/-- Of some tokens every character could be the first. -/
theorem reads_plain_token {level : Nat} {chars next : List Char} {value : Value}
    (hlevel : level < maxNesting)
    (hchars : chars ≠ [] ∧ ∀ c ∈ chars, isTokenChar c = true ∧ c ∉ notInitial)
    (hnext : EndsToken next) (hvalue : Token chars value) :
    Reads Token level chars value next := by
  obtain ⟨hne, hchars⟩ := hchars
  refine reads_token hlevel hne (fun c hc => (hchars c hc).1) (fun c hc => ?_) hnext hvalue
  exact (hchars c (List.mem_of_mem_head? hc)).2

theorem word_chars {chars : List Char} (h : chars ∈ words) :
    chars ≠ [] ∧ ∀ c ∈ chars, isTokenChar c = true ∧ c ∉ notInitial := by
  have hall : ∀ chars ∈ words, chars ≠ [] ∧
      chars.all (fun c => isTokenChar c && !notInitial.contains c) = true := by decide
  obtain ⟨hne, hchars⟩ := hall chars h
  refine ⟨hne, fun c hc => ?_⟩
  simpa using List.all_eq_true.mp hchars c hc

/-- What is written between quotes stands for the text. -/
theorem stringBody_escaped (chars : List Char) : StringBody (chars.flatMap escapeChar) chars := by
  induction chars with
  | nil => exact .nil
  | cons c chars ih =>
      rw [List.flatMap_cons, escapeChar.eq_def]
      split
      · exact .quote ih
      · exact .backslash ih
      · exact .newline ih
      · next hquote hbackslash hnewline => exact .plain hquote hbackslash ih

/-- A blank more between the forms makes no difference. -/
theorem ReadsItems.blank {token : List Char → Value → Prop} {level : Nat}
    {text next : List Char} {items : List Value} (h : ReadsItems token level text items next) :
    ReadsItems token level (' ' :: text) items next := by
  have hblank : isBlank ' ' = true ∨ ' ' = ',' := .inl (by decide)
  cases h with
  | nil hgap => exact .nil (.blank hblank hgap)
  | cons hgap hitem hitems => exact .cons (.blank hblank hgap) hitem hitems

section Printing

variable (cellText : Nat → Rendering)

def printed (form : Value) : Option (List Char) :=
  (form.write .readable cellText "").map String.toList

def printedItems (items : List Value) : Option (List Char) :=
  (Value.writeItems .readable cellText "" items).map String.toList

theorem printed_sequence {items : List Value} {chars : List Char}
    (h : printedItems cellText items = some chars) :
    printed cellText (.list items) = some ('(' :: (chars ++ [')'])) ∧
    printed cellText (.vector items) = some ('[' :: (chars ++ [']'])) ∧
    printed cellText (.map items) = some ('\x7b' :: (chars ++ ['\x7d'])) := by
  obtain ⟨text, htext, rfl⟩ := Option.map_eq_some_iff.mp h
  simp only [printed, Value.write]
  rw [Value.writeItems_eq _ _ ("".push '('), Value.writeItems_eq _ _ ("".push '['),
    Value.writeItems_eq _ _ ("".push '\x7b'), htext]
  simp

theorem printedItems_nil : printedItems cellText [] = some [] := by
  simp [printedItems, Value.writeItems]

theorem printedItems_singleton (item : Value) :
    printedItems cellText [item] = printed cellText item := by
  rw [printedItems, Value.writeItems, printed]

theorem printedItems_cons {item next : Value} {items : List Value} {first others : List Char}
    (hfirst : printed cellText item = some first)
    (hothers : printedItems cellText (next :: items) = some others) :
    printedItems cellText (item :: next :: items) = some (first ++ ' ' :: others) := by
  obtain ⟨text, htext, rfl⟩ := Option.map_eq_some_iff.mp hfirst
  obtain ⟨rest, hrest, rfl⟩ := Option.map_eq_some_iff.mp hothers
  rw [printedItems, Value.writeItems, htext, Option.bind_some, Value.writeItems_eq, hrest]
  simp

theorem printed_bool (truth : Bool) :
    printed cellText (.bool truth) = some (if truth then "true".toList else "false".toList) := by
  cases truth <;> simp [printed, Value.write]

theorem printed_nil : printed cellText .nil = some "nil".toList := by
  simp [printed, Value.write]

theorem printed_number (word : Int64) :
    printed cellText (.number word) = some (decimal word.toInt) := by
  simp [printed, Value.write]

theorem printed_symbol (name : String) : printed cellText (.symbol name) = some name.toList := by
  simp [printed, Value.write]

theorem printed_string (text : String) :
    printed cellText (.string text) =
      some ('"' :: (text.toList.flatMap escapeChar ++ ['"'])) := by
  simp [printed, Value.write, quoted]

mutual

/-- A readable form prints as a text of the grammar for it, wherever there are
levels enough and nothing follows that a token at the end would take in. -/
theorem Readable.reads_printed {levels level : Nat} {form : Value} {next : List Char}
    (h : Readable levels form) (hroom : level + levels ≤ maxNesting) (hnext : EndsToken next) :
    ∃ chars, printed cellText form = some chars ∧ Reads Token level chars form next := by
  match h with
  | .nil =>
      refine ⟨_, printed_nil cellText, ?_⟩
      exact reads_plain_token (by omega) (word_chars (by decide)) hnext .nil
  | @Readable.bool _ true =>
      refine ⟨_, printed_bool cellText true, ?_⟩
      exact reads_plain_token (by omega) (word_chars (by decide)) hnext .true
  | @Readable.bool _ false =>
      refine ⟨_, printed_bool cellText false, ?_⟩
      exact reads_plain_token (by omega) (word_chars (by decide)) hnext .false
  | @Readable.number _ word =>
      have hinteger := ofDecimal?_eq_some_iff.mp (ofDecimal?_decimal word.toInt)
      refine ⟨_, printed_number cellText word, ?_⟩
      exact reads_plain_token (by omega) hinteger.tokenChars hnext (.number hinteger)
  | @Readable.string _ text =>
      have hread : Reads Token level _ (.string (.ofList text.toList)) next :=
        .string (by omega) (stringBody_escaped text.toList)
      rw [String.ofList_toList] at hread
      exact ⟨_, printed_string cellText text, hread⟩
  | @Readable.symbol _ name hname =>
      have hvalue := Token.symbol hname.word hname.integer
      rw [String.ofList_toList] at hvalue
      refine ⟨_, printed_symbol cellText name, ?_⟩
      refine reads_token (by omega) ?_ hname.chars hname.initial hnext hvalue
      exact fun hempty => hname.nonempty (String.toList_eq_nil_iff.mp hempty)
  | .list hitems =>
      obtain ⟨_, hprinted, hread⟩ :=
        hitems.reads_printed (level + 1) ')' next (by omega) (by decide)
      exact ⟨_, (printed_sequence cellText hprinted).1, .bracketed (by omega) .list hread⟩
  | .vector hitems =>
      obtain ⟨_, hprinted, hread⟩ :=
        hitems.reads_printed (level + 1) ']' next (by omega) (by decide)
      exact ⟨_, (printed_sequence cellText hprinted).2.1, .bracketed (by omega) .vector hread⟩
  | .map heven hentries =>
      obtain ⟨_, hprinted, hread⟩ :=
        hentries.reads_printed (level + 1) '\x7d' next (by omega) (by decide)
      exact ⟨_, (printed_sequence cellText hprinted).2.2, .bracketed (by omega) (.map heven) hread⟩

theorem ReadableItems.reads_printed {levels : Nat} {items : List Value} (level : Nat)
    (closer : Char) (rest : List Char) (h : ReadableItems levels items) (hroom : level + levels ≤ maxNesting)
    (hcloser : isTokenChar closer = false) :
    ∃ chars, printedItems cellText items = some chars ∧
      ReadsItems Token level chars items (closer :: rest) := by
  match h with
  | .nil => exact ⟨_, printedItems_nil cellText, .nil .nil⟩
  | @ReadableItems.cons _ item items hitem hitems =>
      obtain ⟨others, hothers, hrest⟩ : ∃ chars, printedItems cellText items = some chars ∧
          ReadsItems Token level chars items (closer :: rest) :=
        hitems.reads_printed level closer rest hroom hcloser
      rcases items with _ | ⟨next, items⟩
      · have hnext : EndsToken (closer :: rest) := by
          intro c hc
          cases hc
          exact hcloser
        obtain ⟨first, hfirst, hread⟩ := hitem.reads_printed hroom hnext
        refine ⟨first, (printedItems_singleton cellText item).trans hfirst, ?_⟩
        rw [← List.append_nil first]
        exact .cons .nil hread (.nil .nil)
      · have hnext : EndsToken (' ' :: others ++ closer :: rest) := by
          intro c hc
          cases hc
          decide
        obtain ⟨first, hfirst, hread⟩ := hitem.reads_printed hroom hnext
        exact ⟨_, printedItems_cons cellText hfirst hothers, .cons .nil hread hrest.blank⟩

end

end Printing

/-- The names that marks stand for are names of symbols. -/
theorem Mark.isName {mark : List Char} {name : String} (h : Mark mark name) : IsName name := by
  cases h <;> decide

theorem readable_of_token {chars : List Char} {c : Char} {rest : List Char} {value : Value}
    (h : Token chars value) (hchars : chars = c :: rest) (hinitial : c ∉ notInitial)
    (htoken : ∀ d ∈ chars, isTokenChar d = true) (levels : Nat) :
    Readable (levels + 1) value := by
  cases h with
  | nil => exact .nil
  | true | false => exact .bool
  | number hinteger => exact .number
  | symbol hword hinteger =>
      have hname : (String.ofList chars).toList = chars := String.toList_ofList
      refine .symbol ⟨?_, ?_, ?_, ?_, ?_⟩
      · rw [Ne, ← String.toList_eq_nil_iff, hname, hchars]
        exact List.cons_ne_nil c rest
      · rwa [hname]
      · intro d hd
        rw [hname, hchars] at hd
        cases hd
        exact hinitial
      · rwa [hname]
      · rwa [hname]

mutual

/-- A form that the grammar reads is readable within the levels that are left. -/
theorem Reads.readable {level levels : Nat} {text next : List Char} {form : Value}
    (h : Reads Token level text form next) (hroom : level + levels = maxNesting) :
    Readable levels form := by
  obtain ⟨levels, rfl⟩ : ∃ below, levels = below + 1 := by
    have hlevel := h.level_lt
    exact ⟨levels - 1, by omega⟩
  match h with
  | .token hlevel hinitial hchars hmaximal hvalue =>
      exact readable_of_token hvalue rfl hinitial hchars levels
  | .string hlevel hbody => exact .string
  | .bracketed hlevel hbracket hitems =>
      have hreadable : ReadableItems levels _ := hitems.readable (by omega)
      cases hbracket with
      | list => exact .list hreadable
      | vector => exact .vector hreadable
      | map heven => exact .map heven hreadable
  | .marked hlevel hmark hprefer hgap hinner =>
      have hreadable : Readable levels _ := hinner.readable (by omega)
      obtain ⟨below, rfl⟩ : ∃ below, levels = below + 1 := by
        have hlevel' := hinner.level_lt
        exact ⟨levels - 1, by omega⟩
      exact .list (.cons (.symbol hmark.isName) (.cons hreadable .nil))

theorem ReadsItems.readable {level levels : Nat} {text next : List Char} {items : List Value}
    (h : ReadsItems Token level text items next) (hroom : level + levels = maxNesting) :
    ReadableItems levels items := by
  match h with
  | .nil hgap => exact .nil
  | .cons hgap hitem hitems => exact .cons (hitem.readable hroom) (hitems.readable hroom)

end

/-- A readable form has a readable text, which is read as that form. -/
theorem readWhole_text (m : Machine) {form : Value} (h : Readable maxNesting form) :
    ∃ text, m.text .readable form = some text ∧ readWhole text = .ok form := by
  have hnext : EndsToken [] := by
    intro c hc
    cases hc
  obtain ⟨chars, hprinted, hreads⟩ :=
    h.reads_printed (m.cellText .readable (m.cells.size + 1)) (Nat.zero_add _).le hnext
  obtain ⟨text, htext, rfl⟩ := Option.map_eq_some_iff.mp hprinted
  refine ⟨text, htext, readWhole_eq_ok_iff.mpr ⟨[], _, [], ?_, .nil, hreads, .nil⟩⟩
  rw [List.nil_append, List.append_nil]

theorem readable_of_readWhole {text : String} {form : Value} (h : readWhole text = .ok form) :
    Readable maxNesting form := by
  obtain ⟨before, inner, after, -, -, hinner, -⟩ := readWhole_eq_ok_iff.mp h
  exact hinner.readable (Nat.zero_add _)

/-- Printing a readable form and reading the text gives the form back, item by
item and bracket by bracket; and every form that has been read is readable. -/
theorem reading_undoes_printing (m : Machine) :
    (∀ form, Readable maxNesting form →
      ∃ text, m.text .readable form = some text ∧ readWhole text = .ok form) ∧
    ∀ text form, readWhole text = .ok form → Readable maxNesting form ∧
      ∃ printed, m.text .readable form = some printed ∧ readWhole printed = .ok form := by
  constructor
  · intro form hform
    exact readWhole_text m hform
  · intro text form hread
    have hform := readable_of_readWhole hread
    exact ⟨hform, readWhole_text m hform⟩

def nestedForm : Value :=
  .map [.string "a\"\n", .list [.symbol "+", .number (-5), .vector []]]

theorem reading_undoes_printing_nestedForm :
    Readable maxNesting nestedForm ∧ ∃ text,
      (Machine.fresh noFiles).text .readable nestedForm = some text ∧
        readWhole text = .ok nestedForm := by
  have hlist : Readable (maxNesting - 1) (.list [.symbol "+", .number (-5), .vector []]) :=
    .list (.cons (.symbol (by decide)) (.cons .number (.cons (.vector .nil) .nil)))
  have hform : Readable maxNesting nestedForm :=
    .map rfl (.cons .string (.cons hlist .nil))
  exact ⟨hform, (reading_undoes_printing (Machine.fresh noFiles)).1 nestedForm hform⟩

end Lisplet
