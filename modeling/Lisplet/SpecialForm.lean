/-
Special forms: the lists whose operands are not evaluated before the call.  A
special form is recognised by the symbol at its head alone; its operands are
taken apart here, and the lists that cannot be are exactly those whose length
its arity refuses.
-/
import Lisplet.Value

namespace Lisplet

inductive SpecialForm where
  | define
  | defineMacro
  | bind
  | sequence
  | branch
  | function
  | quote
  | quasiquote
  | quasiquoteExpand
  | macroExpand
deriving DecidableEq

/-- A special form with its operands in their places. -/
inductive Special where
  | define (target form : Value)
  | defineMacro (target form : Value)
  | bind (bindings : Value) (body : List Value)
  | sequence (forms : List Value)
  | branch (condition consequent : Value) (alternative : Option Value)
  | function (parameters : Value) (body : List Value)
  | quote (form : Value)
  | quasiquote (template : Value)
  | quasiquoteExpand (template : Value)
  | macroExpand (form : Value)

namespace SpecialForm

def name : SpecialForm → String
  | define => "def!"
  | defineMacro => "defmacro!"
  | bind => "let*"
  | sequence => "do"
  | branch => "if"
  | function => "fn*"
  | quote => "quote"
  | quasiquote => "quasiquote"
  | quasiquoteExpand => "quasiquoteexpand"
  | macroExpand => "macroexpand"

def all : List SpecialForm :=
  [define, defineMacro, bind, sequence, branch, function, quote, quasiquote,
   quasiquoteExpand, macroExpand]

def ofName? (name : String) : Option SpecialForm :=
  all.find? fun form => form.name = name

def arity : SpecialForm → Arity
  | define | defineMacro => .exactly 2
  | bind | function => .atLeast 1
  | sequence => .any
  | branch => .between 2 3
  | quote | quasiquote | quasiquoteExpand | macroExpand => .exactly 1

/-- Put the operands in their places, if there are as many as it takes. -/
def place? : SpecialForm → List Value → Option Special
  | define, [target, form] => some (.define target form)
  | defineMacro, [target, form] => some (.defineMacro target form)
  | bind, bindings :: body => some (.bind bindings body)
  | sequence, forms => some (.sequence forms)
  | branch, [condition, consequent] => some (.branch condition consequent none)
  | branch, [condition, consequent, alternative] =>
      some (.branch condition consequent (some alternative))
  | function, parameters :: body => some (.function parameters body)
  | quote, [form] => some (.quote form)
  | quasiquote, [template] => some (.quasiquote template)
  | quasiquoteExpand, [template] => some (.quasiquoteExpand template)
  | macroExpand, [form] => some (.macroExpand form)
  | _, _ => none

/-- A special form is recognised by its name. -/
@[simp] theorem ofName?_name (form : SpecialForm) : ofName? form.name = some form := by
  cases form <;> decide

end SpecialForm

end Lisplet
