/-!
# Symbols and sentential forms

A symbol carries its own kind, so a variable and a terminal of one name are
different symbols.  A sentential form is a list of symbols.
-/

namespace FormalGrammars

/-- A variable or a terminal.  Variables come before terminals in the order of
symbols, and names of one kind are ordered by their characters. -/
inductive Symbol where
  | var (name : String)
  | term (name : String)
  deriving DecidableEq, Ord, Hashable, Repr, Inhabited

namespace Symbol

def name : Symbol → String
  | var name => name
  | term name => name

def isVar : Symbol → Bool
  | var _ => true
  | term _ => false

def isTerm : Symbol → Bool
  | var _ => false
  | term _ => true

theorem isTerm_eq_not_isVar (s : Symbol) : s.isTerm = !s.isVar := by
  cases s <;> rfl

theorem isTerm_eq_false {s : Symbol} (hvar : s.isVar = true) : s.isTerm = false := by
  rw [isTerm_eq_not_isVar, hvar]
  rfl

theorem isTerm_of_isVar_eq_false {s : Symbol} (hvar : s.isVar = false) : s.isTerm = true := by
  rw [isTerm_eq_not_isVar, hvar]
  rfl

theorem isVar_of_isTerm_eq_false {s : Symbol} (hterm : s.isTerm = false) : s.isVar = true := by
  simpa [isTerm_eq_not_isVar] using hterm

theorem not_isVar_of_isTerm {s : Symbol} (hterm : s.isTerm = true) : ¬ s.isVar = true := by
  simpa [isTerm_eq_not_isVar] using hterm

end Symbol

/-- A string of symbols: a side of a production or a step of a derivation. -/
abbrev Form := List Symbol

namespace Form

def isTerminal (form : Form) : Bool :=
  form.all Symbol.isTerm

/-- Names of one character each are written without spaces between them. -/
def isCompact (form : Form) : Bool :=
  form.all fun s => s.name.length == 1

/-- The written form: the names back to back or with single spaces, and a
lambda for the empty form. -/
def text (form : Form) : String :=
  if form.isEmpty then "λ"
  else String.intercalate (if isCompact form then "" else " ") (form.map Symbol.name)

end Form

end FormalGrammars
