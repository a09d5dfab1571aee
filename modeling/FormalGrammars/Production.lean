import FormalGrammars.Symbol.Reading

/-!
# Productions and their shapes

A production rewrites its left side to its right side.  Most of the theory is
about productions with a single variable on the left, the head; the shape
predicates are false of all others.
-/

namespace FormalGrammars

/-- The variable that makes up a form on its own. -/
def Form.soleVariable? : Form → Option Symbol
  | [s] => if s.isVar then some s else none
  | _ => none

structure Production where
  lhs : Form
  rhs : Form
  deriving DecidableEq, Ord, Hashable, Repr, Inhabited

namespace Production

def rule (head : Symbol) (rhs : Form) : Production := ⟨[head], rhs⟩

/-- Reads both sides; the right one may be spelled as a lambda. -/
def read (convention : Convention) (lhs rhs : List Char) : Production :=
  ⟨convention.readForm lhs, convention.readRightSide rhs⟩

/-- The variable on the left, when it stands there alone. -/
def head? (p : Production) : Option Symbol :=
  Form.soleVariable? p.lhs

def hasHead (p : Production) : Bool :=
  p.head?.isSome

def withHead (p : Production) (head : Symbol) : Production :=
  rule head p.rhs

def symbols (p : Production) : Form :=
  p.lhs ++ p.rhs

def text (p : Production) : String :=
  Form.text p.lhs ++ " → " ++ Form.text p.rhs

theorem head?_eq_some_iff {p : Production} {s : Symbol} :
    p.head? = some s ↔ p.lhs = [s] ∧ s.isVar = true := by
  unfold head? Form.soleVariable?
  split
  next t hlhs =>
    rw [hlhs]
    split
    next hvar =>
      simp only [Option.some.injEq, List.cons.injEq, and_true]
      exact ⟨fun h => ⟨h, h ▸ hvar⟩, And.left⟩
    next hvar =>
      simp only [List.cons.injEq, and_true, reduceCtorEq, false_iff]
      rintro ⟨rfl, hs⟩
      exact hvar hs
  next hlhs =>
    simp only [reduceCtorEq, false_iff, not_and]
    exact fun h => (hlhs s h).elim

/-- A production with a head is determined by the head and the right side. -/
theorem eq_rule_of_head? {p : Production} {s : Symbol} (hhead : p.head? = some s) :
    p = rule s p.rhs := by
  obtain ⟨hlhs, _⟩ := head?_eq_some_iff.mp hhead
  cases p
  simp_all [rule]

theorem head?_rule {s : Symbol} (hvar : s.isVar = true) (rhs : Form) :
    (rule s rhs).head? = some s :=
  head?_eq_some_iff.mpr ⟨rfl, hvar⟩

theorem symbols_eq_cons {p : Production} {s : Symbol} (hhead : p.head? = some s) :
    p.symbols = s :: p.rhs := by
  rw [symbols, (head?_eq_some_iff.mp hhead).1]
  rfl

theorem head_mem_symbols {p : Production} {s : Symbol} (hhead : p.head? = some s) :
    s ∈ p.symbols := by
  rw [symbols_eq_cons hhead]
  exact List.mem_cons_self

/-! ## Shapes -/

/-- `A → λ`. -/
def isLambda (p : Production) : Bool :=
  p.hasHead && p.rhs.isEmpty

/-- `A → B`. -/
def isUnit (p : Production) : Bool :=
  p.hasHead && match p.rhs with
    | [s] => s.isVar
    | _ => false

/-- At most one variable on the right, and that one at the end. -/
def isRightLinear (p : Production) : Bool :=
  p.hasHead && p.rhs.dropLast.all Symbol.isTerm

/-- At most one variable on the right, and that one in front. -/
def isLeftLinear (p : Production) : Bool :=
  p.hasHead && p.rhs.tail.all Symbol.isTerm

def isLinear (p : Production) : Bool :=
  p.isLeftLinear || p.isRightLinear

def hasTerminalOnRight (p : Production) : Bool :=
  p.hasHead && p.rhs.any Symbol.isTerm

/-- `A → BC` or `A → a`. -/
def isChomsky (p : Production) : Bool :=
  p.hasHead && match p.rhs with
    | [s] => s.isTerm
    | [s, t] => s.isVar && t.isVar
    | _ => false

theorem hasHead_of_isChomsky {p : Production} (hp : p.isChomsky = true) : p.hasHead = true := by
  rw [isChomsky, Bool.and_eq_true] at hp
  exact hp.1

/-- What stands between a production and Chomsky normal form: the first
obstacle in the order of the constructors. -/
inductive Shape where
  | unrestricted
  | lambda
  | unit
  /-- There is none. -/
  | chomsky
  /-- A terminal stands beside other symbols. -/
  | mixed
  /-- Three or more variables. -/
  | long
  deriving DecidableEq, Repr

def shape (p : Production) : Shape :=
  if !p.hasHead then .unrestricted
  else if p.isLambda then .lambda
  else if p.isUnit then .unit
  else if p.isChomsky then .chomsky
  else if p.hasTerminalOnRight then .mixed
  else .long

end Production

end FormalGrammars
