import FormalGrammars.Derivation.History
import FormalGrammars.Derivation.Options
import FormalGrammars.Iteration
import FormalGrammars.Pacing
import FormalGrammars.Search.Yield

/-!
# Breadth-first search for a derivation

The search derives forms from the start, the oldest first, until one of them is
the target.  No form enters the history twice, and forms that cannot lead to
the target are left out.

When all productions have a head, only leftmost derivations are followed, and a
form is left out when its shortest yield is too long or when the terminals at
one of its ends disagree with the target.  Otherwise steps are taken at every
place, and a form is left out only when it is too long and no production makes
a form shorter.

The shortest yields are counted by machine numbers, so where a sum overflows, a
form with long yields may not be left out.

The history may grow without end, so each new form needs the leave of a guard.
-/

namespace FormalGrammars

structure SearchPlan where
  grammar : Grammar
  target : Form
  /-- Only leftmost derivations are followed. -/
  leftmost : Bool
  /-- No production makes a form shorter. -/
  monotone : Bool
  counting : Counting
  yields : Yields
  deriving Repr

namespace SearchPlan

/-- The numbers that the yields are counted by.  No sequence in memory is as
long as `maxCount`, so that is the greatest one; a longer list does not come
from there, and for it there are numbers above its length. -/
def countingFor (target : Form) : Counting :=
  .upTo (max maxCount (target.length + 1))

def ofGrammar (g : Grammar) (target : Form) : SearchPlan where
  grammar := g
  target := target
  leftmost := g.productions.all Production.hasHead
  monotone := g.productions.all fun p => p.lhs.length ≤ p.rhs.length
  counting := countingFor target
  yields :=
    if g.productions.all Production.hasHead then g.shortestYields (countingFor target) else ⟨[]⟩

def options (plan : SearchPlan) (form : Form) : List Step :=
  if plan.leftmost then plan.grammar.leftmostOptions form else plan.grammar.options form

/-- The terminals at both ends of a form are those of the target. -/
def agreesAtEnds (plan : SearchPlan) (form : Form) : Bool :=
  if form.all Symbol.isTerm then decide (form = plan.target)
  else (form.takeWhile Symbol.isTerm).isPrefixOf plan.target &&
    (form.reverse.takeWhile Symbol.isTerm).isPrefixOf plan.target.reverse

/-- The form may lead to the target. -/
def isViable (plan : SearchPlan) (form : Form) : Bool :=
  if plan.leftmost then
    plan.yields.fits plan.counting plan.target.length 0 form && plan.agreesAtEnds form
  else !plan.monotone || form.length ≤ plan.target.length

end SearchPlan

inductive SearchStatus where
  | searching
  /-- The form with this number is the target. -/
  | accepted (number : Nat)
  | rejected
  /-- Cancelled, or stopped by the checkpoint. -/
  | abandoned
  deriving DecidableEq, Repr

def SearchStatus.isFinal : SearchStatus → Bool
  | searching => false
  | _ => true

structure Search where
  plan : SearchPlan
  history : History
  /-- The numbers of the forms that were not expanded, the oldest first. -/
  queue : List Nat
  guard : Guard
  status : SearchStatus := .searching
  /-- How many forms were handed out in the order of their numbers. -/
  emitted : Nat := 0
  deriving Repr

namespace Search

/-- A search for a derivation of a target.  It ends at once when the target is
not a string of terminals of the grammar. -/
def start (g : Grammar) (target : Form) (schedule : Schedule) : Except Fault Search := do
  let start ← g.requireStart
  return {
    plan := .ofGrammar g target
    history := .ofRoot [start]
    queue := [0]
    guard := .ofSchedule schedule
    status := if target.all g.hasTerminal then .searching else .rejected }

def generated (search : Search) : Nat :=
  search.history.size - 1

def hasSeen (search : Search) (form : Form) : Bool :=
  search.history.entries.any fun entry => entry.form = form

/-- Tries the steps from a form in turn.  A step that makes the target ends the
search. -/
def expand (checkpoint : Checkpoint) (parent : Nat) (form : Form) :
    List Step → Search → Search
  | [], search => search
  | step :: steps, search =>
    match Form.rewrite? form step with
    | none => search.expand checkpoint parent form steps
    | some next =>
      if !search.plan.isViable next || search.hasSeen next then
        search.expand checkpoint parent form steps
      else
        let (leave, guard) := search.guard.advance checkpoint
        if leave then
          let child := search.history.size
          let search := { search with
            guard := guard
            history := search.history.addChild parent next step }
          if next = search.plan.target then { search with status := .accepted child }
          else { search with queue := search.queue ++ [child] }.expand checkpoint parent form steps
        else { search with guard := guard, status := .abandoned }

/-- Expands the oldest form that was not expanded. -/
def step (checkpoint : Checkpoint) (search : Search) : Search :=
  if search.status.isFinal then search
  else if search.guard.cancelled then { search with status := .abandoned }
  else match search.queue with
    | [] => { search with status := .rejected }
    | number :: queue =>
      let form := search.history.form number
      { search with queue := queue }.expand checkpoint number form (search.plan.options form)

theorem step_of_isFinal {checkpoint : Checkpoint} {search : Search}
    (hend : search.status.isFinal = true) : search.step checkpoint = search := by
  simp [step, hend]

/-- The search after so many steps, or at its end when that comes before. -/
def run (checkpoint : Checkpoint) (count : Nat) (search : Search) : Search :=
  runFor (·.status.isFinal) (step checkpoint) count search

theorem run_eq_stepTimes (checkpoint : Checkpoint) (count : Nat) (search : Search) :
    search.run checkpoint count = stepTimes (step checkpoint) count search :=
  runFor_eq_stepTimes (fun _ => step_of_isFinal) count search

def cancel (search : Search) : Search :=
  { search with guard := search.guard.cancel }

def derivation? (search : Search) : Option (List Step) :=
  match search.status with
  | .accepted number => some (search.history.stepsTo number)
  | _ => none

/-! ## Handing out the forms -/

/-- Steps until there is a form to hand out or the search has ended. -/
def emitWithin (checkpoint : Checkpoint) : Nat → Search → Option History.Entry × Search
  | 0, search => (none, search)
  | fuel + 1, search =>
    match search.history.entry? search.emitted with
    | some entry => (some entry, { search with emitted := search.emitted + 1 })
    | none =>
      let search := search.step checkpoint
      if search.status.isFinal && search.emitted == search.history.size then (none, search)
      else search.emitWithin checkpoint fuel

/-- The next form in the order of generation.  A step without a new form takes
one from the queue, so the queue bounds the steps. -/
def emit (checkpoint : Checkpoint) (search : Search) : Option History.Entry × Search :=
  search.emitWithin checkpoint (search.queue.length + 2)

end Search

end FormalGrammars
