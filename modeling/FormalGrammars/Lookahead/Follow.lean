import FormalGrammars.Lookahead.First

/-!
# FOLLOW sets

FOLLOW of a variable holds what can stand behind it in a form that the start
derives, with the end of the input behind the whole form.  A scan of the right
sides from right to left finds what stands directly behind a variable, and
which sets flow into which others: behind a variable that may end a right side
stands whatever follows the head.  A worklist then lets the sets flow until
none grows.
-/

namespace FormalGrammars

/-- FIRST sets, FIRST of every right side, and FOLLOW sets. -/
structure LookaheadSets where
  first : FirstSets
  /-- FIRST of the right sides of the productions, kept for look-up. -/
  firstOfRightSides : OrderedMap Form (List Lookahead)
  follow : OrderedMap Symbol (List Lookahead)
  deriving Repr

structure FollowScan where
  follow : OrderedMap Symbol (List Lookahead)
  /-- The variables whose sets take in the set of each variable. -/
  flows : OrderedMap Symbol (List Symbol) := ⟨[]⟩
  deriving Repr

namespace FollowScan

/-- Notes that `tail` stands behind `s` on the right of a production. -/
def note (first : FirstSets) (head : Symbol) (scan : FollowScan) (s : Symbol) (tail : Form) :
    FollowScan :=
  let behind := first.ofForm tail
  { follow := scan.follow.alter s [] (extendNew · (behind.filter (· ≠ .lambda)))
    flows :=
      if s ≠ head ∧ .lambda ∈ behind then scan.flows.alter head [] (insertNew · s)
      else scan.flows }

def scanRightSide (first : FirstSets) (head : Symbol) (scan : FollowScan) : Form → FollowScan
  | [] => scan
  | s :: tail =>
    let scan := scan.scanRightSide first head tail
    if s.isVar then scan.note first head s tail else scan

def scanProduction (first : FirstSets) (scan : FollowScan) (p : Production) : FollowScan :=
  match p.head? with
  | none => scan
  | some head => scan.scanRightSide first head p.rhs

/-- Lets a set flow into the set of `target`, which is queued if that grows. -/
def pour (source : List Lookahead)
    (state : OrderedMap Symbol (List Lookahead) × List Symbol) (target : Symbol) :
    OrderedMap Symbol (List Lookahead) × List Symbol :=
  let old := state.1.getD target []
  let new := extendNew old source
  (state.1.insert target new,
    if old.length < new.length then insertNew state.2 target else state.2)

/-- Lets the sets of the queued variables flow, until the queue is empty. -/
def settle (flows : OrderedMap Symbol (List Symbol)) :
    Nat → OrderedMap Symbol (List Lookahead) → List Symbol → OrderedMap Symbol (List Lookahead)
  | 0, follow, _ => follow
  | _ + 1, follow, [] => follow
  | fuel + 1, follow, s :: queue =>
    let (follow, queue) :=
      (flows.getD s []).foldl (pour (follow.getD s [])) (follow, queue)
    settle flows fuel follow queue

end FollowScan

namespace LookaheadSets

/-- FOLLOW of the variables of a grammar.  A variable is queued once at first
and again only when its set grew, and a set holds terminals and the end. -/
def followOf (g : Grammar) (first : FirstSets) (start : Symbol) :
    OrderedMap Symbol (List Lookahead) :=
  let initial : OrderedMap Symbol (List Lookahead) := ⟨g.variables.map fun s => (s, [])⟩
  let scan := g.productions.foldl (FollowScan.scanProduction first)
    { follow := initial.alter start [] (insertNew · .endOfInput) }
  FollowScan.settle scan.flows (scan.follow.size * (g.terminals.length + 2)) scan.follow
    scan.follow.keys

def ofGrammar (g : Grammar) : Except Fault LookaheadSets := do
  let start ← g.requireContextFree
  let first := g.firstSets
  let firstOfRightSides := g.productions.foldl
    (fun known p => known.insert p.rhs (first.ofForm p.rhs))
    (⟨[]⟩ : OrderedMap Form (List Lookahead))
  return ⟨first, firstOfRightSides, followOf g first start⟩

/-- FIRST of a form, looked up if the form is a right side. -/
def firstOf (sets : LookaheadSets) (form : Form) : List Lookahead :=
  sets.firstOfRightSides.getD form (sets.first.ofForm form)

/-- FOLLOW of a variable; empty for one that the grammar does not know. -/
def followOfVariable (sets : LookaheadSets) (s : Symbol) : List Lookahead :=
  sets.follow.getD s []

def isNullable (sets : LookaheadSets) (s : Symbol) : Bool :=
  (sets.first.getD s []).contains .lambda

end LookaheadSets

end FormalGrammars
