import FormalGrammars.Derivation.Tree
import FormalGrammars.NormalForm.Normalization

/-!
# Chart parsing in Chomsky normal form

A chart holds, for every span of the input, the variables that derive it.
Spans are filled in the order of their lengths, so a span is put together from
two shorter ones.  Each variable of a cell remembers the first production, and
the smallest split, that put it there; following these records down from the
whole input gives a derivation tree.
-/

namespace FormalGrammars

namespace Chart

inductive Reason where
  /-- `A → a` over a span of one symbol. -/
  | word (production : Production)
  /-- `A → BC`, where `B` derives the first `split` symbols of the span. -/
  | split (production : Production) (split : Nat)
  deriving DecidableEq, Repr

/-- The variables that derive a span. -/
abbrev Cell := OrderedMap Symbol Reason

end Chart

/-- Cells by the length of the span, from 1, and then by its first position. -/
structure Chart where
  rows : List (List Chart.Cell) := []
  deriving DecidableEq, Repr, Inhabited

namespace Chart

def cell? (chart : Chart) (start length : Nat) : Option Cell :=
  if length = 0 then none else (chart.rows[length - 1]?).bind (·[start]?)

def filled (chart : Chart) : Nat :=
  chart.rows.length

def wordCell (g : Grammar) (s : Symbol) : Cell :=
  g.productions.foldl
    (fun cell p =>
      match p.head? with
      | some head => if p.rhs = [s] then cell.insertIfNew head (.word p) else cell
      | none => cell)
    ⟨[]⟩

/-- Puts a head into a cell when the two variables of its production are in the
cells of the two parts of the span. -/
def addPair (left right : Cell) (split : Nat) (cell : Cell) (p : Production) : Cell :=
  match p.head?, p.rhs with
  | some head, [first, second] =>
    if left.contains first && right.contains second then
      cell.insertIfNew head (.split p split)
    else cell
  | _, _ => cell

def spanCell (chart : Chart) (g : Grammar) (start length : Nat) : Cell :=
  (List.range (length - 1)).foldl
    (fun cell i =>
      match chart.cell? start (i + 1), chart.cell? (start + (i + 1)) (length - (i + 1)) with
      | some left, some right => g.productions.foldl (addPair left right (i + 1)) cell
      | _, _ => cell)
    ⟨[]⟩

def fillWords (chart : Chart) (g : Grammar) (input : Form) : Chart :=
  ⟨chart.rows ++ [input.map (wordCell g)]⟩

def fillSpans (chart : Chart) (g : Grammar) (input : Form) (length : Nat) : Chart :=
  ⟨chart.rows ++ [(List.range (input.length + 1 - length)).map
    fun start => chart.spanCell g start length]⟩

/-- The derivation tree of a span from a variable in its cell. -/
def tree? (chart : Chart) (input : Form) (s : Symbol) (start length : Nat) : Option Tree :=
  match (chart.cell? start length).bind (·.get? s) with
  | none => none
  | some (.word p) => (input[start]?).map fun word => .node s p [.leaf word]
  | some (.split p split) =>
    match p.rhs with
    | [first, second] =>
      if 0 < split ∧ split < length then do
        let left ← chart.tree? input first start split
        let right ← chart.tree? input second (start + split) (length - split)
        return .node s p [left, right]
      else none
    | _ => none
termination_by length

end Chart

/-! ## Recognition step by step -/

inductive ChartStatus where
  | idle
  /-- The spans up to this length are filled. -/
  | running (length : Nat)
  | accepted
  | rejected
  deriving DecidableEq, Repr

def ChartStatus.isFinal : ChartStatus → Bool
  | accepted => true
  | rejected => true
  | _ => false

structure ChartParser where
  grammar : Grammar
  start : Symbol
  input : Form
  chart : Chart := {}
  status : ChartStatus := .idle
  deriving Repr

namespace ChartParser

def ofGrammar (g : Grammar) (input : Form) : Except Fault ChartParser := do
  let start ← g.requireContextFree
  match g.productions.find? fun p => !p.isChomsky with
  | some p => .error (.outsideNormalForm p)
  | none => .ok { grammar := g, start := start, input := input }

/-- The status once all spans up to a length are filled. -/
def statusAt (parser : ChartParser) (chart : Chart) (length : Nat) : ChartStatus :=
  if length = parser.input.length then
    if (chart.cell? 0 length).any (·.contains parser.start) then .accepted else .rejected
  else .running length

/-- Fills the spans of one more length.  The first step looks for symbols that
are not terminals of the grammar. -/
def step (parser : ChartParser) : ChartParser :=
  match parser.status with
  | .idle =>
    if parser.input.isEmpty || !parser.input.all parser.grammar.hasTerminal then
      { parser with status := .rejected }
    else
      let chart := parser.chart.fillWords parser.grammar parser.input
      { parser with chart := chart, status := parser.statusAt chart 1 }
  | .running length =>
    let chart := parser.chart.fillSpans parser.grammar parser.input (length + 1)
    { parser with chart := chart, status := parser.statusAt chart (length + 1) }
  | .accepted => parser
  | .rejected => parser

/-- Steps to the end.  There is a step for each length, and one at least. -/
def run (parser : ChartParser) : ChartParser :=
  stepTimes step (max 1 parser.input.length) parser

def tree? (parser : ChartParser) : Option Tree :=
  match parser.status with
  | .accepted => parser.chart.tree? parser.input parser.start 0 parser.input.length
  | _ => none

end ChartParser

/-! ## Recognition with any context-free grammar -/

inductive Recognition where
  /-- With a derivation over the grammar that was normalized. -/
  | accepted (tree : Tree)
  | rejected
  /-- No string but perhaps the empty one is in the language. -/
  | emptyLanguage
  deriving DecidableEq, Repr

def Recognition.isAccepted : Recognition → Bool
  | accepted _ => true
  | _ => false

def Recognition.ofTree? : Option Tree → Recognition
  | some tree => accepted tree
  | none => rejected

/-- Recognizes an input with the grammar in normal form.  The empty input is
decided by the nullable variables of the first grammar. -/
def Normalization.recognize (n : Normalization) (input : Form) : Except Fault Recognition := do
  let start ← n.lambda.grammar.requireStart
  if input.isEmpty then
    return if n.lambda.startDerivesLambda then
      .ofTree? (n.lambda.nullability.emptyTree? start)
    else .rejected
  else if n.useless.emptyLanguage then return .emptyLanguage
  else
    let parser ← ChartParser.ofGrammar n.grammar input
    return .ofTree? (parser.run.tree?.map n.restore)

end FormalGrammars
