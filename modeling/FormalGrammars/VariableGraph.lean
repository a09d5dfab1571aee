import FormalGrammars.Grammar.Basic

/-!
# Graphs of variables

The unit productions of a grammar are the edges of a graph over its variables,
and so are the occurrences of variables on right sides.  A breadth-first
search finds the variables that can be reached by at least one edge, in the
order of discovery, and a shortest path to each of them.

The search keeps the discovered variables in one ordered map to their parents.
That map is the queue as well: its keys are visited one after the other while
new ones are put at its end, so the number of edges bounds the visits.
-/

namespace FormalGrammars

/-- The targets of the edges from each node, nodes and edges in order. -/
structure VariableGraph where
  edges : OrderedMap Symbol (List Symbol)
  deriving Repr

namespace VariableGraph

/-- The graph with an edge from the head of each production to its targets. -/
def ofTargets (g : Grammar) (targets : Production → List Symbol) : VariableGraph where
  edges := g.productions.foldl
    (fun edges p =>
      match p.head? with
      | none => edges
      | some head => edges.alter head [] fun out => extendNew out (targets p))
    ⟨g.variables.map fun s => (s, [])⟩

/-- An edge `A → B` for each unit production `A → B`. -/
def ofUnits (g : Grammar) : VariableGraph :=
  ofTargets g fun p => if p.isUnit then p.rhs else []

/-- An edge `A → B` for each occurrence of `B` on the right of a production with
the head `A`. -/
def ofOccurrences (g : Grammar) : VariableGraph :=
  ofTargets g fun p => p.rhs.filter Symbol.isVar

def nodes (graph : VariableGraph) : List Symbol :=
  graph.edges.keys

def targets (graph : VariableGraph) (node : Symbol) : List Symbol :=
  graph.edges.getD node []

def hasEdge (graph : VariableGraph) (source target : Symbol) : Bool :=
  decide (target ∈ graph.targets source)

/-- The same nodes and edges, in any order. -/
def sameAs (graph other : VariableGraph) : Bool :=
  graph.nodes.all (other.nodes.contains ·) && other.nodes.all (graph.nodes.contains ·) &&
    graph.nodes.all fun node =>
      (graph.targets node).all (other.hasEdge node) &&
        (other.targets node).all (graph.hasEdge node)

def edgeCount (graph : VariableGraph) : Nat :=
  (graph.edges.entries.flatMap Prod.snd).length

/-! ## Breadth-first search -/

def visit (graph : VariableGraph) (parents : OrderedMap Symbol Symbol) (node : Symbol) :
    OrderedMap Symbol Symbol :=
  (graph.targets node).foldl (fun parents next => parents.insertIfNew next node) parents

/-- Visits the discovered nodes from number `visited` on. -/
def explore (graph : VariableGraph) : Nat → Nat → OrderedMap Symbol Symbol →
    OrderedMap Symbol Symbol
  | 0, _, parents => parents
  | fuel + 1, visited, parents =>
    match parents.keys[visited]? with
    | none => parents
    | some node => graph.explore fuel (visited + 1) (graph.visit parents node)

/-- The parents of all nodes that can be reached from `source` by at least one
edge.  The source itself is among them only when it lies on a cycle. -/
def search (graph : VariableGraph) (source : Symbol) : OrderedMap Symbol Symbol :=
  graph.explore graph.edgeCount 0 (graph.visit ⟨[]⟩ source)

def dependencies (graph : VariableGraph) (source : Symbol) : List Symbol :=
  (graph.search source).keys

/-- The way from `source` to `node` along the parents.  Each parent was
discovered before its child, so the number of entries bounds the climb. -/
def climb (parents : OrderedMap Symbol Symbol) (source : Symbol) :
    Nat → Symbol → Option (List Symbol)
  | 0, _ => none
  | fuel + 1, node =>
    match parents.get? node with
    | none => none
    | some parent =>
      if parent = source then some [source, node]
      else (climb parents source fuel parent).map (· ++ [node])

def path? (graph : VariableGraph) (source target : Symbol) : Option (List Symbol) :=
  let parents := graph.search source
  climb parents source parents.size target

/-! ## Walks -/

/-- A walk along the edges; it lists the nodes that it passes. -/
inductive Walk (graph : VariableGraph) : Symbol → Symbol → List Symbol → Prop where
  | edge {source target : Symbol} (hedge : graph.hasEdge source target = true) :
      Walk graph source target [source, target]
  | cons {source next target : Symbol} {rest : List Symbol}
      (hedge : graph.hasEdge source next = true) (hrest : Walk graph next target rest) :
      Walk graph source target (source :: rest)

end VariableGraph

end FormalGrammars
