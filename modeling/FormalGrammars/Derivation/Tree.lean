import FormalGrammars.Derivation.Step
import FormalGrammars.Derivation.History

/-!
# Derivation trees

A leaf is a symbol that was not expanded.  A node was expanded with a
production; a node without children derived the empty string.  The leaves from
left to right are the frontier, and a walk in preorder gives the leftmost
derivation of the frontier from the root.

Trees are plain data.  `Tree.ValidFor` says that a tree obeys a grammar.
-/

namespace FormalGrammars

inductive Tree where
  | leaf (symbol : Symbol)
  | node (symbol : Symbol) (production : Production) (children : List Tree)
  deriving Repr, Inhabited

namespace Tree

mutual

def decEq : (tree other : Tree) → Decidable (tree = other)
  | leaf s, leaf t => decidable_of_iff (s = t) (by simp)
  | leaf _, node _ _ _ => isFalse nofun
  | node _ _ _, leaf _ => isFalse nofun
  | node s p trees, node t q others =>
    match decEqAll trees others with
    | isTrue hall => decidable_of_iff (s = t ∧ p = q) (by simp [hall])
    | isFalse hne => isFalse (by simp [hne])

def decEqAll : (trees others : List Tree) → Decidable (trees = others)
  | [], [] => isTrue rfl
  | [], _ :: _ => isFalse nofun
  | _ :: _, [] => isFalse nofun
  | tree :: trees, other :: others =>
    match tree.decEq other, decEqAll trees others with
    | isTrue heq, isTrue hall => isTrue (by rw [heq, hall])
    | isFalse hne, _ => isFalse (by simp [hne])
    | _, isFalse hne => isFalse (by simp [hne])

end

instance : DecidableEq Tree := decEq

def root : Tree → Symbol
  | leaf s => s
  | node s _ _ => s

/-- The subtrees of the root; none for a leaf. -/
def children : Tree → List Tree
  | leaf _ => []
  | node _ _ children => children

mutual

def frontier : Tree → Form
  | leaf s => [s]
  | node _ _ children => frontierOfAll children

def frontierOfAll : List Tree → Form
  | [] => []
  | tree :: trees => tree.frontier ++ frontierOfAll trees

end

mutual

/-- The leftmost derivation of the frontier, where `offset` symbols stand to
the left of the root. -/
def stepsFrom (offset : Nat) : Tree → List Step
  | leaf _ => []
  | node _ p children => ⟨p, offset⟩ :: stepsOfAllFrom offset children

def stepsOfAllFrom (offset : Nat) : List Tree → List Step
  | [] => []
  | tree :: trees =>
    tree.stepsFrom offset ++ stepsOfAllFrom (offset + tree.frontier.length) trees

end

/-- The leftmost derivation of the frontier from the root. -/
def steps (tree : Tree) : List Step :=
  tree.stepsFrom 0

def productions (tree : Tree) : List Production :=
  tree.steps.map Step.production

mutual

/-- Every node uses a production of the grammar on its own symbol, and its
children spell the right side. -/
def ValidFor (g : Grammar) : Tree → Prop
  | leaf _ => True
  | node s p children =>
    p ∈ g.productions ∧ p.head? = some s ∧ children.map root = p.rhs ∧
      AllValidFor g children

def AllValidFor (g : Grammar) : List Tree → Prop
  | [] => True
  | tree :: trees => tree.ValidFor g ∧ AllValidFor g trees

end

mutual

def decidableValidFor (g : Grammar) : (tree : Tree) → Decidable (tree.ValidFor g)
  | leaf _ => .isTrue trivial
  | node s p children =>
    have := decidableAllValidFor g children
    inferInstanceAs (Decidable (p ∈ g.productions ∧ p.head? = some s ∧
      children.map root = p.rhs ∧ AllValidFor g children))

def decidableAllValidFor (g : Grammar) :
    (trees : List Tree) → Decidable (AllValidFor g trees)
  | [] => .isTrue trivial
  | tree :: trees =>
    have := decidableValidFor g tree
    have := decidableAllValidFor g trees
    inferInstanceAs (Decidable (tree.ValidFor g ∧ AllValidFor g trees))

end

instance (g : Grammar) (tree : Tree) : Decidable (tree.ValidFor g) :=
  decidableValidFor g tree

/-- Induction on trees, with a hypothesis for each child. -/
@[elab_as_elim]
theorem induction {motive : Tree → Prop} (leaf : ∀ s, motive (.leaf s))
    (node : ∀ s p children, (∀ child ∈ children, motive child) → motive (.node s p children))
    (tree : Tree) : motive tree :=
  Tree.rec (motive_1 := motive) (motive_2 := fun trees => ∀ tree ∈ trees, motive tree)
    leaf node (by simp)
    (fun _ _ hhead htail => by simpa using ⟨hhead, htail⟩) tree

theorem allValidFor_iff {g : Grammar} {trees : List Tree} :
    AllValidFor g trees ↔ ∀ tree ∈ trees, tree.ValidFor g := by
  induction trees with
  | nil => simp [AllValidFor]
  | cons tree trees ih => simp [AllValidFor, ih]

theorem frontierOfAll_eq (trees : List Tree) :
    frontierOfAll trees = trees.flatMap frontier := by
  induction trees with
  | nil => rfl
  | cons tree trees ih => simp [frontierOfAll, ih]

end Tree

/-! ## Forms of a derivation -/

/-- The forms that the steps run through from `form`, up to the first step
that does not fit. -/
def formsAlong (form : Form) : List Step → List Form
  | [] => [form]
  | step :: steps =>
    form :: match Form.rewrite? form step with
      | some next => formsAlong next steps
      | none => []

namespace Tree

def forms (tree : Tree) : List Form :=
  formsAlong [tree.root] tree.steps

def text (tree : Tree) : String :=
  String.intercalate " ⇒ " (tree.forms.map Form.text)

def history (tree : Tree) : History :=
  (History.ofRoot [tree.root]).extendAlong 0 [tree.root] tree.steps

end Tree

end FormalGrammars
