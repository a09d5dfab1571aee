import FormalGrammars.Grammar.Basic

/-!
# What a grammar derives

The relation between forms that the algorithms are measured against: a form
derives another by rewriting left sides to right sides, any number of times
and in any order.  The language of a grammar is the set of terminal strings
that its start derives.
-/

namespace FormalGrammars.Grammar

/-- One rewriting step at any place. -/
inductive Rewrites (g : Grammar) : Form → Form → Prop where
  | intro (p : Production) (before after : Form) (hmem : p ∈ g.productions) :
      Rewrites g (before ++ p.lhs ++ after) (before ++ p.rhs ++ after)

/-- Exactly so many rewriting steps. -/
inductive DerivesIn (g : Grammar) : Nat → Form → Form → Prop where
  | refl (form : Form) : DerivesIn g 0 form form
  | head {count : Nat} {first second last : Form} (hstep : g.Rewrites first second)
      (hrest : DerivesIn g count second last) : DerivesIn g (count + 1) first last

def Derives (g : Grammar) (first last : Form) : Prop :=
  ∃ count, g.DerivesIn count first last

/-- The terminal strings that the start derives. -/
def Language (g : Grammar) (word : Form) : Prop :=
  Form.isTerminal word = true ∧ ∃ start, g.start = some start ∧ g.Derives [start] word

variable {g : Grammar}

theorem Derives.refl (form : Form) : g.Derives form form :=
  ⟨0, .refl form⟩

theorem Rewrites.derives {first last : Form} (hstep : g.Rewrites first last) :
    g.Derives first last :=
  ⟨1, .head hstep (.refl last)⟩

theorem DerivesIn.append {m n : Nat} {first second last : Form}
    (hleft : g.DerivesIn m first second) (hright : g.DerivesIn n second last) :
    g.DerivesIn (m + n) first last := by
  induction hleft with
  | refl form => simpa using hright
  | head hstep _ ih =>
    rw [Nat.add_right_comm]
    exact .head hstep (ih hright)

theorem Derives.trans {first second last : Form} (hleft : g.Derives first second)
    (hright : g.Derives second last) : g.Derives first last :=
  ⟨_, hleft.choose_spec.append hright.choose_spec⟩

theorem Rewrites.context {first last : Form} (hstep : g.Rewrites first last)
    (before after : Form) : g.Rewrites (before ++ first ++ after) (before ++ last ++ after) := by
  obtain ⟨p, left, right, hmem⟩ := hstep
  have hrewrites := Rewrites.intro p (before ++ left) (right ++ after) hmem
  simpa only [List.append_assoc] using hrewrites

theorem DerivesIn.context {count : Nat} {first last : Form}
    (hderives : g.DerivesIn count first last) (before after : Form) :
    g.DerivesIn count (before ++ first ++ after) (before ++ last ++ after) := by
  induction hderives with
  | refl form => exact .refl _
  | head hstep _ ih => exact .head (hstep.context before after) ih

end FormalGrammars.Grammar
