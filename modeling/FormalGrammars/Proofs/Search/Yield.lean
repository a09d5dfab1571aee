import FormalGrammars.Iteration
import FormalGrammars.Search.Yield
import FormalGrammars.Proofs.Yield

/-!
# No yield is shorter than the computed one

A variable that is expanded below itself can be expanded at once as it is
expanded below, which makes the string no longer.  So a string that a variable
derives is no shorter than one for which that variable is expanded at the top
only.  Leaving out one variable after the other takes as many productions, one
below the other, as there are variables, and a pass over all productions takes
one of them into account.

This is about lengths that are counted without bound.
-/

namespace FormalGrammars

/-! ## Expanding few variables -/

namespace Grammar

/-- Productions with other heads are left out. -/
def restrict (g : Grammar) (heads : List Symbol) : Grammar :=
  { g with
    productions := g.productions.filter fun p => p.head?.all (· ∈ heads) }

variable {g : Grammar} {s : Symbol} {heads : List Symbol} {p : Production}
  {m n : Nat}

theorem mem_restrict :
    p ∈ (g.restrict heads).productions ↔
      p ∈ g.productions ∧ ∀ s, p.head? = some s → s ∈ heads := by
  simp [restrict, Option.all_eq_true]

/-- A production on `s` yields so short a string with no other expansions than
those of the variables in the list. -/
def ExpandsWithin (g : Grammar) (s : Symbol) (heads : List Symbol)
    (bound : Nat) : Prop :=
  ∃ p ∈ g.productions, p.head? = some s ∧
    ∃ word, Form.isTerminal word = true ∧ word.length ≤ bound ∧
      (g.restrict heads).Yields p.rhs word

theorem ExpandsWithin.mono (hexpands : g.ExpandsWithin s heads m)
    (hle : m ≤ n) : g.ExpandsWithin s heads n := by
  rcases hexpands with ⟨p, hp, hhead, word, hword, hlength, hyields⟩
  exact ⟨p, hp, hhead, word, hword, Nat.le_trans hlength hle, hyields⟩

/-- The innermost expansion of `s` expands it no further. -/
theorem Yields.exists_innermost {form word : Form}
    (hyields : (g.restrict (s :: heads)).Yields form word)
    (hword : Form.isTerminal word = true) :
    (g.restrict heads).Yields form word ∨
      g.ExpandsWithin s heads word.length := by
  induction hyields with
  | nil => exact .inl .nil
  | keep t _ ih =>
      rcases ih (isTerminal_cons.mp hword).2 with hrest | hexpands
      · exact .inl (.keep t hrest)
      · exact .inr (hexpands.mono (Nat.le_add_right _ 1))
  | @expand t p rest left right hmem hhead _ _ ihrhs ihrest =>
      obtain ⟨hleft, hright⟩ := isTerminal_append.mp hword
      rw [List.length_append]
      rcases ihrhs hleft with hrhs | hexpands
      · -- This expansion is the innermost one, or it is not one of `s`.
        obtain ⟨hp, hheads⟩ := mem_restrict.mp hmem
        rcases List.mem_cons.mp (hheads t hhead) with rfl | ht
        · exact .inr ⟨p, hp, hhead, left, hleft, Nat.le_add_right _ _, hrhs⟩
        · rcases ihrest hright with hrest | hexpands
          · have hstill : p ∈ (g.restrict heads).productions := by
              refine mem_restrict.mpr ⟨hp, fun u hsole => ?_⟩
              rw [hhead, Option.some.injEq] at hsole
              exact hsole ▸ ht
            exact .inl (.expand p hstill hhead hrhs hrest)
          · exact .inr (hexpands.mono (Nat.le_add_left _ _))
      · exact .inr (hexpands.mono (Nat.le_add_right _ _))

theorem Yields.expandsWithin {word : Form} (hvar : s.isVar = true)
    (hyields : (g.restrict heads).Yields [s] word)
    (hword : Form.isTerminal word = true) :
    s ∈ heads ∧ g.ExpandsWithin s (heads.erase s) word.length := by
  obtain ⟨p, hmem, hhead, hrhs⟩ := hyields.exists_production hvar hword
  obtain ⟨hp, hheads⟩ := mem_restrict.mp hmem
  refine ⟨hheads s hhead, ?_⟩
  -- Below the first production `s` is one of the variables that are left out.
  have hmore : (g.restrict (s :: heads.erase s)).Yields p.rhs word := by
    refine hrhs.mono fun q hq => ?_
    obtain ⟨hq, hothers⟩ := mem_restrict.mp hq
    refine mem_restrict.mpr ⟨hq, fun t hsole => ?_⟩
    by_cases heq : t = s
    · exact heq ▸ List.mem_cons_self
    · refine List.mem_cons_of_mem s ?_
      exact (List.mem_erase_of_ne heq).mpr (hothers t hsole)
  rcases hmore.exists_innermost hword with hbelow | hexpands
  · exact ⟨p, hp, hhead, word, hword, Nat.le_refl _, hbelow⟩
  · exact hexpands

end Grammar

/-! ## Lengths of forms -/

namespace Yields

variable {g : Grammar} {yields next : Yields} {s : Symbol} {p : Production}
  {form word : Form} {heads : List Symbol} {ps : List Production} {n : Nat}

/-- There is a length, and it is at most the bound. -/
def AtMost (value : Option Nat) (bound : Nat) : Prop :=
  ∃ length, value = some length ∧ length ≤ bound

theorem ofSymbol?_of_isVar (hvar : s.isVar = true) :
    yields.ofSymbol? s = OrderedMap.get? yields s := by
  simp [ofSymbol?, Symbol.isTerm_eq_false hvar]

theorem atMost_cons_iff :
    AtMost (yields.ofForm? .unbounded (s :: form)) n ↔
      ∃ first rest, AtMost (yields.ofSymbol? s) first ∧
        AtMost (yields.ofForm? .unbounded form) rest ∧ first + rest ≤ n := by
  rw [ofForm?]
  constructor
  · rintro ⟨length, hlength, hle⟩
    split at hlength
    next first rest hfirst hrest =>
      cases hlength
      exact ⟨first, rest, ⟨first, hfirst, Nat.le_refl _⟩,
        ⟨rest, hrest, Nat.le_refl _⟩, hle⟩
    next => cases hlength
  · rintro ⟨first, rest, ⟨m, hm, hfirst⟩, ⟨k, hk, hrest⟩, hle⟩
    rw [hm, hk]
    exact ⟨m + k, rfl, by omega⟩

/-- When no string is shorter than the length of its variable, none is shorter
than the length of its form. -/
theorem atMost_ofForm?
    (hvariables : ∀ s word, s.isVar = true → Form.isTerminal word = true →
      g.Yields [s] word → AtMost (OrderedMap.get? yields s) word.length)
    (hword : Form.isTerminal word = true) (hyields : g.Yields form word) :
    AtMost (yields.ofForm? .unbounded form) word.length := by
  induction form generalizing word with
  | nil =>
      rw [hyields.eq_nil]
      exact ⟨0, rfl, Nat.le_refl _⟩
  | cons s form ih =>
      obtain ⟨left, right, rfl, hs, hform⟩ := hyields.exists_cons
      obtain ⟨hleft, hright⟩ := Grammar.isTerminal_append.mp hword
      have hsymbol : AtMost (yields.ofSymbol? s) left.length := by
        cases hvar : s.isVar with
        | true =>
            rw [ofSymbol?_of_isVar hvar]
            exact hvariables s left hvar hleft hs
        | false =>
            have hterm := Symbol.isTerm_of_isVar_eq_false hvar
            obtain ⟨tail, rfl, _⟩ := hs.of_isTerm hterm
            exact ⟨1, by simp [ofSymbol?, hterm], by simp⟩
      rw [List.length_append]
      exact atMost_cons_iff.mpr
        ⟨_, _, hsymbol, ih hright hform, Nat.le_refl _⟩

/-! ## Passes -/

theorem pass_fst (counting : Counting) (ps : List Production)
    (yields : Yields) :
    (pass counting ps yields).1 = ps.foldl (absorb counting) yields := by
  induction ps generalizing yields with
  | nil => rfl
  | cons p ps ih => exact ih _

theorem nodup_absorb (hkeys : (OrderedMap.keys yields).Nodup)
    (counting : Counting) (p : Production) :
    (OrderedMap.keys (yields.absorb counting p)).Nodup := by
  unfold absorb
  split
  next head length _ _ =>
    rw [OrderedMap.keys_alter]
    exact nodup_insertNew hkeys head
  next => exact hkeys

theorem nodup_pass (hkeys : (OrderedMap.keys yields).Nodup)
    (counting : Counting) (ps : List Production) :
    (OrderedMap.keys (pass counting ps yields).1).Nodup := by
  rw [pass_fst]
  apply List.foldlRecOn
    (motive := fun later : Yields => (OrderedMap.keys later).Nodup) _ _ hkeys
  intro later hlater p _
  exact nodup_absorb hlater counting p

/-- Without a greatest number, a production that lowers no length changes
nothing. -/
theorem absorb_eq_self (hkeys : (OrderedMap.keys yields).Nodup)
    (hlowered : yields.isLoweredBy .unbounded p = false) :
    yields.absorb .unbounded p = yields := by
  unfold isLoweredBy at hlowered
  unfold absorb
  split
  next head length hhead hlength =>
    simp only [hhead, hlength] at hlowered
    cases hknown : OrderedMap.get? yields head with
    | none =>
        rw [hknown] at hlowered
        cases hlowered
    | some known =>
        rw [hknown] at hlowered
        have hle : known ≤ length :=
          Nat.le_of_not_lt (of_decide_eq_false hlowered)
        apply OrderedMap.alter_eq_self hkeys
          (OrderedMap.mem_keys_of_get? hknown)
        rw [OrderedMap.getD, hknown]
        exact Nat.min_eq_right hle
  next => rfl

theorem pass_eq_self (hkeys : (OrderedMap.keys yields).Nodup)
    (hlowered : (pass .unbounded ps yields).2 = false) :
    (pass .unbounded ps yields).1 = yields := by
  induction ps with
  | nil => rfl
  | cons p ps ih =>
      simp only [pass, Bool.or_eq_false_iff] at hlowered ⊢
      rw [absorb_eq_self hkeys hlowered.1] at hlowered ⊢
      exact ih hlowered.2

/-- The passes that the early end saves would change nothing. -/
theorem settle_eq_stepTimes (hkeys : (OrderedMap.keys yields).Nodup)
    (rounds : Nat) :
    settle .unbounded ps rounds yields =
      stepTimes (fun yields => (pass .unbounded ps yields).1) rounds yields := by
  induction rounds generalizing yields with
  | zero => rfl
  | succ rounds ih =>
      simp only [settle]
      split
      next => exact ih (nodup_pass hkeys .unbounded ps)
      next hlowered =>
        have hfixed := pass_eq_self hkeys (Bool.eq_false_iff.mpr hlowered)
        rw [stepTimes_of_fixed hfixed, hfixed]

/-- No length is raised or lost. -/
def Lowers (yields next : Yields) : Prop :=
  ∀ s bound, AtMost (OrderedMap.get? yields s) bound →
    AtMost (OrderedMap.get? next s) bound

theorem Lowers.trans {last : Yields} (hfirst : Lowers yields next)
    (hsecond : Lowers next last) : Lowers yields last :=
  fun s bound hs => hsecond s bound (hfirst s bound hs)

theorem Lowers.ofForm? (hlowers : Lowers yields next)
    (hform : AtMost (yields.ofForm? .unbounded form) n) :
    AtMost (next.ofForm? .unbounded form) n := by
  induction form generalizing n with
  | nil => exact hform
  | cons s form ih =>
      obtain ⟨first, rest, hs, hrest, hle⟩ := atMost_cons_iff.mp hform
      refine atMost_cons_iff.mpr ⟨first, rest, ?_, ih hrest, hle⟩
      cases hvar : s.isVar with
      | true =>
          rw [ofSymbol?_of_isVar hvar] at hs ⊢
          exact hlowers s first hs
      | false =>
          simpa [ofSymbol?, Symbol.isTerm_of_isVar_eq_false hvar] using hs

theorem lowers_absorb (yields : Yields) (p : Production) :
    Lowers yields (yields.absorb .unbounded p) := by
  intro s bound hs
  unfold absorb
  split
  next head length _ _ =>
    rw [OrderedMap.get?_alter]
    split
    next heq =>
      rcases hs with ⟨known, hknown, hle⟩
      rw [heq] at hknown
      have hget : OrderedMap.getD yields head length = known := by
        rw [OrderedMap.getD, hknown]
        rfl
      rw [hget]
      exact ⟨_, rfl, Nat.le_trans (Nat.min_le_right _ _) hle⟩
    next => exact hs
  next => exact hs

theorem atMost_absorb (hhead : p.head? = some s)
    (hrhs : AtMost (yields.ofForm? .unbounded p.rhs) n) :
    AtMost (OrderedMap.get? (yields.absorb .unbounded p) s) n := by
  rcases hrhs with ⟨length, hlength, hle⟩
  unfold absorb
  rw [hhead, hlength]
  simp only [OrderedMap.get?_alter, if_true]
  exact ⟨_, rfl, Nat.le_trans (Nat.min_le_left _ _) hle⟩

theorem lowers_foldl (ps : List Production) (yields : Yields) :
    Lowers yields (ps.foldl (absorb .unbounded) yields) := by
  induction ps generalizing yields with
  | nil => exact fun s bound hs => hs
  | cons p ps ih => exact (lowers_absorb yields p).trans (ih _)

theorem atMost_foldl (hp : p ∈ ps) (hhead : p.head? = some s)
    (hrhs : AtMost (yields.ofForm? .unbounded p.rhs) n) :
    AtMost (OrderedMap.get? (ps.foldl (absorb .unbounded) yields) s) n := by
  induction ps generalizing yields with
  | nil => simp at hp
  | cons q ps ih =>
      rw [List.foldl_cons]
      rcases List.mem_cons.mp hp with rfl | hp
      · exact lowers_foldl ps _ s n (atMost_absorb hhead hrhs)
      · exact ih hp ((lowers_absorb yields q).ofForm? hrhs)

end Yields

namespace Grammar

/-- Goes through the productions once. -/
def yieldPass (counting : Counting) (g : Grammar)
    (yields : FormalGrammars.Yields) : FormalGrammars.Yields :=
  (yields.pass counting g.productions).1

theorem shortestYields_eq_stepTimes (g : Grammar) :
    g.shortestYields .unbounded =
      stepTimes (g.yieldPass .unbounded) (g.variables.length + 1) ⟨[]⟩ := by
  have hkeys : (OrderedMap.keys (⟨[]⟩ : FormalGrammars.Yields)).Nodup :=
    List.nodup_nil
  exact FormalGrammars.Yields.settle_eq_stepTimes hkeys _

end Grammar

namespace Yields

variable {g : Grammar} {form word : Form} {heads : List Symbol}

/-- After as many passes as there are variables in the list. -/
theorem atMost_passes (count : Nat) (hcount : heads.length ≤ count)
    (hword : Form.isTerminal word = true)
    (hyields : (g.restrict heads).Yields form word) :
    AtMost (ofForm? .unbounded (stepTimes (g.yieldPass .unbounded) count ⟨[]⟩)
      form) word.length := by
  induction count generalizing heads form word with
  | zero =>
      refine atMost_ofForm? ?_ hword hyields
      intro s word hvar hword hs
      obtain ⟨hmem, _⟩ := hs.expandsWithin hvar hword
      rw [List.length_eq_zero_iff.mp (Nat.le_zero.mp hcount)] at hmem
      simp at hmem
  | succ count ih =>
      rw [stepTimes_succ_eq_step, Grammar.yieldPass, pass_fst]
      refine atMost_ofForm? ?_ hword hyields
      intro s word hvar hword hs
      obtain ⟨hmem, p, hp, hhead, short, hshort, hle, hrhs⟩ :=
        hs.expandsWithin hvar hword
      have hlength : (heads.erase s).length ≤ count := by
        rw [List.length_erase_of_mem hmem]
        omega
      obtain ⟨length, hsome, hlower⟩ := ih hlength hshort hrhs
      exact atMost_foldl hp hhead ⟨length, hsome, Nat.le_trans hlower hle⟩

end Yields

/-- A form yields no terminal string that is shorter than its length. -/
theorem Grammar.atMost_shortestYields {g : Grammar} (hg : g.Consistent)
    {form word : Form} (hword : Form.isTerminal word = true)
    (hyields : g.Yields form word) :
    Yields.AtMost ((g.shortestYields .unbounded).ofForm? .unbounded form)
      word.length := by
  have hall : (g.restrict g.variables).Yields form word := by
    refine hyields.mono fun p hp => mem_restrict.mpr ⟨hp, ?_⟩
    intro s hhead
    exact hg.mem_variables_of_head? hp hhead
  rw [shortestYields_eq_stepTimes]
  exact Yields.atMost_passes _ (Nat.le_succ _) hword hall

end FormalGrammars
