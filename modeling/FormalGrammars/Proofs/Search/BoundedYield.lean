import FormalGrammars.Proofs.Search.Yield

/-!
# Lengths that overflow come out no greater

With a greatest number, that number is the length of a variable as long as
there is no entry.  A pass that lowers no length then keeps all of them, so
after the last pass no production leads to a smaller length: where the lengths
in a right side add up to less than the greatest number, nothing overflows, and
the length of the head is no greater than their sum.  By induction on a
derivation no string is shorter than the length of its form, as long as the
string is shorter than the greatest number.

Every other pass lowers the sum of the lengths of all variables, which bounds
the number of passes.
-/

namespace FormalGrammars.Yields

variable {g : Grammar} {yields other : Yields} {s head : Symbol}
  {p : Production} {ps : List Production} {form word : Form}
  {greatest length bound total rounds : Nat}

/-! ## Lengths of symbols and forms -/

/-- The length of a symbol, where the greatest number stands for a missing
entry. -/
def level (greatest : Nat) (yields : Yields) (s : Symbol) : Nat :=
  (yields.ofSymbol? s).getD greatest

/-- The sum of the lengths of the symbols, without overflow. -/
def levels (greatest : Nat) (yields : Yields) : Form → Nat
  | [] => 0
  | s :: rest => yields.level greatest s + yields.levels greatest rest

theorem levels_congr
    (hsame : ∀ s, yields.level greatest s = other.level greatest s)
    (form : Form) : yields.levels greatest form = other.levels greatest form := by
  induction form with
  | nil => rfl
  | cons s form ih => rw [levels, levels, hsame, ih]

theorem levels_le (hle : ∀ s, yields.level greatest s ≤ other.level greatest s)
    (form : Form) : yields.levels greatest form ≤ other.levels greatest form := by
  induction form with
  | nil => exact Nat.le_refl _
  | cons s form ih => exact Nat.add_le_add (hle s) ih

theorem levels_lt (hle : ∀ s, yields.level greatest s ≤ other.level greatest s)
    (hmem : s ∈ form)
    (hlt : yields.level greatest s < other.level greatest s) :
    yields.levels greatest form < other.levels greatest form := by
  induction form with
  | nil => cases hmem
  | cons t form ih =>
      rcases List.mem_cons.mp hmem with rfl | hmem
      · exact Nat.add_lt_add_of_lt_of_le hlt (levels_le hle form)
      · exact Nat.add_lt_add_of_le_of_lt (hle t) (ih hmem)

theorem level_of_isTerm (hterm : s.isTerm = true) :
    yields.level greatest s = 1 := by
  simp [level, ofSymbol?, hterm]

theorem level_of_isVar (hvar : s.isVar = true) :
    yields.level greatest s = OrderedMap.getD yields s greatest := by
  rw [level, ofSymbol?_of_isVar hvar, OrderedMap.getD]

/-- A length below the greatest number comes from an entry. -/
theorem ofSymbol?_of_level_lt (hlt : yields.level greatest s < greatest) :
    yields.ofSymbol? s = some (yields.level greatest s) := by
  unfold level at hlt ⊢
  cases hsymbol : yields.ofSymbol? s with
  | none =>
      rw [hsymbol] at hlt
      exact absurd hlt (Nat.lt_irrefl _)
  | some length => rfl

/-- A sum below the greatest number does not overflow. -/
theorem ofForm?_of_levels_lt (hlt : yields.levels greatest form < greatest) :
    yields.ofForm? (.upTo greatest) form =
      some (yields.levels greatest form) := by
  induction form with
  | nil => rfl
  | cons s form ih =>
      rw [levels] at hlt ⊢
      have hsymbol := ofSymbol?_of_level_lt
        (Nat.lt_of_le_of_lt (Nat.le_add_right _ _) hlt)
      have hform := ih (Nat.lt_of_le_of_lt (Nat.le_add_left _ _) hlt)
      rw [ofForm?, hsymbol, hform]
      exact congrArg some (Counting.add_upTo (Nat.le_of_lt hlt))

theorem ofForm?_le (hform : yields.ofForm? (.upTo greatest) form = some length) :
    length ≤ greatest := by
  cases form with
  | nil =>
      cases hform
      exact Nat.zero_le _
  | cons s form =>
      rw [ofForm?] at hform
      split at hform
      next =>
        cases hform
        exact Nat.le_of_lt_succ (Nat.mod_lt _ (Nat.succ_pos _))
      next => cases hform

/-! ## One production -/

/-- The sum of the right side, if it is below the greatest number, is no less
than the length of the head. -/
def Settled (greatest : Nat) (yields : Yields) (p : Production) : Prop :=
  ∀ head, p.head? = some head → yields.levels greatest p.rhs < greatest →
    yields.level greatest head ≤ yields.levels greatest p.rhs

theorem Settled.congr
    (hsame : ∀ s, yields.level greatest s = other.level greatest s)
    (hsettled : yields.Settled greatest p) : other.Settled greatest p := by
  intro head hhead
  rw [← levels_congr hsame, ← hsame]
  exact hsettled head hhead

theorem isLoweredBy_eq (hhead : p.head? = some head)
    (hlength : yields.ofForm? (.upTo greatest) p.rhs = some length) :
    yields.isLoweredBy (.upTo greatest) p =
      decide (length < yields.level greatest head) := by
  simp only [isLoweredBy, hhead, hlength,
    level_of_isVar (Grammar.isVar_of_head? hhead), OrderedMap.getD]
  cases OrderedMap.get? yields head with
  | none => rfl
  | some known => rfl

theorem level_absorb (hhead : p.head? = some head)
    (hlength : yields.ofForm? (.upTo greatest) p.rhs = some length) :
    (yields.absorb (.upTo greatest) p).level greatest s =
      if s = head then min length (yields.level greatest head)
      else yields.level greatest s := by
  have hvar := Grammar.isVar_of_head? hhead
  have hle := ofForm?_le hlength
  unfold absorb level ofSymbol?
  rw [hhead, hlength]
  simp only [OrderedMap.get?_alter, Symbol.isTerm_eq_false hvar]
  split
  next hterm =>
    have hne : s ≠ head := by
      rintro rfl
      exact Symbol.not_isVar_of_isTerm hterm hvar
    rw [if_neg hne]
  next =>
    split
    next =>
      unfold OrderedMap.getD
      cases OrderedMap.get? yields head with
      | none => simp [Nat.min_eq_left hle]
      | some known => simp
    next => rfl

/-- A production leaves all lengths as they are, or it gives its head a smaller
one and says so. -/
theorem absorb_cases (greatest : Nat) (yields : Yields) (p : Production) :
    (yields.isLoweredBy (.upTo greatest) p = false ∧
        (∀ s, (yields.absorb (.upTo greatest) p).level greatest s =
          yields.level greatest s) ∧ yields.Settled greatest p) ∨
      (yields.isLoweredBy (.upTo greatest) p = true ∧
        (∀ s, (yields.absorb (.upTo greatest) p).level greatest s ≤
          yields.level greatest s) ∧
        ∃ head, p.head? = some head ∧
          (yields.absorb (.upTo greatest) p).level greatest head <
            yields.level greatest head) := by
  cases hhead : p.head? with
  | none =>
      left
      simp [isLoweredBy, absorb, Settled, hhead]
  | some head =>
      cases hlength : yields.ofForm? (.upTo greatest) p.rhs with
      | none =>
          left
          refine ⟨by simp [isLoweredBy, hlength], by simp [absorb, hlength], ?_⟩
          intro _ _ hlt
          rw [ofForm?_of_levels_lt hlt] at hlength
          cases hlength
      | some length =>
          rw [isLoweredBy_eq hhead hlength]
          simp only [level_absorb hhead hlength]
          by_cases hlt : length < yields.level greatest head
          · right
            refine ⟨decide_eq_true hlt, fun s => ?_, head, rfl, ?_⟩
            · split
              next heq => exact heq ▸ Nat.min_le_right _ _
              next => exact Nat.le_refl _
            · rw [if_pos rfl, Nat.min_eq_left (Nat.le_of_lt hlt)]
              exact hlt
          · left
            have hle := Nat.le_of_not_lt hlt
            refine ⟨decide_eq_false hlt, fun s => ?_, ?_⟩
            · split
              next heq => rw [heq, Nat.min_eq_right hle]
              next => rfl
            · intro other hother hsum
              cases hhead.symm.trans hother
              rw [ofForm?_of_levels_lt hsum, Option.some.injEq] at hlength
              exact hlength ▸ hle

/-! ## Passes -/

/-- What a pass can do: it lowers no length, and no production leads to a
smaller one; or it raises none and lowers that of a head. -/
theorem pass_cases (greatest : Nat) (ps : List Production) (yields : Yields) :
    ((pass (.upTo greatest) ps yields).2 = false ∧
        (∀ s, (pass (.upTo greatest) ps yields).1.level greatest s =
          yields.level greatest s) ∧ ∀ p ∈ ps, yields.Settled greatest p) ∨
      ((pass (.upTo greatest) ps yields).2 = true ∧
        (∀ s, (pass (.upTo greatest) ps yields).1.level greatest s ≤
          yields.level greatest s) ∧
        ∃ p ∈ ps, ∃ head, p.head? = some head ∧
          (pass (.upTo greatest) ps yields).1.level greatest head <
            yields.level greatest head) := by
  induction ps generalizing yields with
  | nil => simp [pass]
  | cons p ps ih =>
      simp only [pass, Bool.or_eq_false_iff, Bool.or_eq_true]
      obtain ⟨hkept, hsame, hp⟩ | ⟨hlowered, hle, head, hhead, hlt⟩ :=
        absorb_cases greatest yields p
      · obtain ⟨hrest, hlast, hps⟩ | ⟨hrest, hlast, q, hq, hless⟩ :=
          ih (yields.absorb (.upTo greatest) p)
        · left
          refine ⟨⟨hkept, hrest⟩, fun s => (hlast s).trans (hsame s), ?_⟩
          intro q hq
          rcases List.mem_cons.mp hq with rfl | hq
          · exact hp
          · exact (hps q hq).congr hsame
        · right
          simp only [hsame] at hlast hless
          exact ⟨.inr hrest, hlast, q, List.mem_cons_of_mem p hq, hless⟩
      · right
        have hlast : ∀ s,
            (pass (.upTo greatest) ps
              (yields.absorb (.upTo greatest) p)).1.level greatest s ≤
              (yields.absorb (.upTo greatest) p).level greatest s := by
          obtain ⟨_, hlast, _⟩ | ⟨_, hlast, _⟩ :=
            ih (yields.absorb (.upTo greatest) p)
          · exact fun s => Nat.le_of_eq (hlast s)
          · exact hlast
        exact ⟨.inl hlowered, fun s => Nat.le_trans (hlast s) (hle s), p,
          List.mem_cons_self, head, hhead, Nat.lt_of_le_of_lt (hlast head) hlt⟩

/-- The sum of the lengths of all variables. -/
def rank (g : Grammar) (greatest : Nat) (yields : Yields) : Nat :=
  yields.levels greatest g.variables

theorem rank_pass_lt (hg : g.Consistent)
    (hchanged : (pass (.upTo greatest) g.productions yields).2 = true) :
    rank g greatest (pass (.upTo greatest) g.productions yields).1 <
      rank g greatest yields := by
  obtain ⟨hkept, _, _⟩ | ⟨_, hle, p, hp, head, hhead, hlt⟩ :=
    pass_cases greatest g.productions yields
  · rw [hkept] at hchanged
    cases hchanged
  · exact levels_lt hle (hg.mem_variables_of_head? hp hhead) hlt

theorem levels_empty (hvariables : ∀ s ∈ form, s.isVar = true) :
    levels greatest ⟨[]⟩ form = form.length * greatest := by
  induction form with
  | nil => exact (Nat.zero_mul _).symm
  | cons s form ih =>
      have hs : level greatest ⟨[]⟩ s = greatest :=
        level_of_isVar (hvariables s List.mem_cons_self)
      have hrest := ih fun t ht => hvariables t (List.mem_cons_of_mem s ht)
      rw [levels, hs, hrest, List.length_cons, Nat.succ_mul, Nat.add_comm]

/-- With more passes than the rank counts, the last one lowers no length. -/
theorem settled_settle (hg : g.Consistent)
    (hrounds : rank g greatest yields < rounds) (hp : p ∈ g.productions) :
    (settle (.upTo greatest) g.productions rounds yields).Settled greatest p := by
  induction rounds generalizing yields with
  | zero => exact absurd hrounds (Nat.not_lt_zero _)
  | succ rounds ih =>
      simp only [settle]
      split
      next hchanged =>
        have hless := rank_pass_lt hg hchanged
        exact ih (by omega)
      next hkept =>
        obtain ⟨_, hsame, hsettled⟩ | ⟨hchanged, _⟩ :=
          pass_cases greatest g.productions yields
        · exact (hsettled p hp).congr fun s => (hsame s).symm
        · exact absurd hchanged hkept

theorem settled_shortestYields (hg : g.Consistent) (greatest : Nat)
    (hp : p ∈ g.productions) :
    (g.shortestYields (.upTo greatest)).Settled greatest p := by
  refine settled_settle hg ?_ hp
  rw [rank, levels_empty fun s hs => (hg.mem_variables_iff.mp hs).1]
  exact Nat.lt_succ_self _

/-! ## Strings -/

/-- A short string is no shorter than the length of its form. -/
theorem levels_le_of_yields
    (hsettled : ∀ p ∈ g.productions, yields.Settled greatest p)
    (hyields : g.Yields form word) (hword : Form.isTerminal word = true)
    (hlength : word.length < greatest) :
    yields.levels greatest form ≤ word.length := by
  induction hyields with
  | nil => exact Nat.le_refl _
  | keep s _ ih =>
      obtain ⟨hterm, hrest⟩ := Grammar.isTerminal_cons.mp hword
      rw [List.length_cons] at hlength ⊢
      have hle := ih hrest (by omega)
      rw [levels, level_of_isTerm hterm]
      omega
  | @expand s p rest left right hmem hhead _ _ ihrhs ihrest =>
      obtain ⟨hleft, hright⟩ := Grammar.isTerminal_append.mp hword
      rw [List.length_append] at hlength ⊢
      have hrhs := ihrhs hleft (by omega)
      have hrest := ihrest hright (by omega)
      have hs := hsettled p hmem s hhead (by omega)
      rw [levels]
      omega

theorem fits_of_levels_le (hle : total + yields.levels greatest form ≤ bound)
    (hbound : bound < greatest) :
    yields.fits (.upTo greatest) bound total form = true := by
  induction form generalizing total with
  | nil => rfl
  | cons s form ih =>
      rw [levels] at hle
      have hsymbol : yields.ofSymbol? s = some (yields.level greatest s) :=
        ofSymbol?_of_level_lt (by omega)
      rw [fits, hsymbol]
      simp only
      rw [Counting.add_upTo (by omega), Bool.and_eq_true]
      exact ⟨decide_eq_true (by omega), ih (by omega)⟩

/-- What yields a string that is short enough fits into the length of it. -/
theorem fits_of_yields (hg : g.Consistent) (hyields : g.Yields form word)
    (hword : Form.isTerminal word = true) (hlength : word.length < greatest) :
    (g.shortestYields (.upTo greatest)).fits (.upTo greatest) word.length 0
      form = true := by
  have hle := levels_le_of_yields
    (fun _ hp => settled_shortestYields hg greatest hp) hyields hword hlength
  exact fits_of_levels_le (by rwa [Nat.zero_add]) hlength

end FormalGrammars.Yields
