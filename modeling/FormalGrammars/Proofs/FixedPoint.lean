import FormalGrammars.Iteration

/-!
# Passes that come to rest

The fixed points of the library are computed by passes over a list that are
repeated a bounded number of times.  A state is measured by what it lacks of a
finite domain: a single update that changes the state brings in an element
that was missing, so the length of the domain bounds the number of passes,
and the last state is left unchanged by every single update.
-/

namespace FormalGrammars

section Missing

variable {γ : Type}

def missing (domain : List γ) (view : γ → Bool) : List γ :=
  domain.filter fun x => !view x

theorem missing_length_le (domain : List γ) {small large : γ → Bool}
    (hsub : ∀ x, small x = true → large x = true) :
    (missing domain large).length ≤ (missing domain small).length := by
  unfold missing
  rw [← List.countP_eq_length_filter, ← List.countP_eq_length_filter]
  apply List.countP_mono_left
  intro x _ hlarge
  by_cases hsmall : small x = true
  · rw [hsub x hsmall] at hlarge
    simp at hlarge
  · simpa using hsmall

theorem missing_length_lt (new : γ) {domain : List γ} {small large : γ → Bool}
    (hsub : ∀ x, small x = true → large x = true)
    (hnew : new ∈ domain) (hsmall : small new = false)
    (hlarge : large new = true) :
    (missing domain large).length < (missing domain small).length := by
  obtain ⟨before, after, rfl⟩ := List.append_of_mem hnew
  have hbefore := missing_length_le before hsub
  have hafter := missing_length_le after hsub
  simp only [missing] at hbefore hafter
  simp only [missing, List.filter_append, List.length_append,
    List.filter_cons, hsmall, hlarge]
  simp only [Bool.not_true, Bool.not_false, Bool.false_eq_true, if_false,
    if_true, List.length_cons]
  omega

end Missing

/-! ## Passes over a list -/

section Passes

variable {α β : Type} {update : α → β → α} {items : List β}
  {motive : α → Prop} {rank : α → Nat}

theorem foldl_eq_self {state : α}
    (hfixed : ∀ item ∈ items, update state item = state) :
    items.foldl update state = state := by
  apply List.foldlRecOn (motive := fun other => other = state)
  · rfl
  · intro other hother item hitem
    rw [hother]
    exact hfixed item hitem

/-- Updates that keep a property of the states and lower a rank whenever they
change the state. -/
structure Descends (update : α → β → α) (items : List β)
    (motive : α → Prop) (rank : α → Nat) : Prop where
  keeps : ∀ state, motive state → ∀ item ∈ items,
    motive (update state item)
  lowers : ∀ state, motive state → ∀ item ∈ items,
    update state item ≠ state → rank (update state item) < rank state

theorem Descends.tail {item : β}
    (hdescends : Descends update (item :: items) motive rank) :
    Descends update items motive rank :=
  ⟨fun state hstate other hother =>
      hdescends.keeps state hstate other (List.mem_cons_of_mem item hother),
    fun state hstate other hother =>
      hdescends.lowers state hstate other (List.mem_cons_of_mem item hother)⟩

theorem Descends.foldl (hdescends : Descends update items motive rank)
    {state : α} (hstate : motive state) :
    motive (items.foldl update state) ∧
      rank (items.foldl update state) ≤ rank state := by
  classical
  induction items generalizing state with
  | nil => exact ⟨hstate, Nat.le_refl _⟩
  | cons item items ih =>
      have hnext := hdescends.keeps state hstate item List.mem_cons_self
      have hrest := ih hdescends.tail hnext
      refine ⟨hrest.1, Nat.le_trans hrest.2 ?_⟩
      by_cases hfixed : update state item = state
      · exact Nat.le_of_eq (congrArg rank hfixed)
      · exact Nat.le_of_lt
          (hdescends.lowers state hstate item List.mem_cons_self hfixed)

theorem Descends.foldl_lt_or_fixed
    (hdescends : Descends update items motive rank)
    {state : α} (hstate : motive state) :
    rank (items.foldl update state) < rank state ∨
      ∀ item ∈ items, update state item = state := by
  classical
  induction items generalizing state with
  | nil => exact .inr (by simp)
  | cons item items ih =>
      by_cases hfixed : update state item = state
      · rw [List.foldl_cons, hfixed]
        refine (ih hdescends.tail hstate).imp id fun hrest => ?_
        intro other hother
        rcases List.mem_cons.mp hother with rfl | hother
        · exact hfixed
        · exact hrest other hother
      · left
        have hnext := hdescends.keeps state hstate item List.mem_cons_self
        have hlower :=
          hdescends.lowers state hstate item List.mem_cons_self hfixed
        exact Nat.lt_of_le_of_lt (hdescends.tail.foldl hnext).2 hlower

/-- After as many passes as the rank counts no update changes the state. -/
theorem Descends.iterate [DecidableEq α]
    (hdescends : Descends update items motive rank) {state : α}
    (hstate : motive state) {rounds : Nat} (hrounds : rank state ≤ rounds) :
    let last := iterateUntilStable (items.foldl update) rounds state
    motive last ∧ ∀ item ∈ items, update last item = last := by
  have hkeep : ∀ s, motive s → motive (items.foldl update s) :=
    fun s hs => (hdescends.foldl hs).1
  have hlast : motive (iterateUntilStable (items.foldl update) rounds state) := by
    rw [iterateUntilStable_eq_stepTimes]
    exact stepTimes_induct hkeep rounds hstate
  have hstable : items.foldl update
      (iterateUntilStable (items.foldl update) rounds state) =
      iterateUntilStable (items.foldl update) rounds state := by
    apply iterateUntilStable_stable rank hkeep ?_ hstate hrounds
    intro s hs hne
    rcases hdescends.foldl_lt_or_fixed hs with hlt | hfixed
    · exact hlt
    · exact absurd (foldl_eq_self hfixed) hne
  refine ⟨hlast, ?_⟩
  rcases hdescends.foldl_lt_or_fixed hlast with hlt | hfixed
  · rw [hstable] at hlt
    exact absurd hlt (Nat.lt_irrefl _)
  · exact hfixed

end Passes

end FormalGrammars
