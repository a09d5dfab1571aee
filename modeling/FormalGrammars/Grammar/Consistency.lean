import FormalGrammars.Grammar.Basic

/-!
# Consistency of grammars

A grammar is consistent when its productions are distinct and its tally counts
their symbols.  The operations on grammars build consistent grammars from
consistent ones, whatever productions they are given.

A grammar is admissible when each of its productions is one that may be added.
That holds of the grammars that are built by additions; productions that are
put in unchecked may break it.
-/

namespace FormalGrammars

/-! ## Tallies -/

namespace Tally

def count (tally : Tally) (s : Symbol) : Nat :=
  OrderedMap.getD tally s 0

/-- Each symbol is listed once, and none with the count zero. -/
structure Sound (tally : Tally) : Prop where
  keys_nodup : tally.keys.Nodup
  count_pos : ∀ s ∈ tally.keys, 0 < tally.count s

theorem sound_empty : Sound ⟨[]⟩ := by
  constructor <;> simp [OrderedMap.keys]

theorem count_add (tally : Tally) (s t : Symbol) :
    (tally.add s).count t = tally.count t + if t = s then 1 else 0 := by
  unfold count add OrderedMap.getD
  rw [OrderedMap.get?_alter]
  by_cases heq : t = s
  · simp [heq, OrderedMap.getD]
  · simp [heq]

theorem Sound.add {tally : Tally} (htally : tally.Sound) (s : Symbol) :
    (tally.add s).Sound := by
  constructor
  · rw [Tally.add, OrderedMap.keys_alter]
    exact nodup_insertNew htally.keys_nodup s
  · intro t ht
    rw [count_add]
    rw [Tally.add, OrderedMap.keys_alter, mem_insertNew] at ht
    rcases ht with ht | ht
    · have hpos := htally.count_pos t ht
      omega
    · simp [ht]

theorem mem_keys_of_count_pos {tally : Tally} {s : Symbol} (hpos : 0 < tally.count s) :
    s ∈ tally.keys := by
  unfold count OrderedMap.getD at hpos
  cases hget : OrderedMap.get? tally s with
  | none => simp [hget] at hpos
  | some value => exact OrderedMap.mem_keys_of_get? hget

theorem Sound.mem_keys_iff {tally : Tally} (htally : tally.Sound) {s : Symbol} :
    s ∈ tally.keys ↔ 0 < tally.count s :=
  ⟨htally.count_pos s, mem_keys_of_count_pos⟩

theorem count_remove (tally : Tally) (s t : Symbol) :
    (tally.remove s).count t = tally.count t - if t = s then 1 else 0 := by
  unfold remove
  cases hget : OrderedMap.get? tally s with
  | none =>
    by_cases heq : t = s
    · simp [count, OrderedMap.getD, heq, hget]
    · simp [heq]
  | some value =>
    simp only
    split
    next hle =>
      unfold count OrderedMap.getD
      rw [OrderedMap.get?_erase]
      by_cases heq : t = s
      · simp [heq, hget]
        omega
      · simp [heq]
    next hle =>
      unfold count OrderedMap.getD
      rw [OrderedMap.get?_insert]
      by_cases heq : t = s
      · simp [heq, hget]
      · simp [heq]

theorem Sound.remove {tally : Tally} (htally : tally.Sound) (s : Symbol) :
    (tally.remove s).Sound := by
  have hnodup : (tally.remove s).keys.Nodup := by
    unfold Tally.remove
    split
    next => exact htally.keys_nodup
    next =>
      split
      next =>
        rw [OrderedMap.keys_erase]
        exact List.Pairwise.filter _ htally.keys_nodup
      next =>
        rw [OrderedMap.keys_insert]
        exact nodup_insertNew htally.keys_nodup s
  refine ⟨hnodup, ?_⟩
  intro t ht
  rw [count_remove]
  unfold Tally.remove at ht
  split at ht
  next hget =>
    have hpos := htally.count_pos t ht
    have hne : t ≠ s := fun heq => OrderedMap.get?_eq_none_iff.mp hget (heq ▸ ht)
    simpa [hne] using hpos
  next value hget =>
    split at ht
    next =>
      rw [OrderedMap.keys_erase, List.mem_filter] at ht
      have hne : t ≠ s := by simpa using ht.2
      simpa [hne] using htally.count_pos t ht.1
    next hle =>
      rw [OrderedMap.keys_insert, mem_insertNew] at ht
      by_cases heq : t = s
      · subst heq
        simp [count, OrderedMap.getD, hget]
        omega
      · rcases ht with ht | ht
        · simpa [heq] using htally.count_pos t ht
        · exact absurd ht heq

theorem count_addAll (tally : Tally) (form : Form) (s : Symbol) :
    (tally.addAll form).count s = tally.count s + form.count s := by
  induction form generalizing tally with
  | nil => simp [addAll]
  | cons t form ih =>
    have hfold : tally.addAll (t :: form) = (tally.add t).addAll form := rfl
    rw [hfold, ih, count_add, List.count_cons]
    by_cases heq : s = t
    · simp [heq]
      omega
    · simp [heq, Ne.symm heq]

theorem count_removeAll (tally : Tally) (form : Form) (s : Symbol) :
    (tally.removeAll form).count s = tally.count s - form.count s := by
  induction form generalizing tally with
  | nil => simp [removeAll]
  | cons t form ih =>
    have hfold : tally.removeAll (t :: form) = (tally.remove t).removeAll form := rfl
    rw [hfold, ih, count_remove, List.count_cons]
    by_cases heq : s = t
    · simp [heq]
      omega
    · simp [heq, Ne.symm heq]

theorem Sound.addAll {tally : Tally} (htally : tally.Sound) (form : Form) :
    (tally.addAll form).Sound := by
  induction form generalizing tally with
  | nil => exact htally
  | cons s form ih => exact ih (htally.add s)

theorem Sound.removeAll {tally : Tally} (htally : tally.Sound) (form : Form) :
    (tally.removeAll form).Sound := by
  induction form generalizing tally with
  | nil => exact htally
  | cons s form ih => exact ih (htally.remove s)

end Tally

/-! ## Grammars -/

namespace Grammar

/-- The number of occurrences of a symbol in the productions. -/
def occurrences (g : Grammar) (s : Symbol) : Nat :=
  (g.productions.flatMap Production.symbols).count s

structure Consistent (g : Grammar) : Prop where
  productions_nodup : g.productions.Nodup
  tally_sound : g.tally.Sound
  count_eq : ∀ s, g.tally.count s = g.occurrences s
  start_isVar : ∀ s, g.start = some s → s.isVar = true

structure Admissible (g : Grammar) : Prop where
  lhs_ne_nil : ∀ p ∈ g.productions, p.lhs ≠ []
  name_allowed : ∀ p ∈ g.productions, ∀ s ∈ p.symbols, isReserved s.name = false
  head_of_contextFree :
    g.validity = .contextFree → ∀ p ∈ g.productions, p.hasHead = true

theorem consistent_empty (validity : Validity) : (empty validity).Consistent := by
  constructor
  · simp [empty]
  · exact Tally.sound_empty
  · simp [empty, occurrences, Tally.count, OrderedMap.getD, OrderedMap.get?]
  · simp [empty]

theorem admissible_empty (validity : Validity) : (empty validity).Admissible := by
  constructor <;> simp [empty]

variable {g : Grammar}

theorem contains_iff {p : Production} : g.contains p = true ↔ p ∈ g.productions := by
  simp [contains]

@[simp] theorem start_insert (p : Production) : (g.insert p).start = g.start := by
  unfold insert
  split <;> rfl

@[simp] theorem validity_insert (p : Production) : (g.insert p).validity = g.validity := by
  unfold insert
  split <;> rfl

theorem productions_insert (p : Production) :
    (g.insert p).productions = insertNew g.productions p := by
  unfold insert insertNew
  by_cases hmem : p ∈ g.productions
  · rw [if_pos (contains_iff.mpr hmem), if_pos hmem]
  · rw [if_neg (fun h => hmem (contains_iff.mp h)), if_neg hmem]

theorem productions_foldl_insert (ps : List Production) :
    (ps.foldl Grammar.insert g).productions = extendNew g.productions ps := by
  induction ps generalizing g with
  | nil => rfl
  | cons p ps ih =>
    rw [List.foldl_cons, ih, productions_insert]
    rfl

theorem start_foldl_insert (ps : List Production) :
    (ps.foldl Grammar.insert g).start = g.start := by
  induction ps generalizing g with
  | nil => rfl
  | cons p ps ih => rw [List.foldl_cons, ih, start_insert]

theorem Consistent.insert (hg : g.Consistent) (p : Production) : (g.insert p).Consistent := by
  by_cases hmem : g.contains p = true
  · simpa [Grammar.insert, hmem] using hg
  constructor
  · rw [productions_insert]
    exact nodup_insertNew hg.productions_nodup p
  · simp only [Grammar.insert, hmem]
    exact hg.tally_sound.addAll p.symbols
  · intro s
    simp only [Grammar.insert, hmem, occurrences, Bool.false_eq_true, if_false,
      Tally.count_addAll, List.flatMap_append, List.flatMap_singleton, List.count_append]
    rw [hg.count_eq s, occurrences]
  · intro s hs
    rw [start_insert] at hs
    exact hg.start_isVar s hs

theorem Consistent.foldl_insert (hg : g.Consistent) (ps : List Production) :
    (ps.foldl Grammar.insert g).Consistent := by
  induction ps generalizing g with
  | nil => exact hg
  | cons p ps ih => exact ih (hg.insert p)

theorem Consistent.withProductions (hg : g.Consistent) (ps : List Production) :
    (g.withProductions ps).Consistent := by
  apply foldl_insert
  constructor
  · simp
  · exact Tally.sound_empty
  · simp [occurrences, Tally.count, OrderedMap.getD, OrderedMap.get?]
  · exact hg.start_isVar

/-- Any productions make up a consistent grammar with a start variable. -/
theorem consistent_of_start {validity : Validity} {start : Symbol} (hvar : start.isVar = true)
    (ps : List Production) :
    (Grammar.withProductions { validity := validity, start := some start } ps).Consistent := by
  apply Consistent.withProductions
  constructor
  · simp
  · exact Tally.sound_empty
  · simp [occurrences, Tally.count, OrderedMap.getD, OrderedMap.get?]
  · simpa using hvar

theorem productions_withProductions (ps : List Production) :
    (g.withProductions ps).productions = extendNew [] ps :=
  productions_foldl_insert ps

@[simp] theorem start_withProductions (ps : List Production) :
    (g.withProductions ps).start = g.start :=
  start_foldl_insert ps

theorem Consistent.remove (hg : g.Consistent) (p : Production) : (g.remove p).2.Consistent := by
  unfold Grammar.remove
  split
  next hmem =>
    constructor
    · exact hg.productions_nodup.erase p
    · exact hg.tally_sound.removeAll p.symbols
    · intro s
      have hperm := (List.perm_cons_erase (contains_iff.mp hmem)).flatMap_right
        Production.symbols
      simp only [Tally.count_removeAll, hg.count_eq s, occurrences, hperm.count_eq,
        List.flatMap_cons, List.count_append]
      omega
    · exact hg.start_isVar
  next => exact hg

theorem Consistent.setStart {h : Grammar} {start : Symbol} (hg : g.Consistent)
    (hset : g.setStart start = .ok h) : h.Consistent := by
  unfold Grammar.setStart at hset
  split at hset
  next hvar =>
    cases hset
    exact ⟨hg.productions_nodup, hg.tally_sound, hg.count_eq, by simpa using hvar⟩
  next => cases hset

theorem Consistent.mem_keys_iff (hg : g.Consistent) {s : Symbol} :
    s ∈ g.tally.keys ↔ ∃ p ∈ g.productions, s ∈ p.symbols := by
  rw [hg.tally_sound.mem_keys_iff, hg.count_eq, occurrences]
  rw [List.count_pos_iff, List.mem_flatMap]

theorem Consistent.mem_variables_iff (hg : g.Consistent) {s : Symbol} :
    s ∈ g.variables ↔ s.isVar = true ∧ ∃ p ∈ g.productions, s ∈ p.symbols := by
  rw [Grammar.variables, List.mem_filter, hg.mem_keys_iff, and_comm]

theorem Consistent.variables_nodup (hg : g.Consistent) : g.variables.Nodup :=
  List.Pairwise.filter _ hg.tally_sound.keys_nodup

theorem Consistent.mem_terminals_iff (hg : g.Consistent) {s : Symbol} :
    s ∈ g.terminals ↔ s.isTerm = true ∧ ∃ p ∈ g.productions, s ∈ p.symbols := by
  rw [terminals, List.mem_filter, hg.mem_keys_iff, and_comm]

theorem Consistent.mem_terminals_of_mem_rhs (hg : g.Consistent) {p : Production}
    (hmem : p ∈ g.productions) {s : Symbol} (hs : s ∈ p.rhs) (hterm : s.isTerm = true) :
    s ∈ g.terminals :=
  hg.mem_terminals_iff.mpr ⟨hterm, p, hmem, List.mem_append_right _ hs⟩

theorem Consistent.mem_variables_of_mem_rhs (hg : g.Consistent) {p : Production}
    (hmem : p ∈ g.productions) {s : Symbol} (hs : s ∈ p.rhs) (hvar : s.isVar = true) :
    s ∈ g.variables :=
  hg.mem_variables_iff.mpr ⟨hvar, p, hmem, List.mem_append_right _ hs⟩

theorem Consistent.mem_variables_of_head? (hg : g.Consistent) {p : Production}
    (hmem : p ∈ g.productions) {s : Symbol} (hhead : p.head? = some s) : s ∈ g.variables :=
  hg.mem_variables_iff.mpr
    ⟨(Production.head?_eq_some_iff.mp hhead).2, p, hmem, Production.head_mem_symbols hhead⟩

end Grammar

end FormalGrammars
