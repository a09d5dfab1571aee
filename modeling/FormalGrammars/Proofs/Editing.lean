import FormalGrammars.Grammar.Consistency

/-!
# Grammars under edits

A grammar is edited in place by additions, removals and changes of the start.
An edit may be refused.  Whatever edits a grammar has gone through since it was
empty, its productions are distinct and allowed, its symbols are those of its
productions, each with the number of its occurrences, and a refused edit has
left it as it was.  Several productions are added at once or, when one of them
is refused, not at all; added one by one, those before it would stay.
-/

namespace FormalGrammars

/-! ## Edits in place -/

inductive Edit where
  | add (p : Production)
  | addAll (ps : List Production)
  | remove (p : Production)
  | setStart (start : Symbol)
  deriving DecidableEq, Repr

namespace Edit

/-- What the edit answers, and the grammar after it.  A single addition tells
whether the production was new, a removal whether it was there. -/
def perform (g : Grammar) : Edit → Except Fault (Option Bool) × Grammar
  | .add p =>
    match g.add p with
    | .error fault => (.error fault, g)
    | .ok (isNew, after) => (.ok (some isNew), after)
  | .addAll ps =>
    match g.addAll ps with
    | .error fault => (.error fault, g)
    | .ok after => (.ok none, after)
  | .remove p =>
    let (isOld, after) := g.remove p
    (.ok (some isOld), after)
  | .setStart start =>
    match g.setStart start with
    | .error fault => (.error fault, g)
    | .ok after => (.ok none, after)

/-- The grammar after all edits, be they refused or not. -/
def performAll (edits : List Edit) (g : Grammar) : Grammar :=
  edits.foldl (fun g edit => (edit.perform g).2) g

/-- Adds to the grammar itself until a production is refused. -/
def addEach : List Production → Grammar → Option Fault × Grammar
  | [], g => (none, g)
  | p :: ps, g =>
    match g.add p with
    | .error fault => (some fault, g)
    | .ok (_, after) => addEach ps after

end Edit

/-! ## What the checks say -/

namespace Grammar

variable {g h : Grammar} {p : Production} {ps : List Production} {fault : Fault}

theorem lhs_ne_nil_of_faultOf? (hfault : g.faultOf? p = none) : p.lhs ≠ [] := by
  intro hlhs
  simp [faultOf?, hlhs] at hfault

theorem name_allowed_of_faultOf? (hfault : g.faultOf? p = none) {s : Symbol}
    (hs : s ∈ p.symbols) : isReserved s.name = false := by
  rw [faultOf?, if_neg (by simpa using lhs_ne_nil_of_faultOf? hfault)] at hfault
  cases hfind : p.symbols.find? fun s => isReserved s.name with
  | some t => simp [hfind] at hfault
  | none =>
      rw [List.find?_eq_none] at hfind
      simpa using hfind s hs

theorem hasHead_of_faultOf? (hfault : g.faultOf? p = none)
    (hvalidity : g.validity = .contextFree) : p.hasHead = true := by
  rw [faultOf?, if_neg (by simpa using lhs_ne_nil_of_faultOf? hfault)] at hfault
  cases hhead : p.hasHead with
  | true => rfl
  | false =>
      cases hfind : p.symbols.find? fun s => isReserved s.name with
      | some t => simp [hfind] at hfault
      | none => simp [hfind, hhead, hvalidity] at hfault

theorem add_of_fault (hfault : g.faultOf? p = some fault) :
    g.add p = .error fault := by
  rw [add, hfault]

theorem add_of_no_fault (hfault : g.faultOf? p = none) :
    g.add p = .ok (!g.contains p, g.insert p) := by
  rw [add, hfault]

theorem Admissible.insert (hg : g.Admissible) (hfault : g.faultOf? p = none) :
    (g.insert p).Admissible := by
  have hmem : ∀ {q}, q ∈ (g.insert p).productions →
      q ∈ g.productions ∨ q = p := by
    intro q hq
    rwa [productions_insert, mem_insertNew] at hq
  constructor
  · intro q hq
    rcases hmem hq with hold | rfl
    · exact hg.lhs_ne_nil q hold
    · exact lhs_ne_nil_of_faultOf? hfault
  · intro q hq s hs
    rcases hmem hq with hold | rfl
    · exact hg.name_allowed q hold s hs
    · exact name_allowed_of_faultOf? hfault hs
  · intro hvalidity q hq
    rw [validity_insert] at hvalidity
    rcases hmem hq with hold | rfl
    · exact hg.head_of_contextFree hvalidity q hold
    · exact hasHead_of_faultOf? hfault hvalidity

theorem productions_remove (p : Production) :
    (g.remove p).2.productions = g.productions.erase p := by
  unfold Grammar.remove
  split
  next => rfl
  next hnot =>
    rw [List.erase_of_not_mem]
    exact fun hmem => hnot (contains_iff.mpr hmem)

theorem validity_remove (p : Production) :
    (g.remove p).2.validity = g.validity := by
  unfold Grammar.remove
  split <;> rfl

theorem Admissible.remove (hg : g.Admissible) (p : Production) :
    (g.remove p).2.Admissible := by
  have hmem : ∀ {q}, q ∈ (g.remove p).2.productions → q ∈ g.productions := by
    intro q hq
    rw [productions_remove] at hq
    exact List.mem_of_mem_erase hq
  refine ⟨fun q hq => hg.lhs_ne_nil q (hmem hq),
    fun q hq => hg.name_allowed q (hmem hq), fun hvalidity q hq => ?_⟩
  rw [validity_remove] at hvalidity
  exact hg.head_of_contextFree hvalidity q (hmem hq)

theorem eq_of_setStart {start : Symbol} (hset : g.setStart start = .ok h) :
    h = { g with start := some start } := by
  unfold setStart at hset
  split at hset
  next => cases hset; rfl
  next => cases hset

theorem Admissible.setStart (hg : g.Admissible) {start : Symbol}
    (hset : g.setStart start = .ok h) : h.Admissible := by
  rw [eq_of_setStart hset]
  exact ⟨hg.lhs_ne_nil, hg.name_allowed, hg.head_of_contextFree⟩

/-! ## Several productions -/

theorem addAll_cons (p : Production) (ps : List Production) :
    g.addAll (p :: ps) =
      match g.faultOf? p with
      | some fault => .error fault
      | none => (g.insert p).addAll ps := by
  cases hfault : g.faultOf? p with
  | some fault =>
      rw [addAll, List.foldlM_cons, add_of_fault hfault]
      rfl
  | none =>
      rw [addAll, List.foldlM_cons, add_of_no_fault hfault]
      rfl

/-- What allowed productions keep, a successful addition keeps. -/
theorem addAll_keeps {motive : Grammar → Prop}
    (hinsert : ∀ g p, motive g → g.faultOf? p = none → motive (g.insert p))
    (hg : motive g) (hadd : g.addAll ps = .ok h) : motive h := by
  induction ps generalizing g with
  | nil =>
      cases hadd
      exact hg
  | cons p ps ih =>
      rw [addAll_cons] at hadd
      cases hfault : g.faultOf? p with
      | some fault => simp [hfault] at hadd
      | none =>
          rw [hfault] at hadd
          exact ih (hinsert g p hg hfault) hadd

/-- Where adding one by one stops, adding to a copy is refused. -/
theorem addAll_eq_addEach (g : Grammar) (ps : List Production) :
    g.addAll ps =
      match Edit.addEach ps g with
      | (none, after) => .ok after
      | (some fault, _) => .error fault := by
  induction ps generalizing g with
  | nil => rfl
  | cons p ps ih =>
      rw [addAll_cons, Edit.addEach]
      cases hfault : g.faultOf? p with
      | some fault => rw [add_of_fault hfault]
      | none => rw [add_of_no_fault hfault, ih]

/-- One by one, the productions before a refused one have been added. -/
theorem addEach_append_of_fault {before after : List Production}
    (hbefore : Edit.addEach before g = (none, h))
    (hfault : h.faultOf? p = some fault) :
    Edit.addEach (before ++ p :: after) g = (some fault, h) := by
  induction before generalizing g with
  | nil =>
      cases hbefore
      rw [List.nil_append, Edit.addEach, add_of_fault hfault]
  | cons q before ih =>
      rw [List.cons_append, Edit.addEach]
      rw [Edit.addEach] at hbefore
      cases hq : g.faultOf? q with
      | some other => simp [add_of_fault hq] at hbefore
      | none =>
          rw [add_of_no_fault hq] at hbefore ⊢
          exact ih hbefore

/-! ## All edits -/

/-- What no edit breaks. -/
structure Kept (validity : Validity) (g : Grammar) : Prop where
  validity_eq : g.validity = validity
  consistent : g.Consistent
  admissible : g.Admissible

variable {validity : Validity}

theorem kept_empty (validity : Validity) : (empty validity).Kept validity :=
  ⟨rfl, consistent_empty validity, admissible_empty validity⟩

theorem Kept.insert (hg : g.Kept validity) (hfault : g.faultOf? p = none) :
    (g.insert p).Kept validity :=
  ⟨(validity_insert p).trans hg.validity_eq, hg.consistent.insert p,
    hg.admissible.insert hfault⟩

theorem Kept.perform (hg : g.Kept validity) (edit : Edit) :
    (edit.perform g).2.Kept validity := by
  cases edit with
  | add p =>
      rw [Edit.perform]
      cases hfault : g.faultOf? p with
      | some fault =>
          rw [add_of_fault hfault]
          exact hg
      | none =>
          rw [add_of_no_fault hfault]
          exact hg.insert hfault
  | addAll ps =>
      rw [Edit.perform]
      cases hadd : g.addAll ps with
      | error fault => exact hg
      | ok after =>
          exact addAll_keeps (motive := Kept validity)
            (fun _ _ hbefore hfault => hbefore.insert hfault) hg hadd
  | remove p =>
      exact ⟨(validity_remove p).trans hg.validity_eq, hg.consistent.remove p,
        hg.admissible.remove p⟩
  | setStart start =>
      rw [Edit.perform]
      cases hset : g.setStart start with
      | error fault => exact hg
      | ok after =>
          refine ⟨?_, hg.consistent.setStart hset, hg.admissible.setStart hset⟩
          rw [eq_of_setStart hset]
          exact hg.validity_eq

theorem Kept.performAll (hg : g.Kept validity) (edits : List Edit) :
    (Edit.performAll edits g).Kept validity := by
  induction edits generalizing g with
  | nil => exact hg
  | cons edit edits ih => exact ih (hg.perform edit)

theorem perform_of_refused {edit : Edit}
    (hrefused : (edit.perform g).1 = .error fault) : (edit.perform g).2 = g := by
  cases edit with
  | add p =>
      rw [Edit.perform] at hrefused ⊢
      cases hadd : g.add p with
      | error fault => rfl
      | ok result => simp [hadd] at hrefused
  | addAll ps =>
      rw [Edit.perform] at hrefused ⊢
      cases hadd : g.addAll ps with
      | error fault => rfl
      | ok after => simp [hadd] at hrefused
  | remove p => cases hrefused
  | setStart start =>
      rw [Edit.perform] at hrefused ⊢
      cases hset : g.setStart start with
      | error fault => rfl
      | ok after => simp [hset] at hrefused

/-- Several productions are added as one by one, or not at all. -/
theorem perform_addAll (g : Grammar) (ps : List Production) :
    (Edit.addAll ps).perform g =
      match Edit.addEach ps g with
      | (none, after) => (.ok none, after)
      | (some fault, _) => (.error fault, g) := by
  rw [Edit.perform, addAll_eq_addEach]
  cases Edit.addEach ps g with
  | mk refused after =>
      cases refused with
      | none => rfl
      | some fault => rfl

/-- One by one `A → a` is there when `λ → b` is refused. -/
example :
    let ps := [Production.rule (.var "A") [.term "a"], ⟨[], [.term "b"]⟩]
    (Edit.addEach ps (empty .contextFree)).2.contains
        (.rule (.var "A") [.term "a"]) = true ∧
      ((Edit.addAll ps).perform (empty .contextFree)).2 =
        empty .contextFree := by
  decide

theorem Consistent.get?_tally (hg : g.Consistent) {s : Symbol}
    (hs : s ∈ g.tally.keys) :
    OrderedMap.get? g.tally s = some (g.occurrences s) := by
  obtain ⟨count, hget⟩ := OrderedMap.get?_of_mem_keys hs
  have hcount := hg.count_eq s
  rw [Tally.count, OrderedMap.getD, hget] at hcount
  rw [hget, ← hcount]
  rfl

/-- What holds of a grammar after any edits, and of the edits that it refuses. -/
theorem edits_keep_grammar (validity : Validity) (edits : List Edit) :
    let g := Edit.performAll edits (empty validity)
    g.validity = validity ∧
      g.productions.Nodup ∧
      (g.variables.Nodup ∧ ∀ s, s ∈ g.variables ↔
        s.isVar = true ∧ ∃ p ∈ g.productions, s ∈ p.lhs ++ p.rhs) ∧
      (g.terminals.Nodup ∧ ∀ s, s ∈ g.terminals ↔
        s.isTerm = true ∧ ∃ p ∈ g.productions, s ∈ p.lhs ++ p.rhs) ∧
      (∀ s, s ∈ g.variables ∨ s ∈ g.terminals →
        OrderedMap.get? g.tally s =
          some ((g.productions.flatMap fun p => p.lhs ++ p.rhs).count s)) ∧
      (∀ p ∈ g.productions, p.lhs ≠ [] ∧
        ∀ s ∈ p.lhs ++ p.rhs, s.name ≠ "" ∧ s.name ≠ "$") ∧
      (validity = .contextFree →
        ∀ p ∈ g.productions, ∃ s, s.isVar = true ∧ p.lhs = [s]) ∧
      (∀ s, g.start = some s → s.isVar = true) ∧
      (∀ edit : Edit, ∀ fault, (edit.perform g).1 = .error fault →
        (edit.perform g).2 = g) ∧
      ∀ before p after h fault, Edit.addEach before g = (none, h) →
        h.faultOf? p = some fault →
        (Edit.addAll (before ++ p :: after)).perform g = (.error fault, g) := by
  intro g
  have hg : g.Kept validity := (kept_empty validity).performAll edits
  have hkeys := hg.consistent.tally_sound.keys_nodup
  have hlisted : ∀ s, s ∈ g.variables ∨ s ∈ g.terminals → s ∈ g.tally.keys := by
    rintro s (hs | hs)
    · exact (List.mem_filter.mp hs).1
    · exact (List.mem_filter.mp hs).1
  refine ⟨hg.validity_eq, hg.consistent.productions_nodup,
    ⟨hkeys.filter _, fun s => hg.consistent.mem_variables_iff⟩,
    ⟨hkeys.filter _, fun s => hg.consistent.mem_terminals_iff⟩, ?_, ?_, ?_,
    hg.consistent.start_isVar, fun edit fault => perform_of_refused, ?_⟩
  · intro s hs
    exact hg.consistent.get?_tally (hlisted s hs)
  · intro p hp
    refine ⟨hg.admissible.lhs_ne_nil p hp, fun s hs => ?_⟩
    have hallowed := hg.admissible.name_allowed p hp s hs
    simpa [isReserved, endMarker] using hallowed
  · intro hvalidity p hp
    have hhead := hg.admissible.head_of_contextFree
      (hg.validity_eq.trans hvalidity) p hp
    obtain ⟨s, hs⟩ := Option.isSome_iff_exists.mp hhead
    obtain ⟨hlhs, hvar⟩ := Production.head?_eq_some_iff.mp hs
    exact ⟨s, hvar, hlhs⟩
  · intro before p after h fault hbefore hfault
    rw [perform_addAll, addEach_append_of_fault hbefore hfault]

end Grammar

end FormalGrammars
