import FormalGrammars.Proofs.Nullability
import Mathlib.Data.List.Basic

/-!
# Derivations of the empty string

The tree of a nullable variable is found by asking for the trees of the symbols
on the right side of its witness.  Nullable variables may call for each other,
so it has to be shown that the questions come to an end.  They do because a
witness stands behind the witnesses of all the symbols that it asks for: with
every question the position in the order of discovery goes down.
-/

namespace FormalGrammars

/-! ## Productions with a head -/

/-- The grammar without the productions that have more on the left than a single
variable. -/
def Grammar.headed (g : Grammar) : Grammar :=
  g.withProductions (g.productions.filter Production.hasHead)

namespace Grammar

variable {g : Grammar}

theorem mem_productions_headed {p : Production} :
    p ∈ g.headed.productions ↔ p ∈ g.productions ∧ p.hasHead = true := by
  rw [headed, productions_withProductions, mem_extendNew, List.mem_filter]
  simp

theorem contextFree_headed (g : Grammar) : g.headed.ContextFree :=
  fun _ hmem => (mem_productions_headed.mp hmem).2

/-- A yield expands by productions with a head only. -/
theorem yields_headed_iff {form result : Form} :
    g.headed.Yields form result ↔ g.Yields form result := by
  constructor
  · apply Yields.mono
    intro p hmem
    exact (mem_productions_headed.mp hmem).1
  · intro hyields
    induction hyields with
    | nil => exact .nil
    | keep s _ ih => exact .keep s ih
    | expand p hmem hhead _ _ ihrhs ihrest =>
        have hkept : p ∈ g.headed.productions := by
          apply mem_productions_headed.mpr
          exact ⟨hmem, Option.isSome_of_eq_some hhead⟩
        exact .expand p hkept hhead ihrhs ihrest

end Grammar

namespace Nullability

variable {g : Grammar} {n : Nullability} {s t : Symbol} {p : Production}

theorem contains_iff_derives :
    g.nullability.contains s = true ↔ g.headed.Derives [s] [] := by
  rw [contains_iff_yields, ← Grammar.yields_headed_iff]
  exact Grammar.yields_iff_derives g.contextFree_headed

/-! ## The passes -/

/-- What an update by a production keeps holds at the end of the passes. -/
theorem nullability_keeps {motive : Nullability → Prop}
    (hempty : motive ⟨⟨[]⟩⟩)
    (habsorb : ∀ n, motive n → ∀ p ∈ g.productions, motive (n.absorb p)) :
    motive g.nullability := by
  have hpass : ∀ n, motive n → motive (pass g n) := by
    intro n hn
    exact List.foldlRecOn g.productions absorb hn habsorb
  unfold Grammar.nullability
  rw [iterateUntilStable_eq_stepTimes]
  apply stepTimes_induct hpass
  apply List.foldlRecOn (motive := motive)
  · exact hempty
  · intro n hn p hp
    exact habsorb n hn p (List.mem_filter.mp hp).1

theorem keys_nodup_absorb (hn : n.witnesses.keys.Nodup) (p : Production) :
    (n.absorb p).witnesses.keys.Nodup := by
  unfold absorb
  split
  next => exact hn
  next head _ =>
    split
    next =>
      rw [OrderedMap.keys_insertIfNew]
      exact nodup_insertNew hn head
    next => exact hn

theorem keys_nodup_nullability (g : Grammar) :
    g.nullability.witnesses.keys.Nodup :=
  nullability_keeps (motive := fun n => n.witnesses.keys.Nodup) .nil
    fun _ hn p _ => keys_nodup_absorb hn p

theorem Closed.absorb_eq (hn : n.Closed g) (hmem : p ∈ g.productions) :
    n.absorb p = n := by
  unfold absorb
  split
  next => rfl
  next head hhead =>
    split
    next hlambda =>
      have hknown : n.witnesses.contains head = true :=
        hn p hmem head hhead hlambda
      rw [OrderedMap.insertIfNew, if_pos hknown]
    next => rfl

/-- The bound on the passes is no restriction: another pass finds nothing. -/
theorem pass_nullability (g : Grammar) :
    pass g g.nullability = g.nullability :=
  foldl_eq_self fun _ hmem => (wellFounded_and_closed g).2.absorb_eq hmem

/-! ## The order of discovery -/

theorem Founded.of_append {latest earlier : List (Symbol × Production)}
    (hfounded : Founded g (latest ++ earlier)) : Founded g earlier := by
  induction latest with
  | nil => exact hfounded
  | cons entry latest ih => exact ih hfounded.2.2.2

/-- A witness stands behind the witnesses of the symbols on its right side. -/
theorem WellFounded.exists_earlier (hn : n.WellFounded g)
    (hget : n.witnesses.get? s = some p) :
    ∃ earlier later, n.witnesses.entries = earlier ++ (s, p) :: later ∧
      s ∉ earlier.map Prod.fst ∧ ∀ t ∈ p.rhs, t ∈ earlier.map Prod.fst := by
  unfold OrderedMap.get? at hget
  rcases Option.map_eq_some_iff.mp hget with ⟨⟨head, q⟩, hfind, heq⟩
  rcases List.find?_eq_some_iff_append.mp hfind with
    ⟨hhead, earlier, later, hentries, hbefore⟩
  simp only [decide_eq_true_eq] at hhead heq
  subst hhead heq
  have hall : Founded g (later.reverse ++ (head, q) :: earlier.reverse) := by
    unfold WellFounded at hn
    rw [hentries] at hn
    simpa using hn
  have hfounded := hall.of_append
  refine ⟨earlier, later, hentries, ?_, ?_⟩
  · intro hmem
    rcases List.mem_map.mp hmem with ⟨entry, hentry, hkey⟩
    simpa [hkey] using hbefore entry hentry
  · intro t ht
    simpa using hfounded.2.2.1 t ht

/-- The tree of `s` is put together from the tree of `t`. -/
def Asks (n : Nullability) (t s : Symbol) : Prop :=
  ∃ p, n.witnesses.get? s = some p ∧ t ∈ p.rhs

theorem WellFounded.idxOf_lt (hn : n.WellFounded g) (hasks : n.Asks t s) :
    n.witnesses.keys.idxOf t < n.witnesses.keys.idxOf s := by
  rcases hasks with ⟨p, hget, ht⟩
  rcases hn.exists_earlier hget with ⟨earlier, later, hentries, hs, hrhs⟩
  have hkeys : n.witnesses.keys =
      earlier.map Prod.fst ++ s :: later.map Prod.fst := by
    simp [OrderedMap.keys, hentries]
  have hbelow : (earlier.map Prod.fst).idxOf t < (earlier.map Prod.fst).length :=
    List.idxOf_lt_length_iff.mpr (hrhs t ht)
  rw [hkeys, List.idxOf_append_of_mem (hrhs t ht),
    List.idxOf_append_of_notMem hs, List.idxOf_cons_self, Nat.add_zero]
  exact hbelow

theorem WellFounded.acc_asks (hn : n.WellFounded g) (s : Symbol) :
    Acc n.Asks s := by
  have hposition : Acc (InvImage Nat.lt fun t => n.witnesses.keys.idxOf t) s :=
    InvImage.accessible _ (Nat.lt_wfRel.wf.apply _)
  exact Subrelation.accessible (fun hasks => hn.idxOf_lt hasks) hposition

/-! ## The recursion -/

theorem emptyTreeFrom_append {latest : List (Symbol × Production)}
    (hs : s ∉ latest.map Prod.fst) (earlier : List (Symbol × Production)) :
    emptyTreeFrom (latest ++ earlier) s = emptyTreeFrom earlier s := by
  induction latest with
  | nil => rfl
  | cons entry latest ih =>
      rw [List.map_cons, List.mem_cons, not_or] at hs
      rw [List.cons_append, emptyTreeFrom, if_neg (Ne.symm hs.1)]
      exact ih hs.2

/-- What was recorded after the last witness of a symbol does not matter for its
tree. -/
theorem emptyTree?_of_split {earlier later : List (Symbol × Production)}
    (hentries : n.witnesses.entries = earlier ++ later)
    (hs : s ∉ later.map Prod.fst) :
    n.emptyTree? s = emptyTreeFrom earlier.reverse s := by
  have hlatest : s ∉ later.reverse.map Prod.fst := by
    rw [List.map_reverse, List.mem_reverse]
    exact hs
  rw [emptyTree?, hentries, List.reverse_append]
  exact emptyTreeFrom_append hlatest earlier.reverse

theorem emptyTree?_of_not_contains (hs : n.contains s = false) :
    n.emptyTree? s = none := by
  have hnew : s ∉ n.witnesses.entries.map Prod.fst := by
    rw [← contains_iff, hs]
    exact Bool.false_ne_true
  exact emptyTree?_of_split (List.nil_append _).symm hnew

theorem mapM_congr {α β : Type} {f h : α → Option β} {xs : List α}
    (heq : ∀ x ∈ xs, f x = h x) : xs.mapM f = xs.mapM h := by
  induction xs with
  | nil => rfl
  | cons x xs ih =>
      have hrest := ih fun y hy => heq y (List.mem_cons_of_mem x hy)
      rw [List.mapM_cons, List.mapM_cons, heq x List.mem_cons_self, hrest]

/-- With distinct keys the tree of a symbol is put together from the trees of
the symbols on the right side of its witness. -/
theorem WellFounded.emptyTree?_eq (hn : n.WellFounded g)
    (hkeys : n.witnesses.keys.Nodup) (s : Symbol) :
    n.emptyTree? s = (n.witnesses.get? s).bind fun p =>
      (p.rhs.mapM n.emptyTree?).map (Tree.node s p ·) := by
  cases hget : n.witnesses.get? s with
  | none =>
      apply emptyTree?_of_not_contains
      have hnew := OrderedMap.get?_eq_none_iff.mp hget
      exact Bool.eq_false_iff.mpr (mt OrderedMap.contains_iff_mem_keys.mp hnew)
  | some p =>
      rcases hn.exists_earlier hget with ⟨earlier, later, hentries, _, hrhs⟩
      unfold OrderedMap.keys at hkeys
      rw [hentries, List.map_append, List.map_cons, List.nodup_append,
        List.nodup_cons] at hkeys
      rcases hkeys with ⟨_, ⟨hown, _⟩, hapart⟩
      have hasked : ∀ t ∈ p.rhs,
          emptyTreeFrom earlier.reverse t = n.emptyTree? t := by
        intro t ht
        have hbehind : t ∉ ((s, p) :: later).map Prod.fst :=
          fun hmem => hapart t (hrhs t ht) t hmem rfl
        exact (emptyTree?_of_split hentries hbehind).symm
      rw [List.append_cons] at hentries
      rw [emptyTree?_of_split hentries hown, List.reverse_append,
        List.reverse_singleton, List.singleton_append, emptyTreeFrom,
        if_pos rfl, mapM_congr hasked, Option.bind_some]

/-- The variables that the passes collect are those that derive the empty string
by productions with a single variable on the left.  For these the recursion
along the witnesses ends in a tree of the empty string, and for every other
symbol it gives nothing. -/
theorem nullability_exact (g : Grammar) :
    pass g g.nullability = g.nullability ∧
    ∀ s,
      (g.nullability.contains s = true ↔ g.headed.Derives [s] []) ∧
      Acc g.nullability.Asks s ∧
      (g.nullability.emptyTree? s =
        (g.nullability.witnesses.get? s).bind fun p =>
          (p.rhs.mapM g.nullability.emptyTree?).map (Tree.node s p ·)) ∧
      (g.nullability.contains s = true →
        ∃ tree, g.nullability.emptyTree? s = some tree ∧
          tree.ValidFor g ∧ tree.root = s ∧ tree.frontier = []) ∧
      (g.nullability.contains s = false →
        g.nullability.emptyTree? s = none) := by
  have hfounded := (wellFounded_and_closed g).1
  constructor
  · exact pass_nullability g
  intro s
  refine ⟨contains_iff_derives, hfounded.acc_asks s,
    hfounded.emptyTree?_eq (keys_nodup_nullability g) s, ?_,
    emptyTree?_of_not_contains⟩
  intro hs
  rcases exists_emptyTree?_of_contains hs with ⟨tree, htree, hempty⟩
  exact ⟨tree, htree, hempty.valid, hempty.root_eq, hempty.frontier_eq⟩

/-- `A → BB`, `B → A | λ`, `CC → λ` and `C → c`.  The productions of `A` and `B`
lead to each other, and the production of `CC` makes `C` not nullable. -/
def doublyEmpty : Grammar :=
  Grammar.withProductions
    { validity := .unrestricted, start := some (.var "A") }
    [.rule (.var "A") [.var "B", .var "B"],
      .rule (.var "B") [.var "A"],
      .rule (.var "B") [],
      ⟨[.var "C", .var "C"], []⟩,
      .rule (.var "C") [.term "c"]]

theorem nullability_doublyEmpty :
    doublyEmpty.headed.Derives [.var "A"] [] ∧
    (∃ tree, doublyEmpty.nullability.emptyTree? (.var "A") = some tree ∧
      tree.ValidFor doublyEmpty ∧ tree.root = .var "A" ∧ tree.frontier = []) ∧
    ¬ doublyEmpty.headed.Derives [.var "C"] [] ∧
    doublyEmpty.nullability.emptyTree? (.var "C") = none := by
  obtain ⟨_, hall⟩ := nullability_exact doublyEmpty
  obtain ⟨hderives, _, _, htree, _⟩ := hall (.var "A")
  obtain ⟨hother, _, _, _, hnone⟩ := hall (.var "C")
  have hknown : doublyEmpty.nullability.contains (.var "A") = true := by
    decide +kernel
  have hunknown : doublyEmpty.nullability.contains (.var "C") = false := by
    decide +kernel
  refine ⟨hderives.mp hknown, htree hknown, ?_, hnone hunknown⟩
  rw [← hother, hunknown]
  exact Bool.false_ne_true

end Nullability

end FormalGrammars
