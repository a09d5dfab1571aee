import FormalGrammars.ShiftReduce.Automaton
import FormalGrammars.Proofs.FixedPoint
import Mathlib.Data.List.Flatten
import Mathlib.Data.List.Nodup
import Mathlib.Data.List.Sublists

/-!
# Sets of items

A set of items is kept as a sublist of all items, so that its elements
determine it.  Closing a set and moving the dot over a symbol lead from such
sets to such sets.  The closure holds its kernel and is closed under bringing
in the productions of the variables behind dots, and it has nothing else:
whatever is not in the kernel has its dot in front, and its head stands behind
a dot.
-/

namespace FormalGrammars

variable {ps : List Production} {items kernel : List Item} {item : Item}
  {s : Symbol}

/-! ## All items -/

theorem mem_allItems :
    item ∈ allItems ps ↔
      ∃ p, ps[item.production]? = some p ∧ item.dot ≤ p.rhs.length := by
  simp only [allItems, List.mem_flatMap, List.mem_map, List.mem_range,
    Prod.exists, List.mk_mem_zipIdx_iff_getElem?]
  constructor
  · rintro ⟨p, number, hp, dot, hdot, rfl⟩
    exact ⟨p, hp, Nat.le_of_lt_succ hdot⟩
  · rintro ⟨p, hp, hdot⟩
    exact ⟨p, item.production, hp, item.dot, by omega, rfl⟩

theorem nodup_allItems (ps : List Production) : (allItems ps).Nodup := by
  unfold allItems
  rw [List.nodup_flatMap]
  constructor
  · rintro ⟨p, number⟩ _
    refine List.Nodup.map (fun m n heq => ?_) List.nodup_range
    exact (Item.mk.inj heq).2
  · have hnumbers : (ps.zipIdx.map Prod.snd).Nodup := by
      rw [List.zipIdx_map_snd]
      exact List.nodup_range'
    refine (List.pairwise_map.mp hnumbers).imp ?_
    rintro ⟨p, m⟩ ⟨q, n⟩ hne x hx hy
    obtain ⟨_, _, rfl⟩ := List.mem_map.mp hx
    obtain ⟨_, _, heq⟩ := List.mem_map.mp hy
    exact hne (Item.mk.inj heq).1.symm

/-- The items of the list in their standard order. -/
def IsItemSet (ps : List Production) (items : List Item) : Prop :=
  items.Sublist (allItems ps)

theorem IsItemSet.mem_all (hitems : IsItemSet ps items)
    (hitem : item ∈ items) : item ∈ allItems ps :=
  hitems.subset hitem

theorem IsItemSet.eq_filter (hitems : IsItemSet ps items) :
    items = (allItems ps).filter (items.contains ·) := by
  have hnodup := nodup_allItems ps
  unfold IsItemSet at hitems
  generalize allItems ps = all at hitems hnodup
  induction hitems with
  | slnil => rfl
  | @cons items all x hsub ih =>
      obtain ⟨hx, hnodup⟩ := List.nodup_cons.mp hnodup
      have hout : ¬ items.contains x = true := by
        rw [List.contains_iff_mem]
        exact fun hmem => hx (hsub.subset hmem)
      rw [List.filter_cons_of_neg hout]
      exact ih hnodup
  | @cons_cons items all x hsub ih =>
      obtain ⟨hx, hnodup⟩ := List.nodup_cons.mp hnodup
      rw [List.filter_cons_of_pos (by simp)]
      congr 1
      refine (ih hnodup).trans (List.filter_congr fun y hy => ?_)
      have hne : y ≠ x := fun heq => hx (heq ▸ hy)
      simp [hne]

theorem IsItemSet.ext {others : List Item} (hitems : IsItemSet ps items)
    (hothers : IsItemSet ps others) (hmem : ∀ x, x ∈ items ↔ x ∈ others) :
    items = others := by
  rw [hitems.eq_filter, hothers.eq_filter]
  apply List.filter_congr
  intro x _
  rw [Bool.eq_iff_iff, List.contains_iff_mem, List.contains_iff_mem, hmem]

/-! ## Symbols behind dots -/

theorem next?_eq_some_iff :
    item.next? ps = some s ↔
      ∃ p, ps[item.production]? = some p ∧ p.rhs[item.dot]? = some s := by
  unfold Item.next?
  exact Option.bind_eq_some_iff

theorem next?_eq_none_iff (hitem : item ∈ allItems ps) :
    item.next? ps = none ↔
      ∃ p, ps[item.production]? = some p ∧ item.dot = p.rhs.length := by
  obtain ⟨p, hp, hdot⟩ := mem_allItems.mp hitem
  simp only [Item.next?, hp, Option.bind_some, Option.some.injEq,
    List.getElem?_eq_none_iff, exists_eq_left']
  omega

theorem Item.head?_eq_some_iff :
    item.head? ps = some s ↔
      ∃ p, ps[item.production]? = some p ∧ p.head? = some s := by
  unfold Item.head?
  exact Option.bind_eq_some_iff

theorem mem_nextSymbols :
    s ∈ nextSymbols ps items ↔ ∃ item ∈ items, item.next? ps = some s := by
  unfold nextSymbols
  rw [mem_extendNew, List.mem_filterMap]
  simp

/-! ## Moving the dot -/

theorem mem_gotoKernel :
    item ∈ gotoKernel ps items s ↔
      ∃ before ∈ items, before.next? ps = some s ∧ before.advance = item := by
  simp [gotoKernel, and_assoc]

theorem isItemSet_advance (ps : List Production) (s : Symbol) :
    IsItemSet ps (gotoKernel ps (allItems ps) s) := by
  unfold IsItemSet gotoKernel
  nth_rewrite 1 [allItems]
  rw [List.filter_flatMap, List.map_flatMap]
  apply List.Sublist.flatMap_right
  rintro ⟨p, number⟩ hmem
  rw [List.mk_mem_zipIdx_iff_getElem?] at hmem
  change (((List.range (p.rhs.length + 1)).map (Item.mk number)).filter
    _ |>.map Item.advance).Sublist
      ((List.range (p.rhs.length + 1)).map (Item.mk number))
  -- No symbol stands behind the last dot.
  have hlast :
      ((List.range (p.rhs.length + 1)).map (Item.mk number)).filter
          (fun item => item.next? ps = some s) =
        ((List.range p.rhs.length).map (Item.mk number)).filter
          (fun item => item.next? ps = some s) := by
    rw [List.range_succ, List.map_append, List.filter_append]
    simp [Item.next?, hmem]
  rw [hlast, List.range_succ_eq_map, List.map_cons, List.map_map]
  refine (List.filter_sublist.map Item.advance).trans ?_
  rw [List.map_map]
  exact List.sublist_cons_self _ _

theorem IsItemSet.gotoKernel (hitems : IsItemSet ps items) (s : Symbol) :
    IsItemSet ps (gotoKernel ps items s) :=
  ((hitems.filter _).map _).trans (isItemSet_advance ps s)

/-! ## Closures -/

theorem mem_closurePass :
    item ∈ closurePass ps items ↔ item ∈ allItems ps ∧
      (item ∈ items ∨ (item.dot = 0 ∧
        ∃ s ∈ nextSymbols ps items, item.head? ps = some s)) := by
  simp only [closurePass, List.mem_filter, Bool.or_eq_true, Bool.and_eq_true,
    beq_iff_eq, List.contains_iff_mem, Option.any_eq_true]
  constructor
  · rintro ⟨hall, hmem | ⟨hdot, s, hhead, hs⟩⟩
    · exact ⟨hall, .inl hmem⟩
    · exact ⟨hall, .inr ⟨hdot, s, by simpa using hs, hhead⟩⟩
  · rintro ⟨hall, hmem | ⟨hdot, s, hs, hhead⟩⟩
    · exact ⟨hall, .inl hmem⟩
    · exact ⟨hall, .inr ⟨hdot, s, hhead, by simpa using hs⟩⟩

theorem isItemSet_closurePass : IsItemSet ps (closurePass ps items) :=
  List.filter_sublist

theorem IsItemSet.subset_closurePass (hitems : IsItemSet ps items)
    (hitem : item ∈ items) : item ∈ closurePass ps items :=
  mem_closurePass.mpr ⟨hitems.mem_all hitem, .inl hitem⟩

def absentFirst (ps : List Production) (items : List Item) : List Nat :=
  missing (List.range ps.length) fun number => items.contains ⟨number, 0⟩

/-- A pass that changes a set brings in the first item of a production. -/
theorem IsItemSet.absentFirst_lt (hitems : IsItemSet ps items)
    (hne : closurePass ps items ≠ items) :
    (absentFirst ps (closurePass ps items)).length <
      (absentFirst ps items).length := by
  obtain ⟨item, hnew, hold⟩ :
      ∃ item ∈ closurePass ps items, item ∉ items := by
    apply Classical.byContradiction
    intro hnone
    refine hne (isItemSet_closurePass.ext hitems fun item =>
      ⟨fun hmem => ?_, hitems.subset_closurePass⟩)
    exact Classical.byContradiction fun hout => hnone ⟨item, hmem, hout⟩
  obtain ⟨hall, hmem | ⟨hdot, _⟩⟩ := mem_closurePass.mp hnew
  · exact absurd hmem hold
  · obtain ⟨p, hp, _⟩ := mem_allItems.mp hall
    have hlt : item.production < ps.length :=
      (List.getElem?_eq_some_iff.mp hp).1
    have heq : (⟨item.production, 0⟩ : Item) = item := by
      rw [← hdot]
    refine missing_length_lt item.production ?_
      (List.mem_range.mpr hlt) ?_ ?_
    · intro number hnumber
      rw [List.contains_iff_mem] at hnumber ⊢
      exact hitems.subset_closurePass hnumber
    · rw [heq]
      simpa using hold
    · rw [heq, List.contains_iff_mem]
      exact hnew

theorem IsItemSet.closurePass_closure (hkernel : IsItemSet ps kernel) :
    closurePass ps (closure ps kernel) = closure ps kernel := by
  apply iterateUntilStable_stable (motive := IsItemSet ps)
    (fun items => (absentFirst ps items).length)
  · exact fun _ _ => isItemSet_closurePass
  · exact fun items hitems hne => hitems.absentFirst_lt hne
  · exact hkernel
  · refine Nat.le_trans (List.length_filter_le _ _) ?_
    rw [List.length_range]
    omega

/-- What a set may gain by closing it. -/
structure Gains (ps : List Production) (kernel items : List Item) : Prop where
  isItemSet : IsItemSet ps items
  kernel_subset : ∀ item ∈ kernel, item ∈ items
  from_kernel_or : ∀ item ∈ items, item ∈ kernel ∨
    (item.dot = 0 ∧ ∃ s ∈ nextSymbols ps items, item.head? ps = some s)

theorem Gains.closurePass (hgains : Gains ps kernel items) :
    Gains ps kernel (closurePass ps items) := by
  have hnext : ∀ s ∈ nextSymbols ps items,
      s ∈ nextSymbols ps (FormalGrammars.closurePass ps items) := by
    intro s hs
    obtain ⟨item, hitem, hnext⟩ := mem_nextSymbols.mp hs
    exact mem_nextSymbols.mpr
      ⟨item, hgains.isItemSet.subset_closurePass hitem, hnext⟩
  refine ⟨isItemSet_closurePass, fun item hitem =>
    hgains.isItemSet.subset_closurePass (hgains.kernel_subset item hitem), ?_⟩
  intro item hitem
  obtain ⟨_, hmem | ⟨hdot, s, hs, hhead⟩⟩ := mem_closurePass.mp hitem
  · refine (hgains.from_kernel_or item hmem).imp_right ?_
    rintro ⟨hdot, s, hs, hhead⟩
    exact ⟨hdot, s, hnext s hs, hhead⟩
  · exact .inr ⟨hdot, s, hnext s hs, hhead⟩

theorem IsItemSet.gains_closure (hkernel : IsItemSet ps kernel) :
    Gains ps kernel (closure ps kernel) := by
  unfold closure
  rw [iterateUntilStable_eq_stepTimes]
  apply stepTimes_induct (motive := Gains ps kernel)
  · exact fun _ hgains => hgains.closurePass
  · exact ⟨hkernel, fun _ hitem => hitem, fun _ hitem => .inl hitem⟩

/-- A property of the kernel that is handed on to what an item brings in holds
of the closure. -/
theorem closure_induct {motive : Item → Prop}
    (hkernel : ∀ item ∈ kernel, motive item)
    (hbring : ∀ item other s, motive item → item.next? ps = some s →
      other.dot = 0 → other.head? ps = some s → motive other) :
    ∀ item ∈ closure ps kernel, motive item := by
  unfold closure
  rw [iterateUntilStable_eq_stepTimes]
  apply stepTimes_induct
    (motive := fun items : List Item => ∀ item ∈ items, motive item)
  · intro items hitems item hitem
    rcases (mem_closurePass.mp hitem).2 with hmem | ⟨hdot, s, hs, hhead⟩
    · exact hitems item hmem
    · obtain ⟨source, hsource, hnext⟩ := mem_nextSymbols.mp hs
      exact hbring source item s (hitems source hsource) hnext hdot hhead
  · exact hkernel

theorem IsItemSet.closure_closed (hkernel : IsItemSet ps kernel)
    (hs : s ∈ nextSymbols ps (closure ps kernel)) {number : Nat}
    {p : Production} (hp : ps[number]? = some p) (hhead : p.head? = some s) :
    ⟨number, 0⟩ ∈ closure ps kernel := by
  rw [← hkernel.closurePass_closure]
  have hall : ⟨number, 0⟩ ∈ allItems ps :=
    mem_allItems.mpr ⟨p, hp, Nat.zero_le _⟩
  have hitem : (⟨number, 0⟩ : Item).head? ps = some s :=
    Item.head?_eq_some_iff.mpr ⟨p, hp, hhead⟩
  exact mem_closurePass.mpr ⟨hall, .inr ⟨rfl, s, hs, hitem⟩⟩

end FormalGrammars
