import FormalGrammars.Ordered
import Mathlib.Data.List.Flatten
import Mathlib.Data.List.Nodup

/-!
# Cells of a table

The rows of a parse table are maps from look-aheads to lists.  Entries come to
the cells of a row one after the other, and a cell holds those that were put in
it, in the order in which they came and each once.  A cell is made for its first
entry, so none is empty.  A cell is crowded when it holds two or more; the
crowded cells of a table are found row by row, and each is found once because no
two cells of a table have the same place.
-/

namespace FormalGrammars

variable {ρ κ ν : Type}

namespace OrderedMap

variable [DecidableEq κ] [DecidableEq ν]

/-- Puts each entry into its cell. -/
def fill (row : OrderedMap κ (List ν)) (entries : List (κ × ν)) :
    OrderedMap κ (List ν) :=
  entries.foldl (fun row (x, entry) => row.alter x [] (insertNew · entry)) row

theorem fill_cons (row : OrderedMap κ (List ν)) (x : κ) (entry : ν)
    (entries : List (κ × ν)) :
    row.fill ((x, entry) :: entries) =
      (row.alter x [] (insertNew · entry)).fill entries :=
  rfl

theorem getD_fill (row : OrderedMap κ (List ν)) (entries : List (κ × ν)) (x : κ) :
    (row.fill entries).getD x [] =
      extendNew (row.getD x [])
        ((entries.filter fun entry => entry.1 = x).map Prod.snd) := by
  induction entries generalizing row with
  | nil => rfl
  | cons entry entries ih =>
      obtain ⟨y, entry⟩ := entry
      rw [fill_cons, ih, getD_alter]
      by_cases heq : y = x
      · simp [heq, extendNew]
      · simp [heq, Ne.symm heq]

theorem keys_fill (row : OrderedMap κ (List ν)) (entries : List (κ × ν)) :
    (row.fill entries).keys = extendNew row.keys (entries.map Prod.fst) := by
  induction entries generalizing row with
  | nil => rfl
  | cons entry entries ih =>
      obtain ⟨y, entry⟩ := entry
      rw [fill_cons, ih, keys_alter]
      rfl

theorem keys_nodup_fill (entries : List (κ × ν)) {row : OrderedMap κ (List ν)}
    (hrow : row.keys.Nodup) : (row.fill entries).keys.Nodup := by
  rw [keys_fill]
  exact nodup_extendNew hrow _

/-- One entry is put into several cells. -/
theorem fill_same (row : OrderedMap κ (List ν)) (keys : List κ) (entry : ν) :
    row.fill (keys.map fun key => (key, entry)) =
      keys.foldl (fun row key => row.alter key [] (insertNew · entry)) row :=
  List.foldl_map

theorem getD_fill_same (row : OrderedMap κ (List ν)) (keys : List κ) (entry : ν)
    (x : κ) :
    (row.fill (keys.map fun key => (key, entry))).getD x [] =
      if x ∈ keys then insertNew (row.getD x []) entry else row.getD x [] := by
  induction keys generalizing row with
  | nil => rfl
  | cons y keys ih =>
      rw [List.map_cons, fill_cons, ih, getD_alter]
      by_cases heq : x = y
      · subst heq
        have hmem : entry ∈ insertNew (row.getD x []) entry :=
          mem_insertNew.mpr (.inr rfl)
        simp [insertNew_eq_self hmem]
      · simp [heq]

theorem mem_fill {row : OrderedMap κ (List ν)} {entries : List (κ × ν)} {x : κ}
    {entry : ν} :
    entry ∈ (row.fill entries).getD x [] ↔
      entry ∈ row.getD x [] ∨ (x, entry) ∈ entries := by
  simp [getD_fill]

/-- A key of the row has something in its cell. -/
def NoEmptyCells (row : OrderedMap κ (List ν)) : Prop :=
  ∀ x ∈ row.keys, row.getD x [] ≠ []

omit [DecidableEq ν] in
theorem noEmptyCells_nil : NoEmptyCells (⟨[]⟩ : OrderedMap κ (List ν)) := by
  simp [NoEmptyCells, keys]

theorem NoEmptyCells.fill {row : OrderedMap κ (List ν)} (hrow : row.NoEmptyCells)
    (entries : List (κ × ν)) : (row.fill entries).NoEmptyCells := by
  intro x hx
  rw [keys_fill, mem_extendNew] at hx
  rcases hx with hold | hnew
  · rcases List.exists_mem_of_ne_nil _ (hrow x hold) with ⟨entry, hentry⟩
    exact List.ne_nil_of_mem (mem_fill.mpr (.inl hentry))
  · rcases List.mem_map.mp hnew with ⟨⟨y, entry⟩, hentry, rfl⟩
    exact List.ne_nil_of_mem (mem_fill.mpr (.inr hentry))

omit [DecidableEq ν] in
theorem NoEmptyCells.mem_keys_iff {row : OrderedMap κ (List ν)}
    (hrow : row.NoEmptyCells) {x : κ} : x ∈ row.keys ↔ row.getD x [] ≠ [] := by
  constructor
  · exact hrow x
  · intro hcell
    by_contra hnew
    exact hcell (getD_of_not_mem_keys hnew [])

end OrderedMap

/-! ## Crowded cells -/

/-- The cells with two or more entries, with the names of their rows. -/
def crowded (rows : List (ρ × OrderedMap κ (List ν))) : List (ρ × κ × List ν) :=
  rows.flatMap fun (r, row) =>
    (row.entries.filter fun entry => 1 < entry.2.length).map
      fun (x, cell) => (r, x, cell)

variable {rows : List (ρ × OrderedMap κ (List ν))} {r : ρ}
  {row : OrderedMap κ (List ν)} {x : κ} {cell : List ν}

theorem nodup_crowded (hrows : (rows.map Prod.fst).Nodup)
    (hkeys : ∀ r row, (r, row) ∈ rows → row.keys.Nodup) :
    ((crowded rows).map fun place => (place.1, place.2.1)).Nodup := by
  rw [crowded, List.map_flatMap, List.nodup_flatMap]
  constructor
  · rintro ⟨r, row⟩ hrow
    have hkept := (hkeys r row hrow).sublist
      ((List.filter_sublist (p := fun entry => 1 < entry.2.length)).map Prod.fst)
    have hplaces := hkept.map (f := Prod.mk r) fun _ _ heq => (Prod.mk.inj heq).2
    rw [List.map_map] at hplaces ⊢
    exact hplaces
  · refine (List.pairwise_map.mp hrows).imp ?_
    rintro ⟨r, row⟩ ⟨r', row'⟩ hne place hplace hplace'
    simp only [List.map_map, List.mem_map, Function.comp_apply] at hplace hplace'
    obtain ⟨_, _, rfl⟩ := hplace
    obtain ⟨_, _, heq⟩ := hplace'
    exact hne (Prod.mk.inj heq).1.symm

variable [DecidableEq κ]

theorem mem_crowded_of_getD (hrow : (r, row) ∈ rows)
    (hlong : 1 < (row.getD x []).length) :
    (r, x, row.getD x []) ∈ crowded rows := by
  cases hget : row.get? x with
  | none => simp [OrderedMap.getD, hget] at hlong
  | some cell =>
      have hentry : (x, cell) ∈ row.entries := OrderedMap.mem_entries_of_get? hget
      rw [OrderedMap.getD, hget, Option.getD_some] at hlong ⊢
      refine List.mem_flatMap.mpr ⟨(r, row), hrow, ?_⟩
      refine List.mem_map.mpr ⟨(x, cell), ?_, rfl⟩
      exact List.mem_filter.mpr ⟨hentry, by simpa using hlong⟩

theorem mem_crowded_iff (hkeys : ∀ r row, (r, row) ∈ rows → row.keys.Nodup) :
    (r, x, cell) ∈ crowded rows ↔
      1 < cell.length ∧ ∃ row, (r, row) ∈ rows ∧ row.getD x [] = cell := by
  constructor
  · intro hmem
    obtain ⟨⟨r', row⟩, hrow, hcell⟩ := List.mem_flatMap.mp hmem
    obtain ⟨⟨y, found⟩, hfound, heq⟩ := List.mem_map.mp hcell
    cases heq
    obtain ⟨hentry, hlong⟩ := List.mem_filter.mp hfound
    have hget := OrderedMap.get?_of_mem_entries (hkeys r row hrow) hentry
    refine ⟨by simpa using hlong, row, hrow, ?_⟩
    rw [OrderedMap.getD, hget, Option.getD_some]
  · rintro ⟨hlong, row, hrow, rfl⟩
    exact mem_crowded_of_getD hrow hlong

end FormalGrammars
