/-!
# Sets and maps in order of insertion

Symbols, look-aheads and productions are reported in the order in which they
were found.  A set is a list to which a new element is appended at the end; a
map is a list of entries to which a new key is appended at the end.  Both are
read by membership and by their order, and no operation moves an entry that is
already there.
-/

namespace FormalGrammars

/-! ## Sets -/

/-- The list with `a` at its end, unless `a` is already in it. -/
def insertNew {α : Type} [DecidableEq α] (xs : List α) (a : α) : List α :=
  if a ∈ xs then xs else xs ++ [a]

/-- The list with the elements of `ys` inserted in turn. -/
def extendNew {α : Type} [DecidableEq α] (xs ys : List α) : List α :=
  ys.foldl insertNew xs

section Sets

variable {α : Type} [DecidableEq α]

@[simp] theorem mem_insertNew {xs : List α} {a b : α} :
    b ∈ insertNew xs a ↔ b ∈ xs ∨ b = a := by
  unfold insertNew
  split
  · constructor
    · exact .inl
    · rintro (hb | rfl) <;> assumption
  · simp

@[simp] theorem mem_extendNew {xs ys : List α} {b : α} :
    b ∈ extendNew xs ys ↔ b ∈ xs ∨ b ∈ ys := by
  induction ys generalizing xs with
  | nil => simp [extendNew]
  | cons y ys ih =>
    have hfold : extendNew xs (y :: ys) = extendNew (insertNew xs y) ys := rfl
    rw [hfold, ih]
    simp [or_assoc]

theorem nodup_insertNew {xs : List α} (hxs : xs.Nodup) (a : α) :
    (insertNew xs a).Nodup := by
  unfold insertNew
  split
  · exact hxs
  next ha =>
    refine List.nodup_append.mpr ⟨hxs, by simp, ?_⟩
    intro x hx y hy
    rw [List.mem_singleton] at hy
    subst hy
    exact fun heq => ha (heq ▸ hx)

theorem nodup_extendNew {xs : List α} (hxs : xs.Nodup) (ys : List α) :
    (extendNew xs ys).Nodup := by
  induction ys generalizing xs with
  | nil => exact hxs
  | cons y ys ih => exact ih (nodup_insertNew hxs y)

theorem insertNew_eq_self {xs : List α} {a : α} (ha : a ∈ xs) : insertNew xs a = xs :=
  if_pos ha

theorem extendNew_eq_self {xs ys : List α} (hys : ∀ y ∈ ys, y ∈ xs) : extendNew xs ys = xs := by
  induction ys with
  | nil => rfl
  | cons y ys ih =>
    have hfold : extendNew xs (y :: ys) = extendNew (insertNew xs y) ys := rfl
    rw [hfold, insertNew_eq_self (hys y List.mem_cons_self)]
    exact ih fun z hz => hys z (List.mem_cons_of_mem y hz)

theorem extendNew_eq_append {xs ys : List α} (hnodup : (xs ++ ys).Nodup) :
    extendNew xs ys = xs ++ ys := by
  induction ys generalizing xs with
  | nil => exact (List.append_nil xs).symm
  | cons y ys ih =>
    have hfold : extendNew xs (y :: ys) = extendNew (insertNew xs y) ys := rfl
    have hnew : y ∉ xs := fun hold =>
      (List.nodup_append.mp hnodup).2.2 y hold y List.mem_cons_self rfl
    rw [List.append_cons] at hnodup ⊢
    rw [hfold, insertNew, if_neg hnew]
    exact ih hnodup

theorem prefix_insertNew (xs : List α) (a : α) : xs <+: insertNew xs a := by
  unfold insertNew
  split
  · exact List.prefix_refl xs
  · exact List.prefix_append xs [a]

theorem prefix_extendNew (xs ys : List α) : xs <+: extendNew xs ys := by
  induction ys generalizing xs with
  | nil => exact List.prefix_refl xs
  | cons y ys ih => exact (prefix_insertNew xs y).trans (ih (insertNew xs y))

theorem head?_extendNew (xs ys : List α) :
    (extendNew xs ys).head? = xs.head?.or ys.head? := by
  cases xs with
  | cons x xs =>
    obtain ⟨rest, hrest⟩ := prefix_extendNew (x :: xs) ys
    rw [← hrest]
    rfl
  | nil =>
    cases ys with
    | nil => rfl
    | cons y ys =>
      obtain ⟨rest, hrest⟩ := prefix_extendNew [y] ys
      have hfold : extendNew [] (y :: ys) = extendNew [y] ys := rfl
      rw [hfold, ← hrest]
      rfl

theorem extendNew_sublist (xs ys : List α) : (extendNew xs ys).Sublist (xs ++ ys) := by
  induction ys generalizing xs with
  | nil => exact (List.append_nil xs).symm ▸ List.Sublist.refl xs
  | cons y ys ih =>
    have hinsert : (insertNew xs y).Sublist (xs ++ [y]) := by
      unfold insertNew
      split
      · exact List.sublist_append_left xs [y]
      · exact List.Sublist.refl _
    rw [List.append_cons]
    exact (ih (insertNew xs y)).trans (hinsert.append_right ys)

theorem find?_insertNew (xs : List α) (y : α) (p : α → Bool) :
    (insertNew xs y).find? p = (xs.find? p).or ([y].find? p) := by
  unfold insertNew
  split
  next hy =>
    cases hfind : xs.find? p with
    | some x => rfl
    | none => simpa using List.find?_eq_none.mp hfind y hy
  next => exact List.find?_append

/-- The first element of a kind is the first that is put in. -/
theorem find?_extendNew (xs ys : List α) (p : α → Bool) :
    (extendNew xs ys).find? p = (xs.find? p).or (ys.find? p) := by
  induction ys generalizing xs with
  | nil => exact Option.or_none.symm
  | cons y ys ih =>
    have hfold : extendNew xs (y :: ys) = extendNew (insertNew xs y) ys := rfl
    rw [hfold, ih, find?_insertNew, Option.or_assoc, ← List.find?_append]
    rfl

end Sets

/-! ## Maps -/

/-- A finite map whose entries stand in the order of their first insertion. -/
structure OrderedMap (κ ν : Type) where
  entries : List (κ × ν) := []
  deriving DecidableEq, Repr, Inhabited

namespace OrderedMap

variable {κ ν : Type}

def empty : OrderedMap κ ν := ⟨[]⟩

def keys (m : OrderedMap κ ν) : List κ :=
  m.entries.map Prod.fst

def size (m : OrderedMap κ ν) : Nat :=
  m.entries.length

variable [DecidableEq κ]

def get? (m : OrderedMap κ ν) (key : κ) : Option ν :=
  (m.entries.find? fun entry => entry.1 = key).map Prod.snd

def getD (m : OrderedMap κ ν) (key : κ) (fallback : ν) : ν :=
  (m.get? key).getD fallback

def contains (m : OrderedMap κ ν) (key : κ) : Bool :=
  m.entries.any fun entry => entry.1 = key

/-- Gives `key` the value `update old`, where `old` is its value so far or, for
a key that is new and comes last, `fallback`. -/
def alter (m : OrderedMap κ ν) (key : κ) (fallback : ν) (update : ν → ν) :
    OrderedMap κ ν :=
  if m.contains key then
    ⟨m.entries.map fun entry => if entry.1 = key then (key, update entry.2) else entry⟩
  else ⟨m.entries ++ [(key, update fallback)]⟩

def insert (m : OrderedMap κ ν) (key : κ) (value : ν) : OrderedMap κ ν :=
  m.alter key value fun _ => value

def insertIfNew (m : OrderedMap κ ν) (key : κ) (value : ν) : OrderedMap κ ν :=
  if m.contains key then m else ⟨m.entries ++ [(key, value)]⟩

/-- Removes `key` and keeps the order of the other entries. -/
def erase (m : OrderedMap κ ν) (key : κ) : OrderedMap κ ν :=
  ⟨m.entries.filter fun entry => entry.1 ≠ key⟩

/-! ### Keys -/

theorem contains_iff_mem_keys {m : OrderedMap κ ν} {key : κ} :
    m.contains key = true ↔ key ∈ m.keys := by
  simp only [contains, keys, List.any_eq_true, List.mem_map, decide_eq_true_eq]

theorem get?_eq_none_iff {m : OrderedMap κ ν} {key : κ} :
    m.get? key = none ↔ key ∉ m.keys := by
  simp only [get?, Option.map_eq_none_iff, List.find?_eq_none, keys, List.mem_map,
    decide_eq_true_eq]
  exact ⟨fun h ⟨entry, hentry, hkey⟩ => h entry hentry hkey,
    fun h entry hentry hkey => h ⟨entry, hentry, hkey⟩⟩

theorem mem_entries_of_get? {m : OrderedMap κ ν} {key : κ} {value : ν}
    (hget : m.get? key = some value) : (key, value) ∈ m.entries := by
  obtain ⟨entry, hfind, rfl⟩ := Option.map_eq_some_iff.mp hget
  have hkey : entry.1 = key := by simpa using List.find?_some hfind
  rw [← hkey]
  exact List.mem_of_find?_eq_some hfind

theorem mem_keys_of_get? {m : OrderedMap κ ν} {key : κ} {value : ν}
    (hget : m.get? key = some value) : key ∈ m.keys :=
  List.mem_map.mpr ⟨(key, value), mem_entries_of_get? hget, rfl⟩

theorem keys_alter (m : OrderedMap κ ν) (key : κ) (fallback : ν) (update : ν → ν) :
    (m.alter key fallback update).keys = insertNew m.keys key := by
  unfold alter insertNew
  by_cases hkey : m.contains key = true
  · rw [if_pos hkey, if_pos (contains_iff_mem_keys.mp hkey)]
    simp only [keys, List.map_map]
    apply List.map_congr_left
    intro entry _
    simp only [Function.comp_apply]
    split
    next heq => exact heq.symm
    next => rfl
  · rw [if_neg hkey, if_neg (fun hmem => hkey (contains_iff_mem_keys.mpr hmem))]
    simp [keys]

theorem keys_insert (m : OrderedMap κ ν) (key : κ) (value : ν) :
    (m.insert key value).keys = insertNew m.keys key :=
  keys_alter m key value fun _ => value

theorem keys_insertIfNew (m : OrderedMap κ ν) (key : κ) (value : ν) :
    (m.insertIfNew key value).keys = insertNew m.keys key := by
  unfold insertIfNew insertNew
  by_cases hkey : m.contains key = true
  · rw [if_pos hkey, if_pos (contains_iff_mem_keys.mp hkey)]
  · rw [if_neg hkey, if_neg (fun hmem => hkey (contains_iff_mem_keys.mpr hmem))]
    simp [keys]

theorem keys_erase (m : OrderedMap κ ν) (key : κ) :
    (m.erase key).keys = m.keys.filter (· ≠ key) := by
  simp [erase, keys, List.filter_map, Function.comp_def]

/-! ### Values -/

theorem get?_append_new {m : OrderedMap κ ν} {key : κ} (hkey : ¬ m.contains key = true)
    (value : ν) (other : κ) :
    get? ⟨m.entries ++ [(key, value)]⟩ other =
      if other = key then some value else m.get? other := by
  by_cases hother : other = key
  · subst hother
    have hnone : m.get? other = none :=
      get?_eq_none_iff.mpr fun hmem => hkey (contains_iff_mem_keys.mpr hmem)
    simp only [get?, Option.map_eq_none_iff] at hnone
    simp [get?, List.find?_append, hnone]
  · simp [get?, List.find?_append, hother, Ne.symm hother]

theorem get?_alter (m : OrderedMap κ ν) (key : κ) (fallback : ν) (update : ν → ν) (other : κ) :
    (m.alter key fallback update).get? other =
      if other = key then some (update (m.getD key fallback)) else m.get? other := by
  unfold alter
  by_cases hkey : m.contains key = true
  · rw [if_pos hkey]
    have hkeys : ∀ entry : κ × ν,
        (if entry.1 = key then (key, update entry.2) else entry).1 = entry.1 := by
      intro entry
      split
      next heq => exact heq.symm
      next => rfl
    simp only [get?, List.find?_map, Function.comp_def, hkeys, Option.map_map]
    by_cases hother : other = key
    · subst hother
      rw [if_pos rfl]
      cases hfind : m.entries.find? fun entry => decide (entry.1 = other) with
      | none =>
        have hnone : m.get? other = none := by simp [get?, hfind]
        exact absurd (contains_iff_mem_keys.mp hkey) (get?_eq_none_iff.mp hnone)
      | some entry =>
        have hentry : entry.1 = other := by simpa using List.find?_some hfind
        simp [getD, get?, hfind, hentry]
    · rw [if_neg hother]
      cases hfind : m.entries.find? fun entry => decide (entry.1 = other) with
      | none => rfl
      | some entry =>
        have hentry : entry.1 = other := by simpa using List.find?_some hfind
        simp [hentry, hother]
  · rw [if_neg hkey, get?_append_new hkey]
    have hnone : m.get? key = none :=
      get?_eq_none_iff.mpr fun hmem => hkey (contains_iff_mem_keys.mpr hmem)
    simp [getD, hnone]

theorem get?_insert (m : OrderedMap κ ν) (key : κ) (value : ν) (other : κ) :
    (m.insert key value).get? other = if other = key then some value else m.get? other :=
  get?_alter m key value (fun _ => value) other

theorem get?_insertIfNew (m : OrderedMap κ ν) (key : κ) (value : ν) (other : κ) :
    (m.insertIfNew key value).get? other =
      if other = key then some (m.getD key value) else m.get? other := by
  unfold insertIfNew
  by_cases hkey : m.contains key = true
  · rw [if_pos hkey]
    split
    next heq =>
      subst heq
      cases hget : m.get? other with
      | none =>
        exact absurd (contains_iff_mem_keys.mp hkey) (get?_eq_none_iff.mp hget)
      | some old => simp [getD, hget]
    next => rfl
  · rw [if_neg hkey, get?_append_new hkey]
    have hnone : m.get? key = none :=
      get?_eq_none_iff.mpr fun hmem => hkey (contains_iff_mem_keys.mpr hmem)
    simp [getD, hnone]

theorem get?_erase (m : OrderedMap κ ν) (key other : κ) :
    (m.erase key).get? other = if other = key then none else m.get? other := by
  split
  next heq =>
    rw [get?_eq_none_iff, keys_erase, heq]
    simp
  next hother =>
    simp only [get?, erase, List.find?_filter]
    congr 2
    funext entry
    by_cases hentry : entry.1 = other <;> simp [hentry, hother]

theorem get?_of_mem_keys {m : OrderedMap κ ν} {key : κ} (hkey : key ∈ m.keys) :
    ∃ value, m.get? key = some value := by
  cases hget : m.get? key with
  | none => exact absurd hkey (get?_eq_none_iff.mp hget)
  | some value => exact ⟨value, rfl⟩

theorem getD_of_not_mem_keys {m : OrderedMap κ ν} {key : κ} (hkey : key ∉ m.keys)
    (fallback : ν) : m.getD key fallback = fallback := by
  rw [getD, get?_eq_none_iff.mpr hkey, Option.getD_none]

theorem getD_alter (m : OrderedMap κ ν) (key : κ) (fallback : ν) (update : ν → ν) (other : κ) :
    (m.alter key fallback update).getD other fallback =
      if other = key then update (m.getD key fallback) else m.getD other fallback := by
  unfold getD
  rw [get?_alter]
  split
  next => rfl
  next => rfl

theorem getD_insert (m : OrderedMap κ ν) (key : κ) (value : ν) (other : κ) (fallback : ν) :
    (m.insert key value).getD other fallback =
      if other = key then value else m.getD other fallback := by
  unfold getD
  rw [get?_insert]
  split
  next => rfl
  next => rfl

theorem entries_insert_of_not_mem_keys {m : OrderedMap κ ν} {key : κ} (hkey : key ∉ m.keys)
    (value : ν) : (m.insert key value).entries = m.entries ++ [(key, value)] := by
  unfold insert alter
  rw [if_neg fun hold => hkey (contains_iff_mem_keys.mp hold)]

/-- With distinct keys each entry is found under its key. -/
theorem get?_of_mem_entries {m : OrderedMap κ ν} (hkeys : m.keys.Nodup) {key : κ} {value : ν}
    (hmem : (key, value) ∈ m.entries) : m.get? key = some value := by
  obtain ⟨entries⟩ := m
  simp only [keys] at hkeys
  induction entries with
  | nil => simp at hmem
  | cons entry entries ih =>
    rw [List.map_cons, List.nodup_cons] at hkeys
    rcases List.mem_cons.mp hmem with rfl | hmem
    · simp [get?]
    · have hne : entry.1 ≠ key := fun heq =>
        hkeys.1 (heq ▸ List.mem_map.mpr ⟨(key, value), hmem, rfl⟩)
      have hrest := ih hkeys.2 hmem
      simp only [get?] at hrest
      simpa [get?, hne] using hrest

/-- An update that keeps the value of a known key changes nothing. -/
theorem alter_eq_self {m : OrderedMap κ ν} (hkeys : m.keys.Nodup) {key : κ} {fallback : ν}
    {update : ν → ν} (hkey : key ∈ m.keys)
    (hupdate : update (m.getD key fallback) = m.getD key fallback) :
    m.alter key fallback update = m := by
  unfold alter
  rw [if_pos (contains_iff_mem_keys.mpr hkey)]
  obtain ⟨entries⟩ := m
  have hmap : entries.map (fun entry =>
      if entry.1 = key then (key, update entry.2) else entry) = entries.map id := by
    apply List.map_congr_left
    intro entry hentry
    split
    next heq =>
      subst heq
      have hget : OrderedMap.get? ⟨entries⟩ entry.1 = some entry.2 := get?_of_mem_entries hkeys hentry
      rw [getD, hget, Option.getD_some] at hupdate
      rw [hupdate]
      rfl
    next => rfl
  rw [hmap, List.map_id]

/-- A map whose values are all empty reads as the empty map does. -/
theorem getD_emptyLists (keys : List κ) (key : κ) :
    OrderedMap.getD (⟨keys.map fun k => (k, [])⟩ : OrderedMap κ (List ν)) key [] = [] := by
  unfold getD
  cases hget : OrderedMap.get? (⟨keys.map fun k => (k, [])⟩ : OrderedMap κ (List ν)) key with
  | none => rfl
  | some value =>
    obtain ⟨_, _, heq⟩ := List.mem_map.mp (mem_entries_of_get? hget)
    rw [← (Prod.mk.inj heq).2, Option.getD_some]

/-! ### Entries that come one after the other -/

theorem keys_foldl_insert (entries : List (κ × ν)) (m : OrderedMap κ ν) :
    (entries.foldl (fun m entry => m.insert entry.1 entry.2) m).keys =
      extendNew m.keys (entries.map Prod.fst) := by
  induction entries generalizing m with
  | nil => rfl
  | cons entry entries ih =>
    rw [List.foldl_cons, ih, keys_insert]
    rfl

theorem keys_foldl_insertIfNew (entries : List (κ × ν)) (m : OrderedMap κ ν) :
    (entries.foldl (fun m entry => m.insertIfNew entry.1 entry.2) m).keys =
      extendNew m.keys (entries.map Prod.fst) := by
  induction entries generalizing m with
  | nil => rfl
  | cons entry entries ih =>
    rw [List.foldl_cons, ih, keys_insertIfNew]
    rfl

/-- A key that is new has the value of its first entry. -/
theorem get?_foldl_insertIfNew (entries : List (κ × ν)) (m : OrderedMap κ ν) (key : κ) :
    (entries.foldl (fun m entry => m.insertIfNew entry.1 entry.2) m).get? key =
      (m.get? key).or (get? ⟨entries⟩ key) := by
  induction entries generalizing m with
  | nil => simp [get?]
  | cons entry entries ih =>
    rw [List.foldl_cons, ih, get?_insertIfNew]
    by_cases hkey : key = entry.1
    · rw [if_pos hkey, Option.some_or, getD, ← hkey]
      cases m.get? key <;> simp [get?, hkey]
    · rw [if_neg hkey]
      simp [get?, Ne.symm hkey]

theorem get?_flatMap {α : Type} (xs : List α) (f : α → List (κ × ν)) (key : κ) :
    get? ⟨xs.flatMap f⟩ key = xs.findSome? fun x => get? ⟨f x⟩ key := by
  unfold get?
  rw [List.find?_flatMap, List.map_findSome?]
  rfl

theorem mem_entries_insert {m : OrderedMap κ ν} {key : κ} {value : ν} {entry : κ × ν}
    (hentry : entry ∈ (m.insert key value).entries) : entry ∈ m.entries ∨ entry = (key, value) := by
  unfold insert alter at hentry
  split at hentry
  next =>
    obtain ⟨old, hold, rfl⟩ := List.mem_map.mp hentry
    split
    next => exact .inr rfl
    next => exact .inl hold
  next => simpa using hentry

theorem mem_entries_insertIfNew {m : OrderedMap κ ν} {key : κ} {value : ν} {entry : κ × ν}
    (hentry : entry ∈ (m.insertIfNew key value).entries) :
    entry ∈ m.entries ∨ entry = (key, value) := by
  unfold insertIfNew at hentry
  split at hentry
  next => exact .inl hentry
  next => simpa using hentry

theorem mem_entries_foldl_insertIfNew {entries : List (κ × ν)} {m : OrderedMap κ ν} {entry : κ × ν}
    (hentry : entry ∈ (entries.foldl (fun m entry => m.insertIfNew entry.1 entry.2) m).entries) :
    entry ∈ m.entries ∨ entry ∈ entries := by
  induction entries generalizing m with
  | nil => exact .inl hentry
  | cons first entries ih =>
    rcases ih hentry with hfirst | hrest
    · refine (mem_entries_insertIfNew hfirst).imp_right ?_
      rintro rfl
      exact List.mem_cons_self
    · exact .inr (List.mem_cons_of_mem first hrest)

end OrderedMap

end FormalGrammars
