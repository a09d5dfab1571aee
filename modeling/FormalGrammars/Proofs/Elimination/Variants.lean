import FormalGrammars.Proofs.Elimination.Lambda
import Mathlib.Data.Finset.Filter
import Mathlib.Data.Finset.Range

/-!
# Variants are what is left of a right side

The variants of a production come from a list of masks, which doubles at every
symbol that may be dropped.  Here they are told by sets of positions instead: a
set of positions at which droppable symbols stand is deleted, and what is left,
unless it is empty, is the right side of a variant.  Different sets may leave
the same form, which is then listed once, with the first mask that leaves it.
-/

namespace FormalGrammars

theorem OrderedMap.prefix_entries_foldl_insertIfNew {κ ν : Type}
    [DecidableEq κ] (entries : List (κ × ν)) (m : OrderedMap κ ν) :
    m.entries <+: (entries.foldl
      (fun m entry => m.insertIfNew entry.1 entry.2) m).entries := by
  induction entries generalizing m with
  | nil => exact List.prefix_refl m.entries
  | cons entry entries ih =>
      refine List.IsPrefix.trans ?_ (ih (m.insertIfNew entry.1 entry.2))
      unfold insertIfNew
      split
      next => exact List.prefix_refl m.entries
      next => exact List.prefix_append _ _

/-! ## Masks and sets of positions -/

namespace Form

variable {form : Form} {mask : List Bool} {dropped : Finset Nat}

/-- What is left of a form when the symbols at these positions are deleted. -/
def without (form : Form) (dropped : Finset Nat) : Form :=
  (form.zipIdx.filter fun entry => entry.2 ∉ dropped).map Prod.fst

theorem select_eq_filter (mask : List Bool) (form : Form) :
    select mask form = ((form.zip mask).filter Prod.snd).map Prod.fst := by
  induction form generalizing mask with
  | nil =>
      cases mask with
      | nil => rfl
      | cons kept mask => cases kept <;> rfl
  | cons s form ih =>
      cases mask with
      | nil => rfl
      | cons kept mask =>
          cases kept with
          | true => exact congrArg (s :: ·) (ih mask)
          | false => exact ih mask

/-- The mask that keeps the positions outside the set, counted from `first`
on. -/
def maskFrom (dropped : Finset Nat) (first : Nat) (form : Form) : List Bool :=
  (form.zipIdx first).map fun entry => decide (entry.2 ∉ dropped)

theorem getElem?_maskFrom (dropped : Finset Nat) (first : Nat) (form : Form)
    (i : Nat) :
    (maskFrom dropped first form)[i]? =
      form[i]?.map fun _ => decide (i + first ∉ dropped) := by
  unfold maskFrom
  rw [List.getElem?_map, List.getElem?_zipIdx, Option.map_map,
    Nat.add_comm i first]
  rfl

theorem select_maskFrom (dropped : Finset Nat) (first : Nat) (form : Form) :
    select (maskFrom dropped first form) form =
      ((form.zipIdx first).filter fun entry => entry.2 ∉ dropped).map
        Prod.fst := by
  induction form generalizing first with
  | nil => rfl
  | cons s form ih =>
      unfold maskFrom at ih ⊢
      rw [List.zipIdx_cons, List.map_cons, List.filter_cons]
      by_cases hfirst : first ∈ dropped
      · simp only [hfirst, not_true, decide_false]
        exact ih (first + 1)
      · simp only [hfirst, not_false_iff, decide_true, if_true]
        exact congrArg (s :: ·) (ih (first + 1))

/-- The positions that a mask does not keep. -/
def droppedBy (mask : List Bool) : Finset Nat :=
  (Finset.range mask.length).filter fun i => mask[i]? = some false

theorem mem_droppedBy {i : Nat} :
    i ∈ droppedBy mask ↔ mask[i]? = some false := by
  rw [droppedBy, Finset.mem_filter, Finset.mem_range, and_iff_right_iff_imp]
  exact fun hget => (List.getElem?_eq_some_iff.mp hget).1

theorem maskFrom_droppedBy (hlength : mask.length = form.length) :
    maskFrom (droppedBy mask) 0 form = mask := by
  apply List.ext_getElem?
  intro i
  rw [getElem?_maskFrom, Nat.add_zero]
  simp only [mem_droppedBy]
  by_cases hi : i < mask.length
  · rw [List.getElem?_eq_getElem hi, List.getElem?_eq_getElem (hlength ▸ hi)]
    cases mask[i] <;> rfl
  · rw [List.getElem?_eq_none (Nat.le_of_not_lt hi),
      List.getElem?_eq_none (hlength ▸ Nat.le_of_not_lt hi)]
    rfl

end Form

namespace Nullability

variable {n : Nullability} {form rhs : Form} {mask : List Bool}
  {p q : Production} {head : Symbol}

/-- Nullable symbols stand at these positions. -/
def Droppable (n : Nullability) (form : Form) (dropped : Finset Nat) : Prop :=
  ∀ i ∈ dropped, ∃ s, form[i]? = some s ∧ n.contains s = true

theorem allows_iff :
    n.Allows form mask ↔ mask.length = form.length ∧
      n.Droppable form (Form.droppedBy mask) := by
  unfold Droppable
  simp only [Form.mem_droppedBy]
  induction form generalizing mask with
  | nil => cases mask <;> simp [Allows]
  | cons s form ih =>
      cases mask with
      | nil => simp [Allows]
      | cons kept mask =>
          rw [Allows, ih, List.length_cons, List.length_cons,
            Nat.add_right_cancel_iff]
          constructor
          · rintro ⟨hkept, hlength, hrest⟩
            refine ⟨hlength, fun i hi => ?_⟩
            cases i with
            | zero => exact ⟨s, rfl, hkept (Option.some.inj hi)⟩
            | succ i => exact hrest i hi
          · rintro ⟨hlength, hdropped⟩
            refine ⟨?_, hlength, fun i hi => hdropped (i + 1) hi⟩
            rintro rfl
            obtain ⟨_, hs, hnull⟩ := hdropped 0 rfl
            exact (Option.some.inj hs) ▸ hnull

/-- What the allowed masks leave is what is left without droppable
positions. -/
theorem exists_allows_iff :
    (∃ mask, n.Allows form mask ∧ rhs = Form.select mask form) ↔
      ∃ dropped, n.Droppable form dropped ∧ rhs = form.without dropped := by
  constructor
  · rintro ⟨mask, hallows, rfl⟩
    obtain ⟨hlength, hdroppable⟩ := allows_iff.mp hallows
    refine ⟨Form.droppedBy mask, hdroppable, ?_⟩
    rw [Form.without, ← Form.select_maskFrom, Form.maskFrom_droppedBy hlength]
  · rintro ⟨dropped, hdroppable, rfl⟩
    refine ⟨Form.maskFrom dropped 0 form, allows_iff.mpr ⟨?_, ?_⟩,
      (Form.select_maskFrom dropped 0 form).symm⟩
    · rw [Form.maskFrom, List.length_map, List.length_zipIdx]
    · intro i hi
      rw [Form.mem_droppedBy, Form.getElem?_maskFrom] at hi
      obtain ⟨s, _, hnot⟩ := Option.map_eq_some_iff.mp hi
      exact hdroppable i (by simpa using hnot)

/-! ## The first mask -/

theorem head?_extendMasks (n : Nullability) (masks : List (List Bool))
    (s : Symbol) :
    (n.extendMasks masks s).head? = masks.head?.map (· ++ [true]) := by
  unfold extendMasks
  cases masks with
  | nil => cases n.contains s <;> rfl
  | cons mask masks => cases n.contains s <;> rfl

theorem head?_foldl_extendMasks (n : Nullability) (form : Form)
    (masks : List (List Bool)) :
    (form.foldl n.extendMasks masks).head? =
      masks.head?.map (· ++ form.map fun _ => true) := by
  induction form generalizing masks with
  | nil => simp
  | cons s form ih =>
      rw [List.foldl_cons, ih, head?_extendMasks, Option.map_map]
      congr 1
      funext mask
      simp

theorem head?_candidates (n : Nullability) (hne : p.rhs ≠ []) :
    (n.candidates p).head? = some (p.rhs, p.rhs.map fun _ => true) := by
  have hfirst : (n.masks p.rhs).head? = some (p.rhs.map fun _ => true) :=
    head?_foldl_extendMasks n p.rhs [[]]
  obtain ⟨masks, hmasks⟩ := List.head?_eq_some_iff.mp hfirst
  have hkept : (!p.rhs.isEmpty) = true := by simpa using hne
  rw [candidates, hmasks, List.filter_cons, select_keepAll, if_pos hkept,
    List.map_cons, select_keepAll]
  rfl

/-! ## The list of variants -/

/-- What a variant keeps of the production that it is cut from. -/
structure CutBy (n : Nullability) (p q : Production)
    (mask : List Bool) : Prop where
  length_eq : mask.length = p.rhs.length
  rhs_eq : q.rhs = ((p.rhs.zip mask).filter Prod.snd).map Prod.fst
  droppable : n.Droppable p.rhs (Form.droppedBy mask)
  lhs_eq : q.lhs = p.lhs

theorem IsVariant.cutBy (hvariant : n.IsVariant p q mask) :
    n.CutBy p q mask := by
  obtain ⟨head, hhead, rfl⟩ := hvariant.eq_rule
  obtain ⟨hlength, hdroppable⟩ := allows_iff.mp hvariant.allows
  refine ⟨hlength, Form.select_eq_filter mask p.rhs, hdroppable, ?_⟩
  exact (Production.head?_eq_some_iff.mp hhead).1.symm

theorem map_rhs_variants (hhead : p.head? = some head) :
    (n.variants p).map (fun entry => entry.1.rhs) =
      extendNew [] ((n.candidates p).map Prod.fst) := by
  rw [variants_eq hhead, List.map_map]
  exact OrderedMap.keys_foldl_insertIfNew (n.candidates p) ⟨[]⟩

theorem mem_map_rhs_variants (hhead : p.head? = some head) :
    rhs ∈ (n.variants p).map (fun entry => entry.1.rhs) ↔
      rhs ≠ [] ∧ ∃ dropped, n.Droppable p.rhs dropped ∧
        rhs = p.rhs.without dropped := by
  rw [map_rhs_variants hhead, mem_extendNew, ← exists_allows_iff]
  constructor
  · rintro (hold | hnew)
    · exact absurd hold List.not_mem_nil
    · obtain ⟨⟨_, mask⟩, hmem, rfl⟩ := List.mem_map.mp hnew
      obtain ⟨hallows, hne, heq⟩ := mem_candidates.mp hmem
      exact ⟨hne, mask, hallows, heq⟩
  · rintro ⟨hne, mask, hallows, heq⟩
    refine .inr (List.mem_map.mpr ⟨(rhs, mask), ?_, rfl⟩)
    exact mem_candidates.mpr ⟨hallows, hne, heq⟩

theorem head?_variants (hhead : p.head? = some head) (hne : p.rhs ≠ []) :
    (n.variants p).head? = some (p, p.rhs.map fun _ => true) := by
  obtain ⟨others, hcandidates⟩ :=
    List.head?_eq_some_iff.mp (head?_candidates n hne)
  rw [variants_eq hhead, hcandidates, List.foldl_cons]
  obtain ⟨later, hentries⟩ := OrderedMap.prefix_entries_foldl_insertIfNew
    others ⟨[(p.rhs, p.rhs.map fun _ => true)]⟩
  have hfirst : OrderedMap.insertIfNew ⟨[]⟩ p.rhs (p.rhs.map fun _ => true) =
      ⟨[(p.rhs, p.rhs.map fun _ => true)]⟩ := rfl
  rw [hfirst, ← hentries]
  exact congrArg (fun q => some (q, p.rhs.map fun _ => true))
    (Production.eq_rule_of_head? hhead).symm

/-- The variants of a production: each non-empty form that is left of its
right side without some nullable symbols is listed once, behind the production
itself. -/
structure Enumerates (n : Nullability) (p : Production)
    (variants : List (Production × List Bool)) : Prop where
  rhs_nodup : (variants.map fun entry => entry.1.rhs).Nodup
  mem_rhs_iff : ∀ rhs, rhs ∈ variants.map (fun entry => entry.1.rhs) ↔
    rhs ≠ [] ∧ ∃ dropped, n.Droppable p.rhs dropped ∧
      rhs = p.rhs.without dropped
  cutBy : ∀ entry ∈ variants, n.CutBy p entry.1 entry.2
  head?_eq : p.rhs ≠ [] →
    variants.head? = some (p, p.rhs.map fun _ => true)

/-- Whatever symbols are counted as nullable. -/
theorem variants_enumerate (n : Nullability) (hhead : p.head? = some head) :
    n.Enumerates p (n.variants p) where
  rhs_nodup := by
    rw [map_rhs_variants hhead]
    exact nodup_extendNew List.nodup_nil _
  mem_rhs_iff _ := mem_map_rhs_variants hhead
  cutBy _ hmem := (isVariant_of_mem_variants hmem).cutBy
  head?_eq hne := head?_variants hhead hne

/-- `S → ABA`, `A → a | λ` and `B → b | λ`, where `A` is left of the first
right side by two sets of positions. -/
def leftTwice : Grammar :=
  Grammar.withProductions { start := some (.var "S") }
    [.rule (.var "S") [.var "A", .var "B", .var "A"],
      .rule (.var "A") [.term "a"],
      .rule (.var "A") [],
      .rule (.var "B") [.term "b"],
      .rule (.var "B") []]

theorem variants_leftTwice :
    let p : Production := .rule (.var "S") [.var "A", .var "B", .var "A"]
    let listed := leftTwice.nullability.variants p
    p.head? = some (.var "S") ∧
      p.rhs.without {0, 1} = [.var "A"] ∧ p.rhs.without {1, 2} = [.var "A"] ∧
      (listed.map fun entry => entry.1.rhs).count [.var "A"] = 1 ∧
      listed.head? = some (p, [true, true, true]) ∧
      [] ∉ listed.map fun entry => entry.1.rhs := by
  intro p listed
  have hhead : p.head? = some (.var "S") := by decide
  have henumerates := variants_enumerate leftTwice.nullability hhead
  have honce : p.rhs.without {0, 1} = [.var "A"] := by decide
  have hagain : p.rhs.without {1, 2} = [.var "A"] := by decide
  have hdroppable : leftTwice.nullability.Droppable p.rhs {0, 1} := by
    intro i hi
    rcases Finset.mem_insert.mp hi with rfl | hi
    · exact ⟨.var "A", rfl, by decide +kernel⟩
    · rw [Finset.mem_singleton.mp hi]
      exact ⟨.var "B", rfl, by decide +kernel⟩
  have hlisted := (henumerates.mem_rhs_iff [.var "A"]).mpr
    ⟨by decide, {0, 1}, hdroppable, honce.symm⟩
  refine ⟨hhead, honce, hagain, ?_, henumerates.head?_eq (by decide), ?_⟩
  · exact List.count_eq_one_of_mem henumerates.rhs_nodup hlisted
  · exact fun hnil => ((henumerates.mem_rhs_iff []).mp hnil).1 rfl

end Nullability

end FormalGrammars
