import FormalGrammars.NormalForm.HelperName
import Mathlib.Data.List.Nodup

/-!
# Helper names are fresh

Numbers have different names, so among one more numbers than there are taken
names one is free.  Whichever way a name is minted, it was not taken before
and is taken afterwards.
-/

namespace FormalGrammars

theorem numberedName_injective {m n : Nat}
    (heq : numberedName m = numberedName n) : m = n := by
  have hdigits := (String.append_right_inj "H").mp heq
  rw [Nat.toString_eq_repr, Nat.toString_eq_repr, ← String.toList_inj,
    Nat.toList_repr, Nat.toList_repr] at hdigits
  have hvalue := congrArg (Nat.ofDigitChars 10 · 0) hdigits
  simpa only [Nat.ofDigitChars_ten_toDigits] using hvalue

namespace NameSource

variable {source : NameSource}

def candidates (source : NameSource) : List Nat :=
  (List.range (source.taken.length + 1)).map (source.counter + 1 + ·)

theorem nodup_candidates (source : NameSource) :
    (source.candidates.map numberedName).Nodup := by
  refine List.Nodup.map (fun m n heq => numberedName_injective heq) ?_
  refine List.Nodup.map (fun m n heq => ?_) List.nodup_range
  exact Nat.add_left_cancel heq

theorem exists_free_candidate (source : NameSource) :
    ∃ number ∈ source.candidates, numberedName number ∉ source.taken := by
  apply Classical.byContradiction
  intro hnone
  have hsub : source.candidates.map numberedName ⊆ source.taken := by
    intro name hname
    obtain ⟨number, hnumber, rfl⟩ := List.mem_map.mp hname
    exact Classical.byContradiction fun hfree =>
      hnone ⟨number, hnumber, hfree⟩
  have hle := (nodup_candidates source).length_le_of_subset hsub
  simp only [candidates, List.length_map, List.length_range] at hle
  omega

theorem nextNumber_free (source : NameSource) :
    numberedName source.nextNumber ∉ source.taken := by
  obtain ⟨free, hmem, hfree⟩ := exists_free_candidate source
  have hsome : (source.candidates.find? fun number =>
      numberedName number ∉ source.taken).isSome := by
    rw [List.find?_isSome]
    exact ⟨free, hmem, decide_eq_true hfree⟩
  obtain ⟨number, hnumber⟩ := Option.isSome_iff_exists.mp hsome
  have heq : source.nextNumber = number := by
    change (source.candidates.find? _).getD _ = number
    rw [hnumber]
    rfl
  rw [heq]
  simpa using List.find?_some hnumber

/-- The minted name is new, and only that name is taken besides. -/
theorem mint_spec (source : NameSource) :
    source.mint.1 ∉ source.taken ∧
      source.mint.2.taken = source.mint.1 :: source.taken := by
  unfold mint
  cases source.naming with
  | numbered => exact ⟨nextNumber_free source, rfl⟩
  | letters =>
      cases hfind : helperLetters.find? fun letter =>
          letter ∉ source.taken with
      | some letter => exact ⟨by simpa using List.find?_some hfind, rfl⟩
      | none => exact ⟨nextNumber_free _, rfl⟩

theorem name_mem_taken {g : Grammar} {naming : Naming} {s : Symbol}
    (hs : s ∈ g.tally.keys) : s.name ∈ (ofGrammar g naming).taken := by
  refine List.mem_map.mpr ⟨s, ?_, rfl⟩
  simp only [Grammar.variables, Grammar.terminals, List.mem_append,
    List.mem_filter]
  cases s with
  | var name => exact .inl ⟨hs, rfl⟩
  | term name => exact .inr ⟨hs, rfl⟩

end NameSource

end FormalGrammars
