import FormalGrammars.Proofs.NormalForm.Renaming

/-!
# Helpers named by letters

A conversion with letters mints at the same moments as one with numbers, since
looking up a stand-in only compares symbols.  So the two put out the same
productions up to the names of the helpers, and they mint equally many.

Each mint takes the first letter that is still free.  The helpers get the free
letters one after the other, and every helper beyond them is one letter that is
missing: the conversion is refused exactly when there are more helpers than
free letters, and the shortage is the difference.
-/

namespace FormalGrammars

variable {g : Grammar} {start : Symbol}

/-! ## Letters that are free -/

/-- The letters that are not the name of a symbol in the productions. -/
def Grammar.freeLetters (g : Grammar) : List String :=
  helperLetters.filter fun letter =>
    ∀ p ∈ g.productions, ∀ s ∈ p.symbols, s.name ≠ letter

theorem nodup_helperLetters : helperLetters.Nodup := by
  decide +kernel

namespace NameSource

variable {source : NameSource} {letter : String} {rest : List String}

/-- The letters that are left. -/
def letters (source : NameSource) : List String :=
  helperLetters.filter (· ∉ source.taken)

theorem letters_ofGrammar (hg : g.Consistent) (naming : Naming) :
    (ofGrammar g naming).letters = g.freeLetters := by
  apply List.filter_congr
  intro letter _
  rw [decide_eq_decide]
  constructor
  · intro hfree p hp s hs heq
    apply hfree
    rw [← heq]
    exact name_mem_taken (hg.mem_keys_iff.mpr ⟨p, hp, hs⟩)
  · intro hfree htaken
    rcases List.mem_map.mp htaken with ⟨s, hs, heq⟩
    have hoccurs : ∃ p ∈ g.productions, s ∈ p.symbols := by
      rcases List.mem_append.mp hs with hvar | hterm
      · exact (hg.mem_variables_iff.mp hvar).2
      · exact (hg.mem_terminals_iff.mp hterm).2
    rcases hoccurs with ⟨p, hp, hoccurs⟩
    exact hfree p hp s hoccurs heq

theorem letters_mint (source : NameSource) :
    source.mint.2.letters = source.letters.filter (· ≠ source.mint.1) := by
  unfold letters
  rw [(mint_spec source).2, List.filter_filter]
  apply List.filter_congr
  intro letter _
  simp [not_or]

/-- While letters are left, the first of them is given out. -/
theorem mint_of_letters (hnaming : source.naming = .letters)
    (hleft : source.letters = letter :: rest) :
    source.mint =
      (letter, { source with taken := letter :: source.taken }) := by
  have hfind : helperLetters.find? (fun letter => letter ∉ source.taken) =
      some letter := by
    rw [← List.head?_filter]
    exact congrArg List.head? hleft
  unfold mint
  simp only [hnaming, hfind]

theorem letters_mint_of_letters (hnaming : source.naming = .letters)
    (hleft : source.letters = letter :: rest) :
    source.mint.2.letters = rest := by
  have hnodup : (letter :: rest).Nodup := by
    rw [← hleft]
    exact List.Nodup.filter _ nodup_helperLetters
  rw [letters_mint, mint_of_letters hnaming hleft, hleft, List.filter_cons,
    if_neg (by simp), List.filter_eq_self]
  intro other hother
  have hne : other ≠ letter := by
    intro heq
    rw [heq] at hother
    exact (List.nodup_cons.mp hnodup).1 hother
  exact decide_eq_true hne

/-- When no letter is left, a numbered name is given out, and one more letter
is missing. -/
theorem mint_of_no_letters (hnaming : source.naming = .letters)
    (hleft : source.letters = []) :
    source.mint.2.naming = .letters ∧
      source.mint.2.missing = source.missing + 1 := by
  have hfind : helperLetters.find? (fun letter => letter ∉ source.taken) =
      none := by
    rw [← List.head?_filter]
    exact congrArg List.head? hleft
  unfold mint
  simp only [hnaming, hfind]
  exact ⟨rfl, rfl⟩

end NameSource

/-! ## Letters in the course of a splitting -/

namespace Splitting

variable {free : List String} {names : NameSource}
  {helpers : OrderedMap Symbol Form} {d : Splitting}

/-- As many of the free letters as there are helpers were given out, and the
helpers that found none are counted. -/
structure Rationed (free : List String) (names : NameSource)
    (helpers : OrderedMap Symbol Form) : Prop where
  naming_eq : names.naming = .letters
  helpers_taken : ∀ s ∈ helpers.keys, s.name ∈ names.taken
  letters_eq : names.letters = free.drop helpers.keys.length
  missing_eq : names.missing = helpers.keys.length - free.length
  initial : (free.take helpers.keys.length).map Symbol.var <+: helpers.keys

theorem rationed_ofGrammar (hg : g.Consistent) :
    Rationed g.freeLetters (ofGrammar g .letters).names
      (ofGrammar g .letters).helpers := by
  constructor
  · rfl
  · intro s hs
    exact absurd hs List.not_mem_nil
  · exact NameSource.letters_ofGrammar hg .letters
  · exact (Nat.zero_sub _).symm
  · exact List.prefix_refl _

theorem Rationed.keys_eq_of_le (hrationed : Rationed free names helpers)
    (hle : helpers.keys.length ≤ free.length) :
    helpers.keys = (free.take helpers.keys.length).map Symbol.var := by
  apply (hrationed.initial.eq_of_length _).symm
  rw [List.length_map, List.length_take, Nat.min_eq_left hle]

theorem Rationed.mint (c : Splitting) (form : Form)
    (hc : Rationed free c.names c.helpers) :
    Rationed free (c.mint form).2.names (c.mint form).2.helpers := by
  have hkeys := keys_mint hc.helpers_taken form
  have hlength : (c.mint form).2.helpers.keys.length =
      c.helpers.keys.length + 1 := by
    rw [hkeys, List.length_append, List.length_singleton]
  have htaken := helpers_taken_mint hc.helpers_taken form
  cases hdrop : free.drop c.helpers.keys.length with
  | nil =>
      have hleft := hc.letters_eq.trans hdrop
      have hminted := NameSource.mint_of_no_letters hc.naming_eq hleft
      have hle := List.drop_eq_nil_iff.mp hdrop
      constructor
      · exact hminted.1
      · exact htaken
      · rw [hlength, List.drop_eq_nil_of_le (by omega)]
        change c.names.mint.2.letters = []
        rw [NameSource.letters_mint, hleft, List.filter_nil]
      · change c.names.mint.2.missing = _
        rw [hminted.2, hc.missing_eq, hlength]
        omega
      · have hinitial := hc.initial
        rw [List.take_of_length_le hle] at hinitial
        rw [hlength, List.take_of_length_le (by omega), hkeys]
        exact hinitial.trans (List.prefix_append _ _)
  | cons letter rest =>
      have hleft := hc.letters_eq.trans hdrop
      have hminted := NameSource.mint_of_letters hc.naming_eq hleft
      have hlt : c.helpers.keys.length < free.length := by
        rw [← List.drop_eq_nil_iff.not.trans Nat.not_le, hdrop]
        exact List.cons_ne_nil letter rest
      have hletter : free[c.helpers.keys.length]? = some letter := by
        rw [← List.head?_drop, hdrop, List.head?_cons]
      constructor
      · change c.names.mint.2.naming = .letters
        rw [hminted]
        exact hc.naming_eq
      · exact htaken
      · rw [hlength, ← List.drop_drop, hdrop]
        exact NameSource.letters_mint_of_letters hc.naming_eq hleft
      · change c.names.mint.2.missing = _
        rw [hminted, hlength]
        change c.names.missing = _
        rw [hc.missing_eq]
        omega
      · have hhelper : (c.mint form).1 = Symbol.var letter :=
          congrArg Symbol.var (congrArg Prod.fst hminted)
        have hold := hc.keys_eq_of_le (Nat.le_of_lt hlt)
        rw [hlength, hkeys, hhelper, List.take_add_one, hletter,
          List.map_append, ← hold]
        exact List.prefix_refl _

/-- The helpers have the first of the free letters, and the others are the
shortage. -/
theorem rationed_of_foldlM (hg : g.Consistent)
    (hfold : g.productions.foldlM (fun c p => (c.split p).map Prod.snd)
      (ofGrammar g .letters) = .ok d) :
    Rationed g.freeLetters d.names d.helpers :=
  supply_foldlM Rationed.mint (rationed_ofGrammar hg) hfold

end Splitting

/-! ## The two conversions -/

namespace ChomskyForm

variable {c d : ChomskyForm} {f : Symbol → Symbol}

/-- One normal form is the other with its helpers renamed. -/
structure Mirrors (f : Symbol → Symbol) (c d : ChomskyForm) : Prop
    extends Renamed f c d where
  start_eq : d.grammar.start = c.grammar.start
  directory_eq : d.directory = c.directory.rename f
  helpers_eq : d.helpers = c.helpers.rename f (List.map f)

theorem mirrors_finish {last final : Splitting} (hf : Renames f)
    (hmatches : Splitting.Matches f last final)
    (hc : last.finish g = .ok c) (hd : final.finish g = .ok d) :
    Mirrors f c d := by
  have hrenamed := renamed_finish hf hmatches hc hd
  rcases Splitting.finish_eq_ok_iff.mp hc with ⟨_, rfl⟩
  rcases Splitting.finish_eq_ok_iff.mp hd with ⟨_, rfl⟩
  constructor
  · exact hrenamed
  · exact (Grammar.start_withProductions _).trans
      (Grammar.start_withProductions _).symm
  · exact hmatches.directory_eq
  · exact hmatches.helpers_eq

end ChomskyForm

/-- With letters the conversion is refused when it mints more helpers than
there are free letters, with the shortage; otherwise it gives the normal form
that it gives with numbers, where the helpers are renamed to the first of the
free letters in the order of minting. -/
theorem Grammar.toChomskyForm_letters (hg : g.Consistent)
    (hstart : g.requireContextFree = .ok start)
    (hlambda : ∀ p ∈ g.productions, p.isLambda = false)
    (hunit : ∀ p ∈ g.productions, p.isUnit = false) :
    ∃ c, g.toChomskyForm .numbered = .ok c ∧
      (g.freeLetters.length < c.helpers.keys.length →
        g.toChomskyForm .letters = .error (.lettersExhausted
          (c.helpers.keys.length - g.freeLetters.length))) ∧
      (c.helpers.keys.length ≤ g.freeLetters.length →
        ∃ d f, g.toChomskyForm .letters = .ok d ∧ Renames f ∧ g.KeptBy f ∧
          ChomskyForm.Mirrors f c d ∧
          d.helpers.keys = c.helpers.keys.map f ∧
          d.helpers.keys = (g.freeLetters.take
            c.helpers.keys.length).map Symbol.var) := by
  have hfree := (requireContextFree_eq_ok_iff.mp hstart).2
  rcases exists_last_splitting hstart hlambda hunit .numbered with
    ⟨last, hlast⟩
  rcases exists_last_splitting hstart hlambda hunit .letters with
    ⟨final, hfinal⟩
  rcases Splitting.exists_matches hg hfree hlast hfinal with
    ⟨f, hf, hkept, hmatches⟩
  have hrationed := Splitting.rationed_of_foldlM hg hfinal
  have hcount : final.helpers.keys.length = last.helpers.keys.length := by
    rw [hmatches.keys_eq, List.length_map]
  have hnone := Splitting.missing_eq_zero_of_numbered hlast
  rcases Splitting.exists_finish hnone g with ⟨c, hc, hhelpers⟩
  have hmissing := hrationed.missing_eq
  refine ⟨c, (toChomskyForm_eq_finish hstart hlast).trans hc, ?_, ?_⟩
  · intro hlt
    rw [hhelpers] at hlt ⊢
    have hpositive : final.names.missing > 0 := by omega
    rw [toChomskyForm_eq_finish hstart hfinal,
      Splitting.finish_of_missing hpositive, hmissing, hcount]
  · intro hle
    rw [hhelpers] at hle ⊢
    have hzero : final.names.missing = 0 := by omega
    rcases Splitting.exists_finish hzero g with ⟨d, hd, hletters⟩
    have hfirst := hrationed.keys_eq_of_le (by omega)
    rw [hcount] at hfirst
    refine ⟨d, f, (toChomskyForm_eq_finish hstart hfinal).trans hd, hf, hkept,
      ChomskyForm.mirrors_finish hf hmatches hc hd, ?_, ?_⟩
    · rw [hletters, hmatches.keys_eq]
    · rw [hletters, hfirst]

/-- `S → AB…`, with the first letters of the alphabet in a row. -/
def Grammar.lettersInRow (count : Nat) : Grammar :=
  Grammar.withProductions { start := some (.var "S") }
    [.rule (.var "S") ((helperLetters.take count).map .var)]

/-- Twenty letters leave six for eighteen helpers; the two helpers that four
letters need are the next ones. -/
theorem Grammar.toChomskyForm_lettersInRow :
    (lettersInRow 20).toChomskyForm .letters = .error (.lettersExhausted 12) ∧
      ∃ d, (lettersInRow 4).toChomskyForm .letters = .ok d ∧
        d.helpers.keys = [.var "E", .var "F"] := by
  constructor
  · have hbuilt : ∃ c, (lettersInRow 20).toChomskyForm .numbered = .ok c ∧
        c.helpers.keys.length = 18 := ⟨_, rfl, by decide +kernel⟩
    have hfree : (lettersInRow 20).freeLetters.length = 6 := by decide +kernel
    rcases hbuilt with ⟨other, hother, hcount⟩
    rcases toChomskyForm_letters (g := lettersInRow 20)
      (consistent_of_start rfl _) rfl (by decide +kernel)
      (by decide +kernel) with ⟨c, hc, hrefused, _⟩
    rw [hc, Except.ok.injEq] at hother
    rw [← hother] at hcount
    rw [hfree, hcount] at hrefused
    exact hrefused (by decide)
  · have hbuilt : ∃ c, (lettersInRow 4).toChomskyForm .numbered = .ok c ∧
        c.helpers.keys.length = 2 := ⟨_, rfl, by decide +kernel⟩
    have hfree : (lettersInRow 4).freeLetters.take 2 = ["E", "F"] := by
      decide +kernel
    have hmany : 2 ≤ (lettersInRow 4).freeLetters.length := by decide +kernel
    rcases hbuilt with ⟨other, hother, hcount⟩
    rcases toChomskyForm_letters (g := lettersInRow 4)
      (consistent_of_start rfl _) rfl (by decide +kernel)
      (by decide +kernel) with ⟨c, hc, _, hgiven⟩
    rw [hc, Except.ok.injEq] at hother
    rw [← hother] at hcount
    rw [hcount] at hgiven
    rcases hgiven hmany with ⟨d, f, hd, _, _, _, _, hkeys⟩
    rw [hfree] at hkeys
    exact ⟨d, hd, hkeys⟩

end FormalGrammars
