import FormalGrammars.Proofs.Reading.WrittenProductions

/-!
# Grammars written and read back

A grammar that was read is written with one production to a line.  Its text is
read as a grammar with the same productions exactly when each of them is legible
on its own.  No line makes up for what is misread on another one: the first head
that is not legible would have to be the head of the first production that is
read with such a head, and it is not.
-/

namespace FormalGrammars

open Text Convention

namespace Grammar

variable {g h : Grammar} {text : String} {p : Production}

/-- A grammar that was read from text. -/
structure WasRead (g : Grammar) : Prop where
  ledByFirst : g.LedByFirst
  readFrom : ∀ p ∈ g.productions, ∃ name alternative, p.ReadFrom name alternative

theorem wasRead_of_read (hread : read .capitals text = .ok g) : g.WasRead := by
  have hg := readAs_of_read hread
  refine ⟨hg.ledByFirst, fun p hp => ?_⟩
  rw [hg.productions_eq, mem_extendNew, List.mem_flatMap] at hp
  obtain ⟨line, hline, hp⟩ := hp.resolve_left (List.not_mem_nil)
  exact Production.exists_readFrom (not_newline_of_mem_contentLines hline) hp
    ((hg.readable line hline).allowed p hp)

theorem toList_text (g : Grammar) :
    g.text.toList =
      (g.productions.map fun p => p.text.toList).flatMap (· ++ ['\n']) := by
  simp [Grammar.text, String.toList_join, List.flatMap_map]

theorem WasRead.contentLines_text (hg : g.WasRead) :
    contentLines g.text.toList = g.productions.map fun p => p.text.toList := by
  rw [toList_text]
  refine contentLines_lines fun line hline => ?_
  obtain ⟨p, hp, rfl⟩ := List.mem_map.mp hline
  obtain ⟨name, alternative, hfrom⟩ := hg.readFrom p hp
  exact hfrom.line_text

/-! ## What the lines give -/

/-- The productions that are read from the lines of the productions. -/
def rereadings (ps : List Production) : List Production :=
  ps.flatMap fun p => lineProductions .capitals p.text.toList

theorem WasRead.of_read_text (hg : g.WasRead)
    (hread : read .capitals g.text = .ok h) :
    h.LedByFirst ∧ (∀ p ∈ g.productions, Readable .capitals p.text.toList) ∧
      h.productions = extendNew [] (rereadings g.productions) := by
  obtain ⟨hh, hreadable, hproductions⟩ := readAs_of_read hread
  rw [hg.contentLines_text] at hreadable hproductions
  rw [List.flatMap_map] at hproductions
  exact ⟨hh, List.forall_mem_map.mp hreadable, hproductions⟩

/-- Heads that can be told give one production for each line. -/
theorem WasRead.rereadings_eq (hg : g.WasRead)
    (hlines : ∀ p ∈ g.productions, Readable .capitals p.text.toList)
    {ps : List Production} (hps : ps ⊆ g.productions)
    (hheads : ∀ p ∈ ps, p.HeadLegible) :
    rereadings ps = ps.map Production.reread := by
  rw [rereadings, ← List.flatMap_pure_eq_map]
  refine List.flatMap_congr fun p hp => ?_
  obtain ⟨name, alternative, hfrom⟩ := hg.readFrom p (hps hp)
  refine hfrom.lineProductions_eq (hheads p hp) fun harrow => ?_
  exact hfrom.not_readable (hheads p hp) harrow (hlines p (hps hp))

/-- The first production with a head that is not legible would be read from its
own line, where no production has this head. -/
theorem WasRead.headLegible (hg : g.WasRead)
    (hlines : ∀ p ∈ g.productions, Readable .capitals p.text.toList)
    (hsame : extendNew [] (rereadings g.productions) = g.productions) :
    ∀ p ∈ g.productions, p.HeadLegible := by
  cases hfind : g.productions.find? fun p => !decide p.HeadLegible with
  | none => simpa using List.find?_eq_none.mp hfind
  | some p =>
      have hfirst : (rereadings g.productions).find?
          (fun p => !decide p.HeadLegible) = some p := by
        rw [← hsame, find?_extendNew] at hfind
        exact hfind
      obtain ⟨hbad, before, after, hsplit, hbefore⟩ :=
        List.find?_eq_some_iff_append.mp hfind
      have hp : p ∈ g.productions := by simp [hsplit]
      obtain ⟨name, alternative, hfrom⟩ := hg.readFrom p hp
      have hmisread : ∀ q ∈ lineProductions .capitals p.text.toList,
          ¬ q.HeadLegible ∧ q.lhs ≠ p.lhs := fun q hq =>
        hfrom.misread (by simpa using hbad) (hlines p hp) hq
      obtain ⟨q, qs, hcons⟩ := List.exists_cons_of_ne_nil
        (lineProductions_ne_nil .capitals (hlines p hp).hasArrow)
      have hq := hmisread q (hcons ▸ List.mem_cons_self)
      -- The lines in front of it give legible heads only.
      have hheads : ∀ q ∈ before, q.HeadLegible := by simpa using hbefore
      have hnone : (rereadings before).find?
          (fun p => !decide p.HeadLegible) = none := by
        rw [hg.rereadings_eq hlines (by simp [hsplit]) hheads,
          List.find?_eq_none]
        refine List.forall_mem_map.mpr fun q hq => ?_
        have hkept : q.reread.HeadLegible := hheads q hq
        simpa using hkept
      rw [hsplit, rereadings, List.flatMap_append, List.flatMap_cons, hcons,
        List.find?_append, ← rereadings, hnone, Option.none_or, List.cons_append,
        List.find?_cons_of_pos (by simpa using hq.1)] at hfirst
      exact absurd (congrArg Production.lhs (Option.some.inj hfirst)) hq.2

/-- When the lines give the productions again, all of them are legible. -/
theorem WasRead.legible (hg : g.WasRead)
    (hlines : ∀ p ∈ g.productions, Readable .capitals p.text.toList)
    (hsame : extendNew [] (rereadings g.productions) = g.productions) :
    ∀ p ∈ g.productions, p.Legible := by
  have hheads := hg.headLegible hlines hsame
  rw [hg.rereadings_eq hlines (List.Subset.refl _) hheads] at hsame
  -- Each line gives one production, so no repetition is left out.
  have hmap : g.productions.map Production.reread = g.productions.map id := by
    have hsub := extendNew_sublist [] (g.productions.map Production.reread)
    rw [hsame, List.nil_append] at hsub
    rw [List.map_id]
    exact (hsub.eq_of_length (by simp)).symm
  intro p hp
  obtain ⟨name, alternative, hfrom⟩ := hg.readFrom p hp
  have hreread : p.reread = p := List.map_inj_left.mp hmap p hp
  refine ⟨hheads p hp, fun harrow => ?_, hfrom.reread_eq_iff.mp hreread⟩
  exact hfrom.not_readable (hheads p hp) harrow (hlines p hp)

theorem WasRead.lineProductions_of_legible (hg : g.WasRead)
    (hp : p ∈ g.productions) (hlegible : p.Legible) :
    lineProductions .capitals p.text.toList = [p] := by
  obtain ⟨name, alternative, hfrom⟩ := hg.readFrom p hp
  rw [hfrom.lineProductions_eq hlegible.head hlegible.no_arrow,
    hfrom.reread_eq_iff.mpr hlegible.rhs]

/-- Legible productions can be read from their lines, and nothing else is. -/
theorem WasRead.rereadings_of_legible (hg : g.WasRead)
    (hlegible : ∀ p ∈ g.productions, p.Legible) :
    (∀ p ∈ g.productions, Readable .capitals p.text.toList) ∧
      rereadings g.productions = g.productions := by
  have hback := fun p hp => hg.lineProductions_of_legible hp (hlegible p hp)
  constructor
  · intro p hp
    have hmem : p ∈ lineProductions .capitals p.text.toList := by
      rw [hback p hp]
      exact List.mem_cons_self
    refine ⟨hasArrow_of_mem_lineProductions hmem, ?_⟩
    rw [hback p hp, List.forall_mem_singleton]
    exact hg.ledByFirst.allowed hp
  · rw [rereadings, List.flatMap_congr hback]
    exact List.flatMap_singleton' g.productions

/-- The text of a grammar that was read is read as a grammar with the same
productions in the same order exactly when all of them are legible.  The start
is then the same. -/
theorem read_text_iff_legible (hread : read .capitals text = .ok g) :
    (∃ h, read .capitals g.text = .ok h ∧ h.productions = g.productions ∧
        (g.productions ≠ [] → h.start = g.start)) ↔
      ∀ p ∈ g.productions, p.Legible := by
  have hg := wasRead_of_read hread
  constructor
  · rintro ⟨h, hagain, hsame, -⟩
    obtain ⟨-, hlines, hproductions⟩ := hg.of_read_text hagain
    exact hg.legible hlines (hproductions.symm.trans hsame)
  · intro hlegible
    obtain ⟨hlines, hrereadings⟩ := hg.rereadings_of_legible hlegible
    have hreadable : ∀ line ∈ contentLines g.text.toList,
        Readable .capitals line := by
      rw [hg.contentLines_text]
      exact List.forall_mem_map.mpr hlines
    obtain ⟨h, hagain⟩ := exists_read hreadable
    obtain ⟨hh, -, hproductions⟩ := hg.of_read_text hagain
    have hsame : h.productions = g.productions := by
      rw [hproductions, hrereadings]
      exact extendNew_eq_append hg.ledByFirst.consistent.productions_nodup
    refine ⟨h, hagain, hsame, fun _ => ?_⟩
    rw [hh.start_eq, hsame, hg.ledByFirst.start_eq]

/-- `S → aSb | V(x) c | λ` and `V(x) → S | λ`. -/
def lambdasAndGroups : Grammar :=
  Grammar.withProductions { start := some (.var "S") }
    [.rule (.var "S") [.term "a", .var "S", .term "b"],
      .rule (.var "S") [.var "V(x)", .term "c"], .rule (.var "S") [],
      .rule (.var "V(x)") [.var "S"], .rule (.var "V(x)") []]

theorem read_text_lambdasAndGroups :
    read .capitals "S -> aSb | V(x)c |\nV(x) → S | ε" = .ok lambdasAndGroups ∧
    (∀ p ∈ lambdasAndGroups.productions, p.Legible) ∧
    ∃ h, read .capitals lambdasAndGroups.text = .ok h ∧
      h.productions = lambdasAndGroups.productions ∧
      h.start = lambdasAndGroups.start := by
  have hread : read .capitals "S -> aSb | V(x)c |\nV(x) → S | ε" =
      .ok lambdasAndGroups := by
    decide +kernel
  have hlegible : ∀ p ∈ lambdasAndGroups.productions, p.Legible := by
    decide +kernel
  obtain ⟨h, hagain, hsame, hstart⟩ := (read_text_iff_legible hread).mpr hlegible
  exact ⟨hread, hlegible, h, hagain, hsame, hstart (by decide +kernel)⟩

/-- `S → A(b)`, where `A` and the bracket are symbols of their own, and
`A → a`. -/
def gluedBracket : Grammar :=
  Grammar.withProductions { start := some (.var "S") }
    [.rule (.var "S") [.var "A", .term "(", .term "b", .term ")"],
      .rule (.var "A") [.term "a"]]

/-- With the bracket directly behind it the variable is another one. -/
theorem not_read_text_gluedBracket :
    read .capitals "S -> A (b)\nA -> a" = .ok gluedBracket ∧
    ¬ ∃ h, read .capitals gluedBracket.text = .ok h ∧
      h.productions = gluedBracket.productions ∧
      (gluedBracket.productions ≠ [] → h.start = gluedBracket.start) := by
  refine ⟨by decide +kernel, ?_⟩
  have hagain : read .capitals gluedBracket.text =
      .ok (Grammar.withProductions { start := some (.var "S") }
        [.rule (.var "S") [.var "A(b)"], .rule (.var "A") [.term "a"]]) := by
    decide +kernel
  rintro ⟨h, hread, hsame, -⟩
  rw [hagain] at hread
  cases hread
  exact absurd hsame (by decide +kernel)

end Grammar

end FormalGrammars
