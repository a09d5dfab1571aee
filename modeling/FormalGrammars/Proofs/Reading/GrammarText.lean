import FormalGrammars.Grammar.Reading
import FormalGrammars.Proofs.Editing

/-!
# What grammar text is read as

A text is read line by line.  For context-free grammars whether a line is
accepted depends on the line alone: it has an arrow, and its productions may
stand in such a grammar.  The grammar read has the productions of all lines in
their order, without the repetitions, and as its start the head of the first.
-/

namespace FormalGrammars

open Text

/-- The production may stand in a context-free grammar. -/
def Production.Allowed (p : Production) : Prop :=
  p.hasHead = true ∧ ∀ s ∈ p.symbols, Grammar.isReserved s.name = false

namespace Grammar

variable {convention : Convention} {g h : Grammar} {p : Production}
  {ps : List Production} {line : List Char} {lines : List (List Char)}

theorem faultOf?_eq_none_iff (hvalidity : g.validity = .contextFree) :
    g.faultOf? p = none ↔ p.Allowed := by
  constructor
  · intro hfault
    exact ⟨hasHead_of_faultOf? hfault hvalidity,
      fun s hs => name_allowed_of_faultOf? hfault hs⟩
  · rintro ⟨hhead, hnames⟩
    have hlhs : p.lhs ≠ [] := by
      rintro hnil
      simp [Production.hasHead, Production.head?, Form.soleVariable?, hnil] at hhead
    have hnone : p.symbols.find? (fun s => isReserved s.name) = none :=
      List.find?_eq_none.mpr fun s hs => by simp [hnames s hs]
    simp [faultOf?, hlhs, hnone, hhead]

theorem addAll_eq_ok_iff (hvalidity : g.validity = .contextFree) :
    g.addAll ps = .ok h ↔
      (∀ p ∈ ps, p.Allowed) ∧ h = ps.foldl Grammar.insert g := by
  induction ps generalizing g with
  | nil => simpa [addAll, pure, Except.pure] using eq_comm
  | cons p ps ih =>
      rw [addAll_cons]
      cases hfault : g.faultOf? p with
      | some fault =>
          have hnot : ¬ p.Allowed := fun hallowed => by
            rw [(faultOf?_eq_none_iff hvalidity).mpr hallowed] at hfault
            cases hfault
          simp [hnot]
      | none =>
          have hallowed := (faultOf?_eq_none_iff hvalidity).mp hfault
          have hbehind : (g.insert p).validity = .contextFree := by
            rw [validity_insert, hvalidity]
          simp [ih hbehind, hallowed]

theorem adoptStart_eq (g : Grammar) (lhs : Form) :
    g.adoptStart lhs = { g with start := g.start.or (Form.soleVariable? lhs) } := by
  obtain ⟨validity, start, productions, tally⟩ := g
  cases start with
  | some start => rfl
  | none => cases hhead : Form.soleVariable? lhs <;> simp [adoptStart, hhead]

theorem Kept.adoptStart {validity : Validity} (hg : g.Kept validity) (lhs : Form) :
    (g.adoptStart lhs).Kept validity := by
  unfold Grammar.adoptStart
  split
  next head _ hhead =>
    have hvar : head.isVar = true :=
      (Production.head?_eq_some_iff (p := ⟨lhs, []⟩).mp hhead).2
    have hset : g.setStart head = .ok { g with start := some head } := if_pos hvar
    exact ⟨hg.validity_eq, hg.consistent.setStart hset,
      hg.admissible.setStart hset⟩
  next => exact hg

/-! ## One line -/

/-- The productions of a line, or none when it has no arrow. -/
def lineProductions (convention : Convention) (line : List Char) :
    List Production :=
  match splitProductionLine? line with
  | none => []
  | some (left, alternatives) =>
    alternatives.map (Production.read convention left)

/-- The line has an arrow, and all of its productions are allowed. -/
structure Readable (convention : Convention) (line : List Char) : Prop where
  hasArrow : (splitProductionLine? line).isSome = true
  allowed : ∀ p ∈ lineProductions convention line, p.Allowed

/-- A context-free grammar that has been edited, and whose start is the head of
its first production. -/
structure LedByFirst (g : Grammar) : Prop extends g.Kept .contextFree where
  start_eq : g.start = g.productions.head?.bind Production.head?

theorem ledByFirst_empty : (empty .contextFree).LedByFirst :=
  ⟨kept_empty .contextFree, rfl⟩

theorem LedByFirst.allowed (hg : g.LedByFirst) (hp : p ∈ g.productions) :
    p.Allowed :=
  ⟨hg.admissible.head_of_contextFree hg.validity_eq p hp,
    hg.admissible.name_allowed p hp⟩

theorem readLine_eq_ok_iff (hvalidity : g.validity = .contextFree) :
    readLine convention g line = .ok h ↔ Readable convention line ∧
      ∃ left alternatives,
        splitProductionLine? line = some (left, alternatives) ∧
        h = ((lineProductions convention line).foldl Grammar.insert g).adoptStart
          (convention.readForm left) := by
  cases hsplit : splitProductionLine? line with
  | none =>
      have hnot : ¬ Readable convention line := fun hline => by
        simpa [hsplit] using hline.hasArrow
      simp [readLine, hsplit, hnot]
  | some parts =>
      obtain ⟨left, alternatives⟩ := parts
      have hline : lineProductions convention line =
          alternatives.map (Production.read convention left) := by
        rw [lineProductions, hsplit]
      have hread : readLine convention g line =
          (g.addAll (lineProductions convention line)).map
            fun after => after.adoptStart (convention.readForm left) := by
        rw [hline, readLine, hsplit]
        rfl
      have hreadable : Readable convention line ↔
          ∀ p ∈ lineProductions convention line, p.Allowed :=
        ⟨Readable.allowed, fun hallowed => ⟨by rw [hsplit]; rfl, hallowed⟩⟩
      rw [hread, hreadable]
      cases hadd : g.addAll (lineProductions convention line) with
      | error fault =>
          have hnot : ¬ ∀ p ∈ lineProductions convention line, p.Allowed :=
            fun hallowed => by
              rw [(addAll_eq_ok_iff hvalidity).mpr ⟨hallowed, rfl⟩] at hadd
              cases hadd
          simp [Except.map, hnot]
      | ok after =>
          obtain ⟨hallowed, rfl⟩ := (addAll_eq_ok_iff hvalidity).mp hadd
          simp only [Except.map, Except.ok.injEq, Option.some.injEq,
            Prod.mk.injEq, and_iff_right hallowed]
          exact ⟨fun heq => ⟨left, alternatives, ⟨rfl, rfl⟩, heq.symm⟩,
            fun ⟨_, _, ⟨rfl, rfl⟩, heq⟩ => heq.symm⟩

theorem lineProductions_ne_nil (convention : Convention)
    (hline : (splitProductionLine? line).isSome = true) :
    lineProductions convention line ≠ [] := by
  obtain ⟨⟨left, alternatives⟩, hsplit⟩ := Option.isSome_iff_exists.mp hline
  obtain ⟨⟨left, right⟩, -, heq⟩ := Option.map_eq_some_iff.mp hsplit
  cases heq
  rw [lineProductions, hsplit]
  simpa using splitWhere_ne_nil _ right

theorem hasArrow_of_mem_lineProductions (hp : p ∈ lineProductions convention line) :
    (splitProductionLine? line).isSome = true := by
  rw [lineProductions] at hp
  split at hp
  next => cases hp
  next hsplit =>
    rw [hsplit]
    rfl

theorem lhs_of_mem_lineProductions {left : List Char}
    {alternatives : List (List Char)}
    (hsplit : splitProductionLine? line = some (left, alternatives))
    (hp : p ∈ lineProductions convention line) :
    p.lhs = convention.readForm left := by
  rw [lineProductions, hsplit] at hp
  obtain ⟨alternative, -, rfl⟩ := List.mem_map.mp hp
  rfl

theorem LedByFirst.readLine (hg : g.LedByFirst)
    (hread : readLine convention g line = .ok h) :
    h.LedByFirst ∧ Readable convention line ∧
      h.productions =
        extendNew g.productions (lineProductions convention line) := by
  obtain ⟨hline, left, alternatives, hsplit, rfl⟩ :=
    (readLine_eq_ok_iff hg.validity_eq).mp hread
  have hproductions := productions_foldl_insert (g := g)
    (lineProductions convention line)
  have hadd := (addAll_eq_ok_iff hg.validity_eq).mpr ⟨hline.allowed, rfl⟩
  have hkept : Kept .contextFree _ := addAll_keeps
    (fun _ _ hbefore hfault => hbefore.insert hfault) hg.toKept hadd
  refine ⟨⟨hkept.adoptStart _, ?_⟩, hline, ?_⟩
  · obtain ⟨p, ps, hcons⟩ :=
      List.exists_cons_of_ne_nil (lineProductions_ne_nil convention hline.hasArrow)
    have hlhs := lhs_of_mem_lineProductions hsplit (hcons ▸ List.mem_cons_self)
    rw [adoptStart_eq, start_foldl_insert, hproductions, head?_extendNew, hcons,
      hg.start_eq, ← hlhs]
    cases hfirst : g.productions.head? with
    | none => rfl
    | some first =>
        have hhead := hg.admissible.head_of_contextFree hg.validity_eq first
          (List.mem_of_head? hfirst)
        obtain ⟨start, hstart⟩ := Option.isSome_iff_exists.mp hhead
        simp [hstart]
  · rw [adoptStart_eq]
    exact hproductions

/-! ## All lines -/

theorem LedByFirst.readLines (hg : g.LedByFirst)
    (hread : lines.foldlM (Grammar.readLine convention) g = .ok h) :
    h.LedByFirst ∧ (∀ line ∈ lines, Readable convention line) ∧
      h.productions =
        extendNew g.productions (lines.flatMap (lineProductions convention)) := by
  induction lines generalizing g with
  | nil =>
      cases hread
      exact ⟨hg, by simp, rfl⟩
  | cons line lines ih =>
      rw [List.foldlM_cons] at hread
      cases hline : Grammar.readLine convention g line with
      | error fault =>
          rw [hline] at hread
          cases hread
      | ok after =>
          rw [hline] at hread
          obtain ⟨hafter, hreadable, hproductions⟩ := hg.readLine hline
          obtain ⟨hh, hrest, hall⟩ := ih hafter hread
          refine ⟨hh, List.forall_mem_cons.mpr ⟨hreadable, hrest⟩, ?_⟩
          rw [hall, hproductions, List.flatMap_cons, extendNew, extendNew,
            extendNew, List.foldl_append]

theorem LedByFirst.exists_readLines (hg : g.LedByFirst)
    (hlines : ∀ line ∈ lines, Readable convention line) :
    ∃ h, lines.foldlM (Grammar.readLine convention) g = .ok h := by
  induction lines generalizing g with
  | nil => exact ⟨g, rfl⟩
  | cons line lines ih =>
      obtain ⟨hline, hrest⟩ := List.forall_mem_cons.mp hlines
      obtain ⟨⟨left, alternatives⟩, hsplit⟩ :=
        Option.isSome_iff_exists.mp hline.hasArrow
      have hread := (readLine_eq_ok_iff hg.validity_eq).mpr
        ⟨hline, left, alternatives, hsplit, rfl⟩
      rw [List.foldlM_cons, hread]
      exact ih (hg.readLine hread).1 hrest

variable {text : String}

/-- All lines of the text can be read, and their productions make up the
grammar. -/
structure ReadAs (convention : Convention) (text : String) (g : Grammar) :
    Prop where
  ledByFirst : g.LedByFirst
  readable : ∀ line ∈ contentLines text.toList, Readable convention line
  productions_eq : g.productions = extendNew []
    ((contentLines text.toList).flatMap (lineProductions convention))

theorem readAs_of_read (hread : read convention text = .ok g) :
    ReadAs convention text g := by
  obtain ⟨hg, hlines, hproductions⟩ := ledByFirst_empty.readLines hread
  exact ⟨hg, hlines, hproductions⟩

theorem exists_read
    (hlines : ∀ line ∈ contentLines text.toList, Readable convention line) :
    ∃ g, read convention text = .ok g :=
  ledByFirst_empty.exists_readLines hlines

end Grammar

end FormalGrammars
