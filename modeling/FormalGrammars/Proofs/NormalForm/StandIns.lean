import FormalGrammars.Proofs.NormalForm.HelperHeads
import FormalGrammars.Proofs.NormalForm.Supply

/-!
# Stand-ins stay

The directory names a variable for a form exactly when the variable alone
produces the form and nothing else.  A helper is minted for a form only when
there is no such variable and no helper for the form yet.  So what a request
gave once is given by every later request for the form, no form has two
helpers, and a stand-in gets no second production.
-/

namespace FormalGrammars

variable {g : Grammar} {rules : List Production}

/-! ## Sole producers -/

theorem eq_singleton_of_nodup {α : Type} {xs : List α} {x : α}
    (hxs : xs.Nodup) (hmem : ∀ y, y ∈ xs ↔ y = x) : xs = [x] := by
  rw [← List.perm_singleton,
    List.perm_ext_iff_of_nodup hxs (List.nodup_singleton x)]
  intro y
  rw [hmem, List.mem_singleton]

/-- The variable produces the form, no other variable does, and the variable
produces nothing else. -/
structure SoleProducer (rules : List Production) (s : Symbol) (form : Form) :
    Prop where
  rule_mem : .rule s form ∈ rules
  of_rhs : ∀ p ∈ rules, p.rhs = form → p = .rule s form
  of_head : ∀ p ∈ rules, p.head? = some s → p = .rule s form

/-- A rule for another form with another head changes nothing. -/
theorem SoleProducer.append {s other : Symbol} {form rest : Form}
    (hsole : SoleProducer rules s form) (hother : other ≠ s)
    (hrest : rest ≠ form) :
    SoleProducer (rules ++ [.rule other rest]) s form := by
  refine ⟨List.mem_append_left _ hsole.rule_mem, ?_, ?_⟩
  · intro p hp hrhs
    rcases List.mem_append.mp hp with hold | hnew
    · exact hsole.of_rhs p hold hrhs
    · rw [List.mem_singleton.mp hnew] at hrhs
      exact absurd hrhs hrest
  · intro p hp hhead
    rcases List.mem_append.mp hp with hold | hnew
    · exact hsole.of_head p hold hhead
    · rw [List.mem_singleton.mp hnew, Production.head?_eq_some_iff] at hhead
      exact absurd (List.cons.inj hhead.1).1 hother

namespace Directory

variable {d : Directory} {form : Form} {s : Symbol}

theorem nodup_producersOf_insert
    (hd : ∀ form, (d.producersOf form).Nodup) (p : Production) (form : Form) :
    ((d.insert p).producersOf form).Nodup := by
  unfold Directory.insert
  split
  next => exact hd form
  next head _ =>
    split
    next => exact hd form
    next =>
      unfold producersOf
      rw [OrderedMap.getD_alter]
      split
      next => exact nodup_insertNew (hd p.rhs) head
      next => exact hd form

theorem nodup_producersOf_ofGrammar (g : Grammar) (form : Form) :
    ((ofGrammar g).producersOf form).Nodup := by
  refine List.foldlRecOn (motive := fun d : Directory =>
    ∀ form, (d.producersOf form).Nodup) g.productions _ ?_ ?_ form
  · exact fun _ => List.nodup_nil
  · exact fun d hd p _ form => nodup_producersOf_insert hd p form

theorem soleProducer?_eq_some_iff :
    d.soleProducer? form = some s ↔ d.producersOf form = [s] := by
  unfold soleProducer?
  split
  next head hproducers => simp [hproducers]
  next hnot => simpa using fun heq => hnot s heq

theorem standIn?_eq_some_iff :
    d.standIn? form = some s ↔
      d.producersOf form = [s] ∧ d.counts.getD s 0 = 1 := by
  rw [standIn?, Option.filter_eq_some_iff, soleProducer?_eq_some_iff,
    beq_iff_eq]

theorem Describes.standIn?_iff (hd : d.Describes rules)
    (hrules : rules.Nodup) (hheads : ∀ p ∈ rules, p.hasHead = true)
    (hproducers : (d.producersOf form).Nodup) :
    d.standIn? form = some s ↔ SoleProducer rules s form := by
  constructor
  · intro hstandIn
    have hstands := hd.stands hstandIn
    have honly := (standIn?_eq_some_iff.mp hstandIn).1
    refine ⟨hstands.rule_mem, ?_, ?_⟩
    · intro p hp hrhs
      rcases Option.isSome_iff_exists.mp (hheads p hp) with ⟨head, hhead⟩
      have hrule := Production.eq_rule_of_head? hhead
      have hproduces : head ∈ d.producersOf form := by
        rw [hd.mem_producersOf_iff, ← hrhs, ← hrule]
        exact ⟨Grammar.isVar_of_head? hhead, hp⟩
      rw [honly, List.mem_singleton] at hproduces
      rw [hrule, hrhs, hproduces]
    · intro p hp hhead
      rw [Production.eq_rule_of_head? hhead, hstands.rhs_eq p hp hhead]
  · intro hsole
    rcases Option.isSome_iff_exists.mp (hheads _ hsole.rule_mem) with
      ⟨head, hhead⟩
    have hvar : s.isVar = true := by
      rcases Production.head?_eq_some_iff.mp hhead with ⟨hlhs, hvar⟩
      exact (List.cons.inj hlhs).1 ▸ hvar
    rw [standIn?_eq_some_iff, hd.count_eq]
    constructor
    · apply eq_singleton_of_nodup hproducers
      intro t
      rw [hd.mem_producersOf_iff]
      constructor
      · rintro ⟨_, hmem⟩
        have hrule := hsole.of_rhs _ hmem rfl
        exact (List.cons.inj (congrArg Production.lhs hrule)).1
      · rintro rfl
        exact ⟨hvar, hsole.rule_mem⟩
    · have hfilter : (rules.filter fun p => p.head? = some s) =
          [.rule s form] := by
        apply eq_singleton_of_nodup (hrules.filter _)
        intro p
        rw [List.mem_filter, decide_eq_true_eq]
        constructor
        · rintro ⟨hp, hhead⟩
          exact hsole.of_head p hp hhead
        · rintro rfl
          exact ⟨hsole.rule_mem, Production.head?_rule hvar form⟩
      rw [hfilter]
      rfl

end Directory

namespace Splitting

variable {c d : Splitting} {form : Form} {s : Symbol}

/-! ## What the requests keep -/

/-- The supply, with one entry for each producer and one helper for each
form. -/
structure Settled (g : Grammar) (c : Splitting) : Prop
    extends Supplied g c where
  producers_nodup : ∀ form, (c.directory.producersOf form).Nodup
  forms_nodup : (c.helpers.entries.map Prod.snd).Nodup

theorem Settled.of_alike (hc : c.Settled g) (halike : Alike c d) :
    d.Settled g := by
  refine ⟨hc.toSupplied.of_alike halike, ?_, ?_⟩
  · rcases halike with ⟨_, _, rfl⟩
    exact hc.producers_nodup
  · rcases halike with ⟨_, _, rfl⟩
    exact hc.forms_nodup

theorem settled_ofGrammar (hg : g.Consistent) (hfree : g.ContextFree)
    (naming : Naming) : (ofGrammar g naming).Settled g := by
  refine ⟨(complete_ofGrammar hg hfree naming).sound.toSupplied, ?_,
    List.nodup_nil⟩
  exact Directory.nodup_producersOf_ofGrammar g

theorem helperFor?_eq_none_iff :
    c.helperFor? form = none ↔ form ∉ c.helpers.entries.map Prod.snd := by
  unfold helperFor?
  rw [Option.map_eq_none_iff, List.find?_eq_none, List.mem_map]
  constructor
  · rintro hnone ⟨entry, hentry, hform⟩
    exact hnone entry hentry (decide_eq_true hform)
  · intro hnot entry hentry hform
    exact hnot ⟨entry, hentry, of_decide_eq_true hform⟩

theorem Settled.mint (hc : c.Settled g) (hnone : c.helperFor? form = none) :
    (c.mint form).2.Settled g := by
  rcases hc.toSupplied.mint form with ⟨hsupplied, hentries⟩
  refine ⟨hsupplied, ?_, ?_⟩
  · exact Directory.nodup_producersOf_insert hc.producers_nodup
      (.rule (c.mint form).1 form)
  · rw [hentries, List.map_append, List.map_singleton, List.nodup_append]
    refine ⟨hc.forms_nodup, List.nodup_singleton form, ?_⟩
    intro old hold new hnew heq
    rw [heq, List.mem_singleton.mp hnew] at hold
    exact helperFor?_eq_none_iff.mp hnone hold

/-- The stand-in of a form that is there without minting. -/
def known? (c : Splitting) (form : Form) : Option Symbol :=
  c.helperFor? form <|> c.directory.standIn? form

theorem known?_eq_none_iff :
    c.known? form = none ↔
      c.helperFor? form = none ∧ c.directory.standIn? form = none := by
  rw [known?, Option.orElse_eq_orElse, Option.orElse_eq_or,
    Option.or_eq_none_iff]

theorem known?_eq_some_iff :
    c.known? form = some s ↔ c.helperFor? form = some s ∨
      c.helperFor? form = none ∧ c.directory.standIn? form = some s := by
  rw [known?, Option.orElse_eq_orElse, Option.orElse_eq_or,
    Option.or_eq_some_iff]

theorem standIn_of_known? (hknown : c.known? form = some s) :
    c.standIn form = ((s, false), c) := by
  unfold known? at hknown
  unfold standIn
  rw [hknown]

theorem standIn_of_unknown (hunknown : c.known? form = none) :
    c.standIn form = (((c.mint form).1, true), (c.mint form).2) := by
  unfold known? at hunknown
  unfold standIn
  rw [hunknown]

theorem Settled.standIn (hc : c.Settled g) (form : Form) :
    (c.standIn form).2.Settled g := by
  cases hknown : c.known? form with
  | some s =>
      rw [standIn_of_known? hknown]
      exact hc
  | none =>
      rw [standIn_of_unknown hknown]
      exact hc.mint (known?_eq_none_iff.mp hknown).1

theorem Settled.threads {rs : List Request} (hc : c.Settled g)
    (hthreads : Threads c rs d) : d.Settled g :=
  hthreads.kept (fun halike hc => hc.of_alike halike)
    (fun _ form hc => hc.standIn form) hc

theorem Supplied.stands_of_known? (hc : c.Supplied g)
    (hknown : c.known? form = some s) : Stands (c.rules g) s form := by
  have hoffers := hc.offers form
  rw [standIn_of_known? hknown] at hoffers
  exact hoffers.stands

theorem Supplied.rules_nodup (hc : c.Supplied g) (hg : g.Consistent) :
    (c.rules g).Nodup := by
  unfold rules
  rw [List.nodup_append]
  refine ⟨hg.productions_nodup, ?_, ?_⟩
  · apply List.Nodup.of_map Production.lhs
    have hlhs := hc.helpers_nodup.map List.singleton_injective
    unfold OrderedMap.keys at hlhs
    rw [List.map_map] at hlhs ⊢
    exact hlhs
  · intro p hp q hq heq
    rcases List.mem_map.mp hq with ⟨entry, hentry, rfl⟩
    rw [heq] at hp
    exact hc.helpers_new _ hp entry.1 List.mem_cons_self
      (List.mem_map.mpr ⟨entry, hentry, rfl⟩)

theorem Supplied.name_taken (hc : c.Supplied g)
    (hrule : .rule s form ∈ c.rules g) : s.name ∈ c.names.taken := by
  rcases List.mem_append.mp hrule with hold | hhelper
  · exact hc.symbols_taken _ hold s List.mem_cons_self
  · rcases List.mem_map.mp hhelper with ⟨entry, hentry, heq⟩
    have hkey : entry.1 ∈ c.helpers.keys :=
      List.mem_map.mpr ⟨entry, hentry, rfl⟩
    rw [← (List.cons.inj (congrArg Production.lhs heq)).1]
    exact (hc.helpers_taken entry.1 hkey).2

theorem Supplied.hasHead (hc : c.Supplied g) (hfree : g.ContextFree) :
    ∀ p ∈ c.rules g, p.hasHead = true := by
  intro p hp
  rcases List.mem_append.mp hp with hold | hhelper
  · exact hfree p hold
  · rcases List.mem_map.mp hhelper with ⟨entry, hentry, rfl⟩
    rw [Production.hasHead, hc.head?_helperRule hentry]
    rfl

theorem Settled.standIn?_iff (hc : c.Settled g) (hg : g.Consistent)
    (hfree : g.ContextFree) :
    c.directory.standIn? form = some s ↔ SoleProducer (c.rules g) s form :=
  hc.directory.standIn?_iff (hc.toSupplied.rules_nodup hg)
    (hc.toSupplied.hasHead hfree) (hc.producers_nodup form)

theorem helperFor?_mint (hc : c.Supplied g) (rest form : Form) :
    (c.mint rest).2.helperFor? form = (c.helperFor? form).or
      (if rest = form then some (c.mint rest).1 else none) := by
  unfold helperFor?
  rw [(hc.mint rest).2, List.find?_append, Option.map_or, List.find?_singleton]
  by_cases hrest : rest = form
  · simp [hrest]
  · simp [hrest]

theorem Settled.known?_standIn (hc : c.Settled g) (form : Form) :
    (c.standIn form).2.known? form = some (c.standIn form).1.1 := by
  cases hknown : c.known? form with
  | some s =>
      rw [standIn_of_known? hknown]
      exact hknown
  | none =>
      rw [standIn_of_unknown hknown, known?_eq_some_iff,
        helperFor?_mint hc.toSupplied, if_pos rfl,
        (known?_eq_none_iff.mp hknown).1]
      exact .inl rfl

/-- A helper that is minted for another form takes nothing away: the variables
of the grammar that stand for a form have it as their own. -/
theorem Settled.known?_kept (hc : c.Settled g) (hg : g.Consistent)
    (hfree : g.ContextFree) (hknown : c.known? form = some s) (rest : Form) :
    (c.standIn rest).2.known? form = some s := by
  cases hrest : c.known? rest with
  | some other =>
      rw [standIn_of_known? hrest]
      exact hknown
  | none =>
      have hne : rest ≠ form := by
        rintro rfl
        rw [hrest] at hknown
        cases hknown
      rw [standIn_of_unknown hrest, known?_eq_some_iff,
        helperFor?_mint hc.toSupplied, if_neg hne, Option.or_none]
      refine (known?_eq_some_iff.mp hknown).imp_right fun hdirectory => ?_
      have hd := hc.mint (known?_eq_none_iff.mp hrest).1
      have hsole := (hc.standIn?_iff hg hfree).mp hdirectory.2
      refine ⟨hdirectory.1, (hd.standIn?_iff hg hfree).mpr ?_⟩
      rw [rules_mint (hc.toSupplied.mint rest).2]
      have htaken := hc.name_taken hsole.rule_mem
      exact hsole.append (ne_mint c rest htaken).symm hne

theorem Settled.known?_threads {rs : List Request} (hc : c.Settled g)
    (hg : g.Consistent) (hfree : g.ContextFree)
    (hknown : c.known? form = some s) (hthreads : Threads c rs d) :
    d.known? form = some s := by
  refine (hthreads.kept (motive := fun d =>
    d.Settled g ∧ d.known? form = some s) ?_ ?_ ⟨hc, hknown⟩).2
  · rintro c d halike ⟨hc, hknown⟩
    refine ⟨hc.of_alike halike, ?_⟩
    rcases halike with ⟨_, _, rfl⟩
    exact hknown
  · rintro c rest ⟨hc, hknown⟩
    exact ⟨hc.standIn rest, hc.known?_kept hg hfree hknown rest⟩

/-! ## A whole conversion -/

theorem Threads.exists_of_mem {rs : List Request} (hthreads : Threads c rs d)
    {r : Request} (hr : r ∈ rs) :
    ∃ before after, Threads c before r.state ∧ Threads r.after after d := by
  rcases List.append_of_mem hr with ⟨before, after, rfl⟩
  rcases threads_append_iff.mp hthreads with ⟨_, hbefore, halike, hafter⟩
  exact ⟨before, after, hbefore.alike halike, hafter⟩

/-- What was given for a form is what is there for it ever after. -/
theorem Settled.known?_given {rs : List Request} {r : Request}
    (hc : r.state.Settled g) (hg : g.Consistent) (hfree : g.ContextFree)
    (hthreads : Threads r.after rs d) : d.known? r.form = some r.given :=
  (hc.standIn r.form).known?_threads hg hfree (hc.known?_standIn r.form)
    hthreads

theorem Settled.pairwise_again {rs : List Request} (hc : c.Settled g)
    (hg : g.Consistent) (hfree : g.ContextFree) (hthreads : Threads c rs d) :
    rs.Pairwise fun earlier later => later.form = earlier.form →
      later.state.standIn later.form =
        ((earlier.given, false), later.state) := by
  induction rs generalizing c with
  | nil => exact .nil
  | cons r rs ih =>
      rcases hthreads with ⟨halike, hrest⟩
      have hr := hc.of_alike halike
      refine .cons ?_ (ih (hr.standIn r.form) hrest)
      intro later hlater hform
      rcases hrest.exists_of_mem hlater with ⟨before, _, hbefore, _⟩
      rw [hform]
      exact standIn_of_known? (hr.known?_given hg hfree hbefore)

/-- The state at the end of a conversion, after these requests. -/
structure KeepsStandIns (g : Grammar) (rs : List Request) (last : Splitting) :
    Prop where
  stands : ∀ r ∈ rs, Stands (r.after.rules g) r.given r.form ∧
    Stands (last.rules g) r.given r.form
  again : rs.Pairwise fun earlier later => later.form = earlier.form →
    later.state.standIn later.form = ((earlier.given, false), later.state)
  again_last : ∀ r ∈ rs, last.standIn r.form = ((r.given, false), last)
  helpers_nodup : last.helpers.keys.Nodup
  expansions_nodup : (last.helpers.entries.map Prod.snd).Nodup
  output_nodup : last.output.Nodup
  existsUnique : ∀ helper ∈ last.helpers.keys,
    ∃! q, q ∈ last.output ∧ q.head? = some helper
  standIn?_iff : ∀ c, c = last ∨ c ∈ rs.map Request.state → ∀ form s,
    c.directory.standIn? form = some s ↔ SoleProducer (c.rules g) s form

/-- Productions of the grammar may be split in any order, and more than once:
the splits succeed, and a stand-in that was given once keeps its place. -/
theorem foldlM_split_keepsStandIns (hg : g.Consistent) (hfree : g.ContextFree)
    (hlambda : ∀ p ∈ g.productions, p.isLambda = false)
    (hunit : ∀ p ∈ g.productions, p.isUnit = false) (naming : Naming)
    {calls : List Production} (hcalls : ∀ p ∈ calls, p ∈ g.productions) :
    let first := ofGrammar g naming
    ∃ last, calls.foldlM (fun c p => (c.split p).map Prod.snd) first =
        .ok last ∧
      Threads first (first.requestsOfAll calls) last ∧
      KeepsStandIns g (first.requestsOfAll calls) last := by
  intro first
  have hsplittable : ∀ p ∈ calls,
      p.hasHead = true ∧ p.isLambda = false ∧ p.isUnit = false := by
    intro p hp
    have hmem := hcalls p hp
    exact ⟨hfree p hmem, hlambda p hmem, hunit p hmem⟩
  rcases exists_foldlM_split hsplittable first with ⟨last, hlast⟩
  have hthreads := threads_foldlM hlast
  have hfirst : first.Settled g := settled_ofGrammar hg hfree naming
  have hstate : ∀ r ∈ first.requestsOfAll calls, r.state.Settled g := by
    intro r hr
    rcases hthreads.exists_of_mem hr with ⟨_, _, hbefore, _⟩
    exact hfirst.threads hbefore
  have hknown : ∀ r ∈ first.requestsOfAll calls,
      last.known? r.form = some r.given := by
    intro r hr
    rcases hthreads.exists_of_mem hr with ⟨_, _, _, hafter⟩
    exact (hstate r hr).known?_given hg hfree hafter
  have hsettled := hfirst.threads hthreads
  have heach := (oneEach_ofGrammar hg hfree naming).foldlM hfree hcalls hlast
  refine ⟨last, hlast, hthreads, ?_⟩
  constructor
  · intro r hr
    have hafter := (hstate r hr).toSupplied.offers r.form
    exact ⟨hafter.stands, hsettled.stands_of_known? (hknown r hr)⟩
  · exact hfirst.pairwise_again hg hfree hthreads
  · exact fun r hr => standIn_of_known? (hknown r hr)
  · exact hsettled.helpers_nodup
  · exact hsettled.forms_nodup
  · exact heach.output_nodup
  · exact heach.existsUnique
  · rintro c (rfl | hc) form s
    · exact hsettled.standIn?_iff hg hfree
    · rcases List.mem_map.mp hc with ⟨r, hr, rfl⟩
      exact (hstate r hr).standIn?_iff hg hfree

/-- `S → aSb | ABC`, `A → aBC`, `B → c`, `C → c` and `D → a`, where `D` stands
for its letter, and neither `B` nor `C` does. -/
def sharedRests : Grammar :=
  Grammar.withProductions { start := some (.var "S") }
    [.rule (.var "S") [.term "a", .var "S", .term "b"],
      .rule (.var "S") [.var "A", .var "B", .var "C"],
      .rule (.var "A") [.term "a", .var "B", .var "C"],
      .rule (.var "B") [.term "c"],
      .rule (.var "C") [.term "c"],
      .rule (.var "D") [.term "a"]]

theorem keepsStandIns_sharedRests :
    let first := ofGrammar sharedRests .numbered
    let calls : List Production :=
      [.rule (.var "A") [.term "a", .var "B", .var "C"],
        .rule (.var "S") [.var "A", .var "B", .var "C"],
        .rule (.var "S") [.term "a", .var "S", .term "b"],
        .rule (.var "A") [.term "a", .var "B", .var "C"]]
    (first.requestsOfAll calls).map Request.given =
        [.var "D", .var "H1", .var "H1", .var "D", .var "H2", .var "H3",
          .var "D", .var "H1"] ∧
      ∃ last, calls.foldlM (fun c p => (c.split p).map Prod.snd) first =
          .ok last ∧
        KeepsStandIns sharedRests (first.requestsOfAll calls) last := by
  intro first calls
  have hgiven : (first.requestsOfAll calls).map Request.given =
      [.var "D", .var "H1", .var "H1", .var "D", .var "H2", .var "H3",
        .var "D", .var "H1"] := by decide +kernel
  have hfree : sharedRests.ContextFree := by
    unfold Grammar.ContextFree
    decide +kernel
  have hlambda : ∀ p ∈ sharedRests.productions, p.isLambda = false := by
    decide +kernel
  have hunit : ∀ p ∈ sharedRests.productions, p.isUnit = false := by
    decide +kernel
  have hcalls : ∀ p ∈ calls, p ∈ sharedRests.productions := by
    decide +kernel
  rcases foldlM_split_keepsStandIns (Grammar.consistent_of_start rfl _) hfree
    hlambda hunit .numbered hcalls with ⟨last, hlast, _, hkeeps⟩
  exact ⟨hgiven, last, hlast, hkeeps⟩

end Splitting

end FormalGrammars
