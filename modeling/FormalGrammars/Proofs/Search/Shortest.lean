import FormalGrammars.Proofs.Search.Levels

/-!
# A derivation that is found is a shortest one

A search that may have been stopped has a part of the history of the free
search.  No form stands twice in that, and it goes level by level, so this is
true of the part.  When the search has accepted it has all of the history, and
the level of the target there is the number of steps that were needed at least.
-/

namespace FormalGrammars

/-! ## Parts of a history -/

namespace History

variable {g : Grammar} {start : Symbol} {h k : History} {i j : Nat}

theorem form_ne_of_lt (hdistinct : (h.entries.map Entry.form).Nodup)
    (hlt : i < j) (hj : j < h.size) : h.form i ≠ h.form j := by
  intro hsame
  rcases exists_entry (Nat.lt_trans hlt hj) with ⟨first, hfirst⟩
  rcases exists_entry hj with ⟨second, hsecond⟩
  rw [form_of_entry hfirst, form_of_entry hsecond] at hsame
  have hbound : i < (h.entries.map Entry.form).length := by
    rw [List.length_map]
    exact Nat.lt_trans hlt hj
  have heq : i = j := by
    apply (List.getElem?_inj hbound hdistinct).mp
    rw [List.getElem?_map, List.getElem?_map]
    change (h.entry? i).map Entry.form = (h.entry? j).map Entry.form
    rw [hfirst, hsecond, Option.map_some, Option.map_some, hsame]
  exact absurd heq (Nat.ne_of_lt hlt)

theorem ByLevel.of_growsTo (hlevels : k.ByLevel) (hgrows : h.GrowsTo k) :
    h.ByLevel := by
  constructor
  · intro number parent step horigin
    have hlt : number < h.size := by
      by_contra hge
      rw [History.entry?, List.getElem?_eq_none (Nat.le_of_not_lt hge)] at horigin
      cases horigin
    rw [← hgrows.entry_eq hlt] at horigin
    rcases hlevels.depth_made number parent step horigin with ⟨hless, hdepth⟩
    rw [hgrows.depth_eq hlt, hgrows.depth_eq (Nat.lt_trans hless hlt)] at hdepth
    exact ⟨hless, hdepth⟩
  · intro i j hij hj
    have hmono := hlevels.depth_mono i j hij
      (Nat.lt_of_lt_of_le hj hgrows.size_le)
    rwa [hgrows.depth_eq hj, hgrows.depth_eq (Nat.lt_of_le_of_lt hij hj)]
      at hmono

end History

/-! ## The search -/

namespace Search

variable {g : Grammar} {start : Symbol} {target : Form}
  {search first : Search}

/-- The free search that one keeps to, after as many steps. -/
theorem Reached.exists_free (hg : g.Consistent)
    (hlhs : ∀ p ∈ g.productions, p.lhs ≠ []) (hstart : g.start = some start)
    {schedule : Schedule}
    (hfirst : Search.start g target schedule = .ok first)
    (hsound : first.Sound g start target) (hreached : Reached first search) :
    ∃ free : Search, search.InStep free ∧ free.Leveled g start target ∧
      free.Selective (.ofGrammar g target) := by
  rcases exists_start_fresh hstart target schedule with
    ⟨_, hsame, hselective, _, hunhindered⟩
  cases hfirst.symm.trans hsame
  rcases hreached.exists_reachedIn with ⟨count, hreached⟩
  have halike : first.Alike first :=
    ⟨hunhindered.not_cancelled, rfl, rfl, rfl, rfl⟩
  refine ⟨_, inStep_of_reachedIn hreached (.inl halike), ?_, ?_⟩
  · exact stepTimes_induct (fun _ hsearch => hsearch.step hg hlhs .always) _
      (leveled_start hfirst hsound)
  · exact stepTimes_induct (fun _ hsearch => hsearch.step .always) _ hselective

/-- At every moment the forms of the history are distinct and stand level by
level, where the level of a form is the number of the steps to it.  A search
that accepts has found a derivation that no other one is shorter than, in
whatever order it rewrites. -/
theorem derivation_shortest (hg : g.Consistent)
    (hlhs : ∀ p ∈ g.productions, p.lhs ≠ []) (hstart : g.start = some start)
    (target : Form) (schedule : Schedule) :
    ∃ first, Search.start g target schedule = .ok first ∧
      ∀ search, Reached first search →
        (∀ i j, i < j → j < search.history.size →
          search.history.form i ≠ search.history.form j ∧
            search.history.depth i ≤ search.history.depth j) ∧
        (∀ number < search.history.size,
          (search.history.stepsTo number).length =
            search.history.depth number) ∧
        ∀ number, search.status = .accepted number →
          ∃ steps, search.derivation? = some steps ∧
            g.replay steps = .ok target ∧
            ∀ count, g.DerivesIn count [start] target →
              steps.length ≤ count := by
  rcases start_eq_ok hg hstart target schedule with ⟨first, hfirst, hsound⟩
  refine ⟨first, hfirst, ?_⟩
  intro search hreached
  rcases hreached.exists_free hg hlhs hstart hfirst hsound with
    ⟨free, hinStep, hleveled, hselective⟩
  have hsearch := hreached.sound hg hlhs hstart hsound
  have hlevels := hleveled.byLevel.of_growsTo hinStep.growsTo
  have hdistinct : (search.history.entries.map History.Entry.form).Nodup :=
    hselective.distinct.sublist (hinStep.growsTo.entries.map _).sublist
  refine ⟨?_, ?_, ?_⟩
  · intro i j hlt hj
    exact ⟨History.form_ne_of_lt hdistinct hlt hj,
      hlevels.depth_mono i j (Nat.le_of_lt hlt) hj⟩
  · intro number hlt
    exact hlevels.length_stepsTo hsearch.records hlt
  · intro number hstatus
    have hended := hsearch.ended_of_isFinal (by rw [hstatus]; rfl)
    rcases hended.accepted number hstatus with ⟨_, hlt, hform⟩
    have hreplay := hended.records.replay hstart hlt
    rw [hform] at hreplay
    refine ⟨search.history.stepsTo number, ?_, hreplay, ?_⟩
    · rw [derivation?, hstatus]
    · intro count hderives
      have halike := hinStep.alike (by rw [hstatus]; simp)
      have haccepted := halike.status_eq.symm.trans hstatus
      rw [hlevels.length_stepsTo hsearch.records hlt, halike.history_eq]
      exact hleveled.depth_le haccepted hderives

/-- `S → T | aV`, `T → U`, `U → ab` and `aV → ab`, with a detour that begins
first. -/
def detour : Grammar :=
  Grammar.withProductions
    { validity := .unrestricted, start := some (.var "S") }
    [.rule (.var "S") [.var "T"],
      .rule (.var "S") [.term "a", .var "V"],
      .rule (.var "T") [.var "U"],
      .rule (.var "U") [.term "a", .term "b"],
      ⟨[.term "a", .var "V"], [.term "a", .term "b"]⟩]

theorem derivation_shortest_detour :
    (∀ p ∈ detour.productions, p.lhs ≠ []) ∧
      detour.start = some (.var "S") ∧
      ∃ first search, Search.start detour [.term "a", .term "b"] {} =
          .ok first ∧
        Reached first search ∧ search.status = .accepted 4 ∧
        ∃ steps, search.derivation? = some steps ∧ steps.length = 2 ∧
          ∀ count, detour.DerivesIn count [.var "S"] [.term "a", .term "b"] →
            2 ≤ count := by
  have hlhs : ∀ p ∈ detour.productions, p.lhs ≠ [] := by
    decide
  rcases derivation_shortest (Grammar.consistent_of_start rfl _) (g := detour)
    hlhs rfl [.term "a", .term "b"] {} with ⟨first, hfirst, hall⟩
  have hrun : ∃ built, Search.start detour [.term "a", .term "b"] {} =
        .ok built ∧
      (stepTimes (Search.step .always) 3 built).status = .accepted 4 ∧
      4 < (stepTimes (Search.step .always) 3 built).history.size ∧
      (stepTimes (Search.step .always) 3 built).history.depth 4 = 2 :=
    ⟨_, rfl, by decide +kernel⟩
  rcases hrun with ⟨built, hbuilt, haccepted, hsize, hdepth⟩
  rw [hfirst] at hbuilt
  cases hbuilt
  have hreached : Reached first (stepTimes (Search.step .always) 3 first) :=
    stepTimes_induct (fun _ hsearch => hsearch.step .always) 3 .now
  rcases hall _ hreached with ⟨_, hlengths, hshortest⟩
  rcases hshortest 4 haccepted with ⟨steps, hsteps, _, hleast⟩
  have hlength : steps.length = 2 := by
    rw [derivation?, haccepted, Option.some.injEq] at hsteps
    rw [← hsteps, hlengths 4 hsize, hdepth]
  rw [hlength] at hleast
  exact ⟨hlhs, rfl, first, _, hfirst, hreached, haccepted, steps, hsteps,
    hlength, hleast⟩

end Search

end FormalGrammars
