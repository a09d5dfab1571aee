import FormalGrammars.NormalForm.Chomsky
import FormalGrammars.Proofs.NormalForm.Requests

/-!
# Names and helpers in the course of a splitting

A splitting changes its source of names and its helpers in one way only: it
mints.  So what one mint keeps of the two, a request for a stand-in keeps, and
so does every sequence of requests, up to the conversion of a whole grammar.  The directory, the origins and the output
do not matter here, and neither does the tally of the grammar.

No production is refused but lambda and unit productions and those without a
head, so without them the splitting always comes to its end, and a conversion
can only fail for want of letters.
-/

namespace FormalGrammars

variable {g : Grammar} {start : Symbol}

namespace NameSource

/-- The names are numbered and none was missing. -/
structure Endless (source : NameSource) : Prop where
  naming_eq : source.naming = .numbered
  missing_eq : source.missing = 0

theorem endless_ofGrammar (g : Grammar) : (ofGrammar g .numbered).Endless :=
  ⟨rfl, rfl⟩

theorem Endless.mint {source : NameSource} (hsource : source.Endless) :
    source.mint.2.Endless := by
  unfold NameSource.mint
  rw [hsource.naming_eq]
  exact ⟨hsource.naming_eq, hsource.missing_eq⟩

end NameSource

namespace Splitting

variable {c d : Splitting} {motive : NameSource → OrderedMap Symbol Form → Prop}

section Supply

variable (hmint : ∀ (c : Splitting) (form : Form), motive c.names c.helpers →
  motive (c.mint form).2.names (c.mint form).2.helpers)

include hmint

theorem supply_standIn (hc : motive c.names c.helpers) (form : Form) :
    motive (c.standIn form).2.names (c.standIn form).2.helpers := by
  unfold standIn
  split
  next => exact hc
  next => exact hmint c form hc

theorem supply_threads (hc : motive c.names c.helpers) {rs : List Request}
    (hthreads : Threads c rs d) : motive d.names d.helpers := by
  apply hthreads.kept (motive := fun c => motive c.names c.helpers) _ _ hc
  · rintro c d ⟨_, _, rfl⟩ hc
    exact hc
  · intro c form hc
    exact supply_standIn hmint hc form

theorem supply_replaceTerminals (hc : motive c.names c.helpers) (form : Form) :
    motive (c.replaceTerminals form).2.names
      (c.replaceTerminals form).2.helpers :=
  supply_threads hmint hc (threads_replaceTerminals c form)

theorem supply_cutIntoPairs (hc : motive c.names c.helpers)
    (source? : Option Production) (head : Symbol) (heads : Form) :
    motive (c.cutIntoPairs source? head heads).2.names
      (c.cutIntoPairs source? head heads).2.helpers :=
  supply_threads hmint hc (threads_cutIntoPairs c source? head heads)

theorem supply_foldlM (hc : motive c.names c.helpers) {ps : List Production}
    (hfold : ps.foldlM (fun c p => (c.split p).map Prod.snd) c = .ok d) :
    motive d.names d.helpers :=
  supply_threads hmint hc (threads_foldlM hfold)

end Supply

/-! ## Numbered names do not run out -/

theorem missing_eq_zero_of_numbered {ps : List Production}
    (hfold : ps.foldlM (fun c p => (c.split p).map Prod.snd)
      (ofGrammar g .numbered) = .ok d) : d.names.missing = 0 := by
  have hendless : d.names.Endless := by
    apply supply_foldlM (motive := fun names _ => names.Endless) _
      (NameSource.endless_ofGrammar g) hfold
    intro c form hnames
    exact hnames.mint
  exact hendless.missing_eq

/-! ## Splitting comes to its end -/

/-- Only lambda and unit productions, and those without a head, are refused. -/
theorem exists_split {p : Production} (c : Splitting) (hhead : p.hasHead = true)
    (hlambda : p.isLambda = false) (hunit : p.isUnit = false) :
    ∃ out, c.split p = .ok out := by
  rcases Option.isSome_iff_exists.mp hhead with ⟨head, hsome⟩
  unfold split Production.shape
  rw [hhead, hlambda, hunit, hsome]
  cases p.isChomsky with
  | true => exact ⟨_, rfl⟩
  | false =>
      cases p.hasTerminalOnRight with
      | true => exact ⟨_, rfl⟩
      | false => exact ⟨_, rfl⟩

theorem exists_foldlM_split {ps : List Production}
    (hps : ∀ p ∈ ps, p.hasHead = true ∧ p.isLambda = false ∧ p.isUnit = false)
    (c : Splitting) :
    ∃ last, ps.foldlM (fun c p => (c.split p).map Prod.snd) c = .ok last := by
  induction ps generalizing c with
  | nil => exact ⟨c, rfl⟩
  | cons p ps ih =>
      rcases hps p List.mem_cons_self with ⟨hhead, hlambda, hunit⟩
      rcases exists_split c hhead hlambda hunit with ⟨out, hsplit⟩
      rw [List.foldlM_cons, hsplit]
      exact ih (fun q hq => hps q (List.mem_cons_of_mem p hq)) out.2

theorem exists_finish {last : Splitting} (hmissing : last.names.missing = 0)
    (template : Grammar) :
    ∃ c, last.finish template = .ok c ∧ c.helpers = last.helpers :=
  ⟨_, finish_eq_ok_iff.mpr ⟨hmissing, rfl⟩, rfl⟩

end Splitting

theorem Grammar.toChomskyForm_eq_finish
    (hstart : g.requireContextFree = .ok start) {naming : Naming}
    {last : Splitting}
    (hlast : g.productions.foldlM (fun c p => (c.split p).map Prod.snd)
      (Splitting.ofGrammar g naming) = .ok last) :
    g.toChomskyForm naming = last.finish g := by
  unfold Grammar.toChomskyForm
  rw [hstart]
  simp only [bind, Except.bind]
  rw [hlast]

theorem Grammar.exists_last_splitting
    (hstart : g.requireContextFree = .ok start)
    (hlambda : ∀ p ∈ g.productions, p.isLambda = false)
    (hunit : ∀ p ∈ g.productions, p.isUnit = false) (naming : Naming) :
    ∃ last, g.productions.foldlM (fun c p => (c.split p).map Prod.snd)
      (Splitting.ofGrammar g naming) = .ok last := by
  have hfree := (Grammar.requireContextFree_eq_ok_iff.mp hstart).2
  apply Splitting.exists_foldlM_split
  intro p hp
  exact ⟨hfree p hp, hlambda p hp, hunit p hp⟩

end FormalGrammars
