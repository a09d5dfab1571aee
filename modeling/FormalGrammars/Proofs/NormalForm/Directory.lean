import FormalGrammars.NormalForm.Directory
import FormalGrammars.Proofs.Yield

/-!
# Stand-ins for forms

A variable stands for a form among some rules when it produces the form there
and nothing else.  It keeps doing so when rules of new variables come in.  A
directory that was filled with the rules one after the other lists their heads
under their right sides and counts the rules of every head, so the stand-ins
that it names do stand for their forms.
-/

namespace FormalGrammars

variable {rules : List Production}

/-! ## Stand-ins -/

/-- The variable produces the form and nothing else. -/
structure Stands (rules : List Production) (s : Symbol) (form : Form) : Prop where
  isVar : s.isVar = true
  rule_mem : .rule s form ∈ rules
  rhs_eq : ∀ p ∈ rules, p.head? = some s → p.rhs = form

/-- More rules, but none of the heads that there are. -/
structure Extends (rules more : List Production) : Prop where
  subset : ∀ p ∈ rules, p ∈ more
  new_head : ∀ p ∈ more, p ∈ rules ∨ ∀ q ∈ rules, p.head? ≠ q.head?

theorem Stands.extend {more : List Production} {s : Symbol} {form : Form}
    (hstands : Stands rules s form) (hmore : Extends rules more) :
    Stands more s form := by
  refine ⟨hstands.isVar, hmore.subset _ hstands.rule_mem, fun p hp hhead => ?_⟩
  rcases hmore.new_head p hp with hold | hnew
  · exact hstands.rhs_eq p hold hhead
  · refine absurd ?_ (hnew _ hstands.rule_mem)
    rw [hhead, Production.head?_rule hstands.isVar]

namespace Directory

variable {d : Directory}

/-! ## What a directory tells -/

structure Describes (d : Directory) (rules : List Production) : Prop where
  mem_producersOf_iff : ∀ form s, s ∈ d.producersOf form ↔
    s.isVar = true ∧ Production.rule s form ∈ rules
  count_eq : ∀ s, d.counts.getD s 0 =
    (rules.filter fun p => p.head? = some s).length

theorem describes_empty : Describes {} [] := by
  constructor
  · intro form s
    simp [producersOf, OrderedMap.getD, OrderedMap.get?]
  · intro s
    simp [OrderedMap.getD, OrderedMap.get?]

theorem Describes.contains_iff (hd : d.Describes rules) {p : Production}
    {head : Symbol} (hhead : p.head? = some head) :
    d.contains p = true ↔ p ∈ rules := by
  unfold contains
  rw [hhead, Option.any_some, List.contains_iff_mem, hd.mem_producersOf_iff,
    ← Production.eq_rule_of_head? hhead]
  exact and_iff_right (Grammar.isVar_of_head? hhead)

theorem Describes.insert (hd : d.Describes rules) {p : Production}
    {head : Symbol} (hhead : p.head? = some head) (hnew : p ∉ rules) :
    (d.insert p).Describes (rules ++ [p]) := by
  have hmissing : ¬ d.contains p = true := fun hcontains =>
    hnew ((hd.contains_iff hhead).mp hcontains)
  unfold Directory.insert
  rw [hhead]
  simp only [if_neg hmissing]
  constructor
  · intro form s
    unfold producersOf
    rw [OrderedMap.getD_alter, List.mem_append, List.mem_singleton]
    have hold := hd.mem_producersOf_iff form s
    unfold producersOf at hold
    split
    next heq =>
      subst heq
      rw [mem_insertNew, hold, and_or_left]
      refine or_congr_right ⟨?_, ?_⟩
      · rintro rfl
        exact ⟨Grammar.isVar_of_head? hhead,
          (Production.eq_rule_of_head? hhead).symm⟩
      · rintro ⟨hvar, heq⟩
        rw [← heq, Production.head?_rule hvar] at hhead
        exact Option.some.inj hhead
    next hne =>
      rw [hold]
      refine and_congr_right fun _ => ?_
      exact ⟨.inl, fun hmem => hmem.resolve_right fun heq => hne (heq ▸ rfl)⟩
  · intro s
    rw [OrderedMap.getD_alter, List.filter_append, List.length_append,
      ← hd.count_eq]
    by_cases heq : s = head
    · subst heq
      simp [hhead, hd.count_eq]
    · simp [heq, hhead, Ne.symm heq]

theorem Describes.foldl_insert (hd : d.Describes rules) {ps : List Production}
    (hheads : ∀ p ∈ ps, p.hasHead = true) (hnodup : (rules ++ ps).Nodup) :
    (ps.foldl Directory.insert d).Describes (rules ++ ps) := by
  induction ps generalizing d rules with
  | nil =>
      rw [List.append_nil]
      exact hd
  | cons p ps ih =>
      obtain ⟨head, hhead⟩ :=
        Option.isSome_iff_exists.mp (hheads p List.mem_cons_self)
      have hnew : p ∉ rules := fun hmem =>
        (List.nodup_append.mp hnodup).2.2 p hmem p List.mem_cons_self rfl
      have hrest := ih (hd.insert hhead hnew)
        (fun q hq => hheads q (List.mem_cons_of_mem p hq))
        (by simpa using hnodup)
      simpa using hrest

theorem describes_ofGrammar {g : Grammar} (hg : g.ContextFree)
    (hnodup : g.productions.Nodup) : (ofGrammar g).Describes g.productions :=
  describes_empty.foldl_insert hg (by simpa using hnodup)

/-- The stand-in of a form has one rule, and that rule produces the form. -/
theorem Describes.stands (hd : d.Describes rules) {form : Form} {s : Symbol}
    (hstandIn : d.standIn? form = some s) : Stands rules s form := by
  obtain ⟨hsole, hcount⟩ := Option.filter_eq_some_iff.mp hstandIn
  have hproducer : s ∈ d.producersOf form := by
    unfold soleProducer? at hsole
    split at hsole
    next head hproducers =>
      rw [hproducers, Option.some.inj hsole]
      exact List.mem_singleton.mpr rfl
    next => cases hsole
  obtain ⟨hvar, hmem⟩ := (hd.mem_producersOf_iff form s).mp hproducer
  refine ⟨hvar, hmem, fun p hp hhead => ?_⟩
  rw [beq_iff_eq, hd.count_eq, List.length_eq_one_iff] at hcount
  obtain ⟨only, honly⟩ := hcount
  have hrule : Production.rule s form = only := by
    rw [← List.mem_singleton, ← honly, List.mem_filter]
    exact ⟨hmem, decide_eq_true (Production.head?_rule hvar form)⟩
  have hsame : p = only := by
    rw [← List.mem_singleton, ← honly, List.mem_filter]
    exact ⟨hp, decide_eq_true hhead⟩
  rw [hsame, ← hrule]
  rfl

end Directory

end FormalGrammars
