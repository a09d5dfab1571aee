import FormalGrammars.Proofs.NormalForm.Requests

/-!
# Each helper heads one production

The heads of the productions that come out of a split are the helpers that were
minted for it and the head of the production that is split, each of them once.
A helper is new when it is minted, and no later split puts out a production of
it.  So after any sequence of splits each helper heads exactly one production
of the output.
-/

namespace FormalGrammars

namespace Splitting

variable {g : Grammar} {c d e : Splitting} {form : Form} {s : Symbol}

/-! ## The heads of what comes out -/

/-- These helpers are minted on the way from one state to the other. -/
structure Mints (g : Grammar) (c d : Splitting) (minted : List Symbol) :
    Prop where
  supplied : d.Supplied g
  keys_eq : d.helpers.keys = c.helpers.keys ++ minted

theorem Supplied.mints_alike (hc : c.Supplied g) (halike : Alike c d) :
    Mints g c d [] := by
  refine ⟨hc.of_alike halike, ?_⟩
  rcases halike with ⟨_, _, rfl⟩
  exact (List.append_nil _).symm

theorem Offers.mints {fresh : Bool} (hoffers : Offers g c form s fresh d) :
    Mints g c d (if fresh then [s] else []) := by
  refine ⟨hoffers.supplied, ?_⟩
  unfold OrderedMap.keys
  rw [hoffers.entries_eq, List.map_append]
  cases fresh <;> rfl

theorem Mints.trans {minted more : List Symbol} (hfirst : Mints g c d minted)
    (hsecond : Mints g d e more) : Mints g c e (minted ++ more) := by
  refine ⟨hsecond.supplied, ?_⟩
  rw [hsecond.keys_eq, hfirst.keys_eq, List.append_assoc]

theorem Mints.alike {minted : List Symbol} (hmints : Mints g c d minted)
    (halike : Alike d e) : Mints g c e minted := by
  have hboth := hmints.trans (hmints.supplied.mints_alike halike)
  rwa [List.append_nil] at hboth

theorem Mints.not_mem_keys {minted : List Symbol} (hmints : Mints g c d minted)
    (hs : s ∈ minted) : s ∉ c.helpers.keys := by
  have hnodup := hmints.supplied.helpers_nodup
  rw [hmints.keys_eq] at hnodup
  exact fun hold => (List.nodup_append.mp hnodup).2.2 s hold s hs rfl

/-- The heads of what comes out are the new helpers. -/
theorem heads_replaceTerminals (hc : c.Supplied g) (form : Form) :
    let out := c.replaceTerminals form
    ∃ minted, Mints g c out.2 minted ∧
      out.1.1.map Production.head? = minted.map some := by
  induction form generalizing c with
  | nil => exact ⟨[], hc.mints_alike (.refl c), rfl⟩
  | cons s form ih =>
      unfold Splitting.replaceTerminals
      split
      next => exact ih hc
      next =>
        have hoffers := hc.offers [s]
        generalize c.standIn [s] = out at hoffers
        rcases out with ⟨⟨helper, fresh⟩, d⟩
        rcases ih hoffers.supplied with ⟨minted, hmints, hheads⟩
        have hboth := hoffers.mints.trans hmints
        cases fresh with
        | false => exact ⟨minted, hboth, hheads⟩
        | true =>
            refine ⟨helper :: minted, hboth, ?_⟩
            rw [List.map_cons, ← hheads,
              ← Production.head?_rule hoffers.stands.isVar [s]]
            rfl

theorem Supplied.heads_short (hc : c.Supplied g) (source? : Option Production)
    {head : Symbol} (hhead : head.isVar = true) (rhs : Form) :
    ∃ minted, Mints g c (c.noteOrigin source? (.rule head rhs)) minted ∧
      [Production.rule head rhs].map Production.head? =
        (head :: minted).map some := by
  refine ⟨[], hc.mints_alike (alike_noteOrigin c source? _), ?_⟩
  rw [List.map_singleton, Production.head?_rule hhead]
  rfl

/-- The heads of what comes out are the given head and the new helpers. -/
theorem heads_cutIntoPairs (hc : c.Supplied g) (source? : Option Production)
    {head : Symbol} (hhead : head.isVar = true) (heads : Form) :
    let out := c.cutIntoPairs source? head heads
    ∃ minted, Mints g c out.2 minted ∧
      out.1.map Production.head? = (head :: minted).map some := by
  induction heads generalizing c source? head with
  | nil => exact hc.heads_short source? hhead _
  | cons first rest ih =>
      match rest with
      | [] => exact hc.heads_short source? hhead _
      | [_] => exact hc.heads_short source? hhead _
      | second :: third :: rest =>
          have hoffers := hc.offers (second :: third :: rest)
          unfold Splitting.cutIntoPairs
          generalize c.standIn (second :: third :: rest) = out at hoffers
          rcases out with ⟨⟨helper, fresh⟩, d⟩
          have hnoted := hoffers.mints.alike
            (alike_noteOrigin d source? (.rule head [first, helper]))
          have hfirst := Production.head?_rule hhead [first, helper]
          cases fresh with
          | false =>
              exact ⟨[], hnoted, congrArg (· :: []) hfirst⟩
          | true =>
              rcases ih hnoted.supplied none hoffers.stands.isVar with
                ⟨minted, hmints, hheads⟩
              refine ⟨helper :: minted, hnoted.trans hmints, ?_⟩
              rw [List.map_cons, ← hheads, ← hfirst]
              rfl

/-- The heads of what comes out of a split are the head of the production,
between helpers for terminals and helpers for rests. -/
theorem heads_split (hc : c.Supplied g) {p : Production} {head : Symbol}
    {qs : List Production} (hhead : p.head? = some head)
    (hsplit : c.split p = .ok (qs, d)) :
    ∃ before after, Mints g c d (before ++ after) ∧
      qs.map Production.head? = (before ++ head :: after).map some := by
  rcases split_cases hhead hsplit with ⟨_, rfl, rfl⟩ | ⟨_, rfl, rfl⟩
  · exact ⟨[], [], hc.mints_alike ⟨_, _, rfl⟩, congrArg (· :: []) hhead⟩
  · rcases heads_replaceTerminals hc p.rhs with ⟨before, hbefore, hminted⟩
    rcases heads_cutIntoPairs hbefore.supplied (some p)
      (Grammar.isVar_of_head? hhead) (c.replaceTerminals p.rhs).1.2 with
      ⟨after, hafter, hcut⟩
    refine ⟨before, after, (hbefore.trans hafter).alike ⟨_, _, rfl⟩, ?_⟩
    rw [List.map_append, hminted, hcut, ← List.map_append]

/-! ## One production for each helper -/

/-- What comes out of a split has one production for each helper that was
minted for it, and one for the head of the production. -/
structure PutsOut (g : Grammar) (c d : Splitting) (head : Symbol)
    (qs : List Production) (minted : List Symbol) : Prop
    extends Mints g c d minted where
  head_not_helper : head ∉ d.helpers.keys
  heads_nodup : (qs.map Production.head?).Nodup
  mem_heads_iff : ∀ s, some s ∈ qs.map Production.head? ↔
    s = head ∨ s ∈ minted

theorem exists_putsOut (hc : c.Supplied g) {p : Production} {head : Symbol}
    {qs : List Production} (hmem : p ∈ g.productions)
    (hhead : p.head? = some head) (hsplit : c.split p = .ok (qs, d)) :
    ∃ minted, PutsOut g c d head qs minted := by
  rcases heads_split hc hhead hsplit with ⟨before, after, hmints, hheads⟩
  have hknown : head ∉ d.helpers.keys :=
    hmints.supplied.helpers_new p hmem head (Production.head_mem_symbols hhead)
  have hnodup := hmints.supplied.helpers_nodup
  refine ⟨before ++ after, hmints, hknown, ?_, ?_⟩
  · rw [hmints.keys_eq] at hknown hnodup
    rw [hheads, List.nodup_map_iff fun _ _ heq => Option.some.inj heq,
      List.nodup_middle, List.nodup_cons]
    exact ⟨fun hminted => hknown (List.mem_append_right _ hminted),
      (List.nodup_append.mp hnodup).2.1⟩
  · intro s
    rw [hheads]
    simp [or_left_comm]

/-- Each helper heads one production of the output, and the other productions
have heads of the grammar. -/
structure OneEach (g : Grammar) (c : Splitting) : Prop where
  supplied : c.Supplied g
  output_nodup : c.output.Nodup
  heads_known : ∀ q ∈ c.output, ∀ s, q.head? = some s →
    s ∈ c.helpers.keys ∨ ∃ p ∈ g.productions, p.head? = some s
  existsUnique : ∀ helper ∈ c.helpers.keys,
    ∃! q, q ∈ c.output ∧ q.head? = some helper

theorem oneEach_ofGrammar (hg : g.Consistent) (hfree : g.ContextFree)
    (naming : Naming) : OneEach g (ofGrammar g naming) := by
  refine ⟨(complete_ofGrammar hg hfree naming).sound.toSupplied,
    List.nodup_nil, ?_, ?_⟩
  · exact fun _ hq => absurd hq List.not_mem_nil
  · exact fun _ hhelper => absurd hhelper List.not_mem_nil

section PuttingOut

variable {head : Symbol} {qs : List Production} {minted : List Symbol}

theorem OneEach.existsUnique_old (hc : OneEach g c)
    (hputs : PutsOut g c d head qs minted) (hold : s ∈ c.helpers.keys) :
    ∃! q, q ∈ extendNew c.output qs ∧ q.head? = some s := by
  rcases hc.existsUnique s hold with ⟨q, ⟨hq, hhead⟩, honly⟩
  refine ⟨q, ⟨mem_extendNew.mpr (.inl hq), hhead⟩, ?_⟩
  rintro r ⟨hr, hsame⟩
  rcases mem_extendNew.mp hr with hr | hr
  · exact honly r ⟨hr, hsame⟩
  · have hfrom := hsame ▸ List.mem_map_of_mem (f := Production.head?) hr
    rcases (hputs.mem_heads_iff s).mp hfrom with rfl | hminted
    · refine absurd ?_ hputs.head_not_helper
      rw [hputs.keys_eq]
      exact List.mem_append_left _ hold
    · exact absurd hold (hputs.not_mem_keys hminted)

theorem OneEach.existsUnique_new (hc : OneEach g c)
    (hputs : PutsOut g c d head qs minted) (hminted : s ∈ minted) :
    ∃! q, q ∈ extendNew c.output qs ∧ q.head? = some s := by
  rcases List.mem_map.mp ((hputs.mem_heads_iff s).mpr (.inr hminted)) with
    ⟨q, hq, hhead⟩
  refine ⟨q, ⟨mem_extendNew.mpr (.inr hq), hhead⟩, ?_⟩
  rintro r ⟨hr, hsame⟩
  rcases mem_extendNew.mp hr with hr | hr
  · rcases hc.heads_known r hr s hsame with hold | ⟨p, hp, hhead⟩
    · exact absurd hold (hputs.not_mem_keys hminted)
    · refine absurd ?_ (hputs.supplied.helpers_new p hp s
        (Production.head_mem_symbols hhead))
      rw [hputs.keys_eq]
      exact List.mem_append_right _ hminted
  · exact List.inj_on_of_nodup_map hputs.heads_nodup hr hq
      (hsame.trans hhead.symm)

theorem OneEach.split (hc : OneEach g c) {p : Production}
    (hmem : p ∈ g.productions) (hhead : p.head? = some head)
    (hsplit : c.split p = .ok (qs, d)) : OneEach g d := by
  rcases exists_putsOut hc.supplied hmem hhead hsplit with ⟨minted, hputs⟩
  have houtput := output_split hhead hsplit
  refine ⟨hputs.supplied, ?_, ?_, ?_⟩
  · rw [houtput]
    exact nodup_extendNew hc.output_nodup qs
  · intro q hq s hsome
    rw [hputs.keys_eq, List.mem_append]
    rw [houtput, mem_extendNew] at hq
    rcases hq with hold | hnew
    · exact (hc.heads_known q hold s hsome).imp_left .inl
    · have hfrom := hsome ▸ List.mem_map_of_mem (f := Production.head?) hnew
      rcases (hputs.mem_heads_iff s).mp hfrom with rfl | hminted
      · exact .inr ⟨p, hmem, hhead⟩
      · exact .inl (.inr hminted)
  · intro helper hkey
    rw [hputs.keys_eq, List.mem_append] at hkey
    rw [houtput]
    rcases hkey with hold | hminted
    · exact hc.existsUnique_old hputs hold
    · exact hc.existsUnique_new hputs hminted

end PuttingOut

theorem OneEach.foldlM {ps : List Production} (hc : OneEach g c)
    (hfree : g.ContextFree) (hps : ∀ p ∈ ps, p ∈ g.productions)
    (hfold : ps.foldlM (fun c p => (c.split p).map Prod.snd) c = .ok d) :
    OneEach g d := by
  induction ps generalizing c with
  | nil =>
      cases hfold
      exact hc
  | cons p ps ih =>
      rcases List.forall_mem_cons.mp hps with ⟨hmem, hrest⟩
      rcases Option.isSome_iff_exists.mp (hfree p hmem) with ⟨head, hhead⟩
      rcases exists_split_of_foldlM hfold with ⟨_, _, hsplit, hmore⟩
      exact ih (hc.split hmem hhead hsplit) hrest hmore

end Splitting

end FormalGrammars
