import FormalGrammars.Proofs.Elimination.Usefulness
import FormalGrammars.Proofs.NormalForm.Chomsky
import FormalGrammars.Proofs.NormalForm.Requests

/-!
# Chomsky normal form keeps variables useful

A variable of a useful grammar derives a terminal string and occurs in a form
that the start derives.  It still does when the productions are split, since
the derivations are kept.  So do the helpers: the form that a helper stands for
is made of symbols of the grammar and of stand-ins for terminals, and a helper
is minted for a production in whose pieces it occurs.  That could fail for a
stand-in of a terminal if it were cut away with a rest that had a stand-in
before; but then that rest would be older than the helper in it.
-/

namespace FormalGrammars

variable {g : Grammar} {start : Symbol}

/-! ## What helpers are made of -/

namespace Splitting

variable {c d : Splitting} {s : Symbol}

/-- A symbol of the grammar, or a stand-in for a terminal. -/
def Known (g : Grammar) (c : Splitting) (s : Symbol) : Prop :=
  (∃ p ∈ g.productions, s ∈ p.symbols) ∨
    ∃ t, t.isTerm = true ∧ Stands (c.rules g) s [t]

def AllKnown (g : Grammar) (c : Splitting) : Prop :=
  ∀ entry ∈ c.helpers.entries, ∀ s ∈ entry.2, Known g c s

theorem Known.grow (hs : Known g c s) (hd : d.Supplied g)
    (hinitial : c.helpers.entries <+: d.helpers.entries) : Known g d s := by
  refine hs.imp_right ?_
  rintro ⟨t, hterm, hstands⟩
  exact ⟨t, hterm, hstands.extend (hd.extends hinitial)⟩

/-- A known symbol that becomes a helper is one already. -/
theorem Known.mem_keys (hs : Known g c s) (hd : d.Supplied g)
    (hkey : s ∈ d.helpers.keys) : s ∈ c.helpers.keys := by
  rcases hs with ⟨p, hp, hoccurs⟩ | ⟨t, hterm, hstands⟩
  · exact absurd hkey (hd.helpers_new p hp s hoccurs)
  · rcases List.mem_append.mp hstands.rule_mem with hold | hhelper
    · exact absurd hkey (hd.helpers_new _ hold s List.mem_cons_self)
    · obtain ⟨entry, hentry, heq⟩ := List.mem_map.mp hhelper
      have hsame := (List.cons.inj (congrArg Production.lhs heq)).1
      exact hsame ▸ List.mem_map.mpr ⟨entry, hentry, rfl⟩

theorem known_of_replaces {form heads : Form}
    (hreplaces : Replaces (c.rules g) form heads)
    (hform : ∀ s ∈ form, ∃ p ∈ g.productions, s ∈ p.symbols) :
    ∀ s ∈ heads, Known g c s := by
  induction hreplaces with
  | nil => simp
  | keep hvar _ ih =>
      obtain ⟨hfirst, hrest⟩ := List.forall_mem_cons.mp hform
      exact List.forall_mem_cons.mpr ⟨.inl hfirst, ih hrest⟩
  | replace hterm hstands _ ih =>
      obtain ⟨hfirst, hrest⟩ := List.forall_mem_cons.mp hform
      exact List.forall_mem_cons.mpr ⟨.inr ⟨_, hterm, hstands⟩, ih hrest⟩

/-! ## Where helpers occur -/

/-- Going down along the productions one comes from the one symbol to the
other. -/
inductive Below (ps : List Production) (first : Symbol) : Symbol → Prop where
  | here : Below ps first first
  | down {s t : Symbol} {q : Production} (habove : Below ps first s)
      (hq : q ∈ ps) (hhead : q.head? = some s) (ht : t ∈ q.rhs) :
      Below ps first t

theorem Below.mono {ps more : List Production} {first : Symbol}
    (hbelow : Below ps first s) (hsub : ∀ q ∈ ps, q ∈ more) :
    Below more first s := by
  induction hbelow with
  | here => exact .here
  | down _ hq hhead ht ih => exact .down ih (hsub _ hq) hhead ht

theorem Below.trans {ps : List Production} {first t : Symbol}
    (hfirst : Below ps first s) (hsecond : Below ps s t) : Below ps first t := by
  induction hsecond with
  | here => exact hfirst
  | down _ hq hhead ht ih => exact .down ih hq hhead ht

theorem Below.occurs {h : Grammar} {first : Symbol}
    (hbelow : Below h.productions first s) (hfirst : h.Occurs start first) :
    h.Occurs start s := by
  induction hbelow with
  | here => exact hfirst
  | down _ hq hhead ht ih => exact ih.of_mem_rhs hq hhead ht

theorem Below.of_mem {ps : List Production} {q : Production} {t : Symbol}
    (hq : q ∈ ps) (hhead : q.head? = some s) (ht : t ∈ q.rhs) : Below ps s t :=
  .down .here hq hhead ht

theorem Offers.allKnown {form : Form} {fresh : Bool}
    (hoffers : Offers g c form s fresh d) (hc : AllKnown g c)
    (hform : ∀ t ∈ form, Known g c t) : AllKnown g d := by
  intro entry hentry t ht
  rw [hoffers.entries_eq, List.mem_append] at hentry
  have hknown : Known g c t := by
    rcases hentry with hold | hnew
    · exact hc entry hold t ht
    · cases fresh with
      | false => cases hnew
      | true =>
          rw [List.mem_singleton.mp hnew] at ht
          exact hform t ht
  exact hknown.grow hoffers.supplied hoffers.initial

theorem Supplied.noteOrigin (hc : c.Supplied g) (source? : Option Production)
    (q : Production) : (c.noteOrigin source? q).Supplied g :=
  hc.of_alike (alike_noteOrigin c source? q)

/-- The new helpers are stand-ins for terminals, and they are among the
symbols that come out. -/
theorem Supplied.new_replaceTerminals (hc : c.Supplied g) (form : Form) :
    let out := c.replaceTerminals form
    ∀ entry ∈ out.2.helpers.entries, entry ∈ c.helpers.entries ∨
      entry.1 ∈ out.1.2 ∧ ∃ t ∈ form, t.isTerm = true ∧ entry.2 = [t] := by
  induction form generalizing c with
  | nil => exact fun _ hentry => .inl hentry
  | cons s form ih =>
      unfold Splitting.replaceTerminals
      cases hvar : s.isVar with
      | true =>
          intro out entry hentry
          refine (ih hc entry hentry).imp_right ?_
          rintro ⟨hmem, t, ht, hterm, heq⟩
          exact ⟨List.mem_cons_of_mem s hmem, t, List.mem_cons_of_mem s ht,
            hterm, heq⟩
      | false =>
          have hoffers := hc.offers [s]
          simp only [Bool.false_eq_true, if_false]
          generalize c.standIn [s] = out at hoffers
          obtain ⟨⟨helper, fresh⟩, d⟩ := out
          simp only at hoffers ⊢
          intro entry hentry
          rcases ih hoffers.supplied entry hentry with hold | ⟨hmem, t, ht, hrest⟩
          · rw [hoffers.entries_eq, List.mem_append] at hold
            refine hold.imp_right fun hnew => ?_
            cases fresh with
            | false => cases hnew
            | true =>
                rw [List.mem_singleton.mp hnew]
                exact ⟨List.mem_cons_self, s, List.mem_cons_self,
                  Symbol.isTerm_of_isVar_eq_false hvar, rfl⟩
          · exact .inr ⟨List.mem_cons_of_mem helper hmem, t,
              List.mem_cons_of_mem s ht, hrest⟩

/-- What is cut from a right side hangs below its head: the helpers that were
minted for it, and those of its symbols that are new. -/
structure Hangs (g : Grammar) (c : Splitting) (new : Symbol → Prop)
    (head : Symbol) (heads : Form) (qs : List Production) (d : Splitting) :
    Prop where
  supplied : d.Supplied g
  initial : c.helpers.entries <+: d.helpers.entries
  allKnown : AllKnown g d
  helpers_below : ∀ entry ∈ d.helpers.entries, entry ∈ c.helpers.entries ∨
    Below qs head entry.1
  new_below : ∀ s ∈ heads, new s → Below qs head s

theorem AllKnown.noteOrigin (hknown : AllKnown g c)
    (source? : Option Production) (q : Production) :
    AllKnown g (c.noteOrigin source? q) := by
  have hhelpers := (grows_noteOrigin c source? q).1
  have hrules : (c.noteOrigin source? q).rules g = c.rules g := by
    rw [rules, rules, hhelpers]
  intro entry hentry s hs
  rw [hhelpers] at hentry
  have hs := hknown entry hentry s hs
  rwa [Known, hrules]

/-- A helper is put behind the first symbol, and the rest hangs below it. -/
theorem Hangs.cons {new : Symbol → Prop} {head first helper : Symbol}
    {rest : Form} {qs : List Production} {e : Splitting}
    (hhead : head.isVar = true) (hc : c.helpers.entries <+: d.helpers.entries)
    (hentries : ∀ entry ∈ d.helpers.entries, entry ∈ c.helpers.entries ∨
      entry.1 = helper) (hrest : Hangs g d new helper rest qs e) :
    Hangs g c new head (first :: rest) (.rule head [first, helper] :: qs) e := by
  have hall : ∀ {s}, s ∈ [first, helper] →
      Below (.rule head [first, helper] :: qs) head s := fun hs =>
    .of_mem List.mem_cons_self (Production.head?_rule hhead _) hs
  have hdown : ∀ {s}, Below qs helper s →
      Below (.rule head [first, helper] :: qs) head s := fun hs =>
    (hall (by simp)).trans (hs.mono fun q hq => List.mem_cons_of_mem _ hq)
  refine ⟨hrest.supplied, hc.trans hrest.initial, hrest.allKnown,
    fun entry hentry => ?_, fun s hs hnew => ?_⟩
  · rcases hrest.helpers_below entry hentry with hold | hbelow
    · refine (hentries entry hold).imp_right fun heq => ?_
      rw [heq]
      exact hall (by simp)
    · exact .inr (hdown hbelow)
  · rcases List.mem_cons.mp hs with rfl | hs
    · exact hall List.mem_cons_self
    · exact hdown (hrest.new_below s hs hnew)

/-- One production ends the cutting when it has all the new symbols. -/
theorem Supplied.hangs_last (hc : c.Supplied g) (hknown : AllKnown g c)
    {head : Symbol} (hhead : head.isVar = true) {new : Symbol → Prop}
    (source? : Option Production) {heads last : Form}
    (hlast : ∀ s ∈ heads, new s → s ∈ last) :
    Hangs g c new head heads [.rule head last]
      (c.noteOrigin source? (.rule head last)) := by
  have hhelpers := (grows_noteOrigin c source? (.rule head last)).1
  refine ⟨hc.noteOrigin _ _, hhelpers ▸ List.prefix_refl _,
    hknown.noteOrigin _ _, fun entry hentry => ?_, fun s hs hnew => ?_⟩
  · rw [hhelpers] at hentry
    exact .inl hentry
  · exact .of_mem List.mem_cons_self (Production.head?_rule hhead _)
      (hlast s hs hnew)

/-- While the rest has a new symbol it has no stand-in, for the rules of that
length are older; so the cutting goes on until no new symbol is left. -/
theorem Supplied.hangs_cutIntoPairs (hc : c.Supplied g)
    (hknown : AllKnown g c) {head : Symbol} (hhead : head.isVar = true)
    {heads : Form} (hheads : ∀ s ∈ heads, Known g c s) {new : Symbol → Prop}
    (hold : ∀ p ∈ c.rules g, p.rhs.length < heads.length →
      ∀ s ∈ p.rhs, ¬ new s) (source? : Option Production) :
    let out := c.cutIntoPairs source? head heads
    Hangs g c new head heads out.1 out.2 := by
  induction heads generalizing c source? head with
  | nil => exact hc.hangs_last hknown hhead source? fun _ hs _ => hs
  | cons first rest ih =>
      match rest with
      | [] => exact hc.hangs_last hknown hhead source? fun _ hs _ => hs
      | [_] => exact hc.hangs_last hknown hhead source? fun _ hs _ => hs
      | second :: third :: rest =>
          unfold Splitting.cutIntoPairs
          have hoffers := hc.offers (second :: third :: rest)
          generalize c.standIn (second :: third :: rest) = out at hoffers
          obtain ⟨⟨helper, fresh⟩, d⟩ := out
          simp only at hoffers ⊢
          cases fresh with
          | false =>
              -- an old rule has this right side, so nothing in it is new
              have hnone := hold _
                (hoffers.eq_of_old rfl ▸ hoffers.stands.rule_mem)
                (Nat.lt_succ_self _)
              rw [hoffers.eq_of_old rfl]
              refine hc.hangs_last hknown hhead source? fun s hs hnew => ?_
              rcases List.mem_cons.mp hs with rfl | hs
              · exact List.mem_cons_self
              · exact absurd hnew (hnone s hs)
          | true =>
              have hhelpers := (grows_noteOrigin d source?
                (.rule head [first, helper])).1
              have hnoted := hoffers.supplied.noteOrigin source?
                (.rule head [first, helper])
              have hrules : (d.noteOrigin source?
                  (.rule head [first, helper])).rules g =
                    c.rules g ++ [.rule helper (second :: third :: rest)] := by
                rw [← hoffers.rules_eq, rules, rules, hhelpers]
              have hrest_known : ∀ t ∈ second :: third :: rest, Known g c t :=
                fun t ht => hheads t (List.mem_cons_of_mem first ht)
              have hall := (hoffers.allKnown hknown hrest_known).noteOrigin
                source? (.rule head [first, helper])
              have holder : ∀ p ∈ (d.noteOrigin source?
                  (.rule head [first, helper])).rules g,
                  p.rhs.length < (second :: third :: rest).length →
                  ∀ s ∈ p.rhs, ¬ new s := by
                intro p hp hlt
                rw [hrules, List.mem_append, List.mem_singleton] at hp
                rcases hp with hp | rfl
                · exact hold p hp (Nat.lt_succ_of_lt hlt)
                · exact absurd hlt (Nat.lt_irrefl _)
              have hrest := ih hnoted hall hoffers.stands.isVar
                (fun t ht => (hrest_known t ht).grow hnoted
                  (hhelpers ▸ hoffers.initial)) holder none
              refine hrest.cons hhead (hhelpers ▸ hoffers.initial) ?_
              intro entry hentry
              rw [hhelpers, hoffers.entries_eq, List.mem_append] at hentry
              refine hentry.imp_right fun hnew => ?_
              rw [List.mem_singleton.mp hnew]

/-! ## All productions -/

/-- Every helper hangs below the head of a production of the grammar. -/
structure Rooted (g : Grammar) (c : Splitting) : Prop where
  allKnown : AllKnown g c
  below : ∀ entry ∈ c.helpers.entries, ∃ p ∈ g.productions, ∃ s,
    p.head? = some s ∧ Below c.output s entry.1

theorem rooted_ofGrammar (g : Grammar) (naming : Naming) :
    Rooted g (ofGrammar g naming) :=
  ⟨fun _ hentry => absurd hentry List.not_mem_nil,
    fun _ hentry => absurd hentry List.not_mem_nil⟩

/-- The entry of a helper that was there before is there as well. -/
theorem Supplied.mem_entries_of_key (hd : d.Supplied g)
    (hinitial : c.helpers.entries <+: d.helpers.entries)
    {entry : Symbol × Form} (hentry : entry ∈ d.helpers.entries)
    (hkey : entry.1 ∈ c.helpers.keys) : entry ∈ c.helpers.entries := by
  obtain ⟨⟨s, form⟩, hold, hsame⟩ := List.mem_map.mp hkey
  have hget := OrderedMap.get?_of_mem_entries hd.helpers_nodup hentry
  have hget' := OrderedMap.get?_of_mem_entries hd.helpers_nodup
    (hinitial.subset hold)
  simp only at hsame
  rw [hsame, hget, Option.some.injEq] at hget'
  have heq : entry = (s, form) := Prod.ext hsame.symm hget'
  exact heq ▸ hold

def NewIn (c d : Splitting) (s : Symbol) : Prop :=
  s ∈ d.helpers.keys ∧ s ∉ c.helpers.keys

/-- The stand-ins for the terminals of a right side are in no rule yet. -/
theorem not_newIn_of_mem_rhs (hc : c.Supplied g) (hknown : AllKnown g c)
    {form : Form} (hd : (c.replaceTerminals form).2.Supplied g) :
    ∀ q ∈ (c.replaceTerminals form).2.rules g, ∀ s ∈ q.rhs,
      ¬ NewIn c (c.replaceTerminals form).2 s := by
  rintro q hq s hs ⟨hkey, hnew⟩
  rcases List.mem_append.mp hq with hold | hhelper
  · exact hd.helpers_new q hold s (List.mem_append_right _ hs) hkey
  · obtain ⟨entry, hentry, rfl⟩ := List.mem_map.mp hhelper
    rcases hc.new_replaceTerminals form entry hentry with
      hold | ⟨_, t, _, hterm, hform⟩
    · exact hnew ((hknown entry hold s hs).mem_keys hd hkey)
    · have hs : s ∈ entry.2 := hs
      rw [hform, List.mem_singleton] at hs
      rw [hs] at hkey
      exact Symbol.not_isVar_of_isTerm hterm (hd.helpers_taken t hkey).1

theorem allKnown_replaceTerminals (hc : c.Supplied g) (hknown : AllKnown g c)
    {form : Form} (hform : ∀ s ∈ form, ∃ p ∈ g.productions, s ∈ p.symbols)
    (hd : (c.replaceTerminals form).2.Supplied g)
    (hinitial : c.helpers.entries <+:
      (c.replaceTerminals form).2.helpers.entries) :
    AllKnown g (c.replaceTerminals form).2 := by
  intro entry hentry s hs
  rcases hc.new_replaceTerminals form entry hentry with
    hold | ⟨_, t, ht, _, heq⟩
  · exact (hknown entry hold s hs).grow hd hinitial
  · rw [heq, List.mem_singleton] at hs
    exact .inl (hs ▸ hform t ht)

theorem Rooted.split (hroot : Rooted g c) (hc : c.Sound g) {p : Production}
    {head : Symbol} {qs : List Production} (hmem : p ∈ g.productions)
    (hhead : p.head? = some head) (hsplit : c.split p = .ok (qs, d)) :
    Rooted g d := by
  have houtput := (hc.split hmem hhead hsplit).2.2
  have hkept : ∀ {entry : Symbol × Form}, entry ∈ c.helpers.entries →
      ∃ q ∈ g.productions, ∃ s, q.head? = some s ∧ Below d.output s entry.1 := by
    intro entry hentry
    obtain ⟨q, hq, s, hsole, hbelow⟩ := hroot.below entry hentry
    exact ⟨q, hq, s, hsole, hbelow.mono fun r hr => (houtput r).mpr (.inl hr)⟩
  rcases split_cases hhead hsplit with ⟨_, _, hd⟩ | ⟨hlong, hqs, hd⟩
  · subst hd
    exact ⟨hroot.allKnown, fun entry hentry => hkept hentry⟩
  · obtain ⟨hreplaced, hreplaces⟩ := hc.replaceTerminals p.rhs
    have hnames := hc.new_replaceTerminals p.rhs
    have hform : ∀ s ∈ p.rhs, ∃ q ∈ g.productions, s ∈ q.symbols :=
      fun s hs => ⟨p, hmem, List.mem_append_right _ hs⟩
    have hnone := not_newIn_of_mem_rhs hc.toSupplied hroot.allKnown
      hreplaced.sound.toSupplied
    have hhangs := hreplaced.sound.hangs_cutIntoPairs
      (allKnown_replaceTerminals hc.toSupplied hroot.allKnown hform
        hreplaced.sound.toSupplied hreplaced.grows.helpers)
      (Grammar.isVar_of_head? hhead) (known_of_replaces hreplaces hform)
      (fun q hq _ => hnone q hq) (some p)
    have hbelow : ∀ {s}, Below _ head s → Below d.output head s := fun hs =>
      hs.mono fun q hq =>
        (houtput q).mpr (.inr (hqs ▸ List.mem_append_right _ hq))
    have hentries : d.helpers = (((c.replaceTerminals p.rhs).2.cutIntoPairs
        (some p) head (c.replaceTerminals p.rhs).1.2).2).helpers := by
      rw [hd]
    refine ⟨by rw [hd]; exact hhangs.allKnown, fun entry hentry => ?_⟩
    rw [hentries] at hentry
    rcases hhangs.helpers_below entry hentry with hmid | hlast
    · rcases hnames entry hmid with hold | ⟨hheads, _⟩
      · exact hkept hold
      · by_cases hkey : entry.1 ∈ c.helpers.keys
        · exact hkept (hreplaced.sound.mem_entries_of_key
            hreplaced.grows.helpers hmid hkey)
        · exact ⟨p, hmem, head, hhead, hbelow (hhangs.new_below entry.1 hheads
            ⟨List.mem_map.mpr ⟨entry, hmid, rfl⟩, hkey⟩)⟩
    · exact ⟨p, hmem, head, hhead, hbelow hlast⟩

theorem Rooted.foldlM {done ps : List Production} (hroot : Rooted g c)
    (hc : Complete g done c) (hfree : g.ContextFree)
    (hps : ∀ p ∈ ps, p ∈ g.productions)
    (hfold : ps.foldlM (fun c p => (c.split p).map Prod.snd) c = .ok d) :
    Rooted g d := by
  induction ps generalizing c done with
  | nil =>
      cases hfold
      exact hroot
  | cons p ps ih =>
      have hmem := hps p List.mem_cons_self
      obtain ⟨head, hhead⟩ := Option.isSome_iff_exists.mp (hfree p hmem)
      obtain ⟨_, _, hsplit, hmore⟩ := exists_split_of_foldlM hfold
      exact ih (hroot.split hc.sound hmem hhead hsplit)
        (hc.split hmem hhead hsplit)
        (fun q hq => hps q (List.mem_cons_of_mem p hq)) hmore

end Splitting

/-! ## The result -/

section Emission

variable {rules : List Production} {s : Symbol}

theorem Replaces.mem_or_stands {form heads : Form}
    (hreplaces : Replaces rules form heads) (hs : s ∈ heads) :
    s ∈ form ∨ ∃ other, Stands rules s other := by
  induction hreplaces with
  | nil => exact .inl hs
  | keep _ _ ih =>
      rcases List.mem_cons.mp hs with rfl | hs
      · exact .inl List.mem_cons_self
      · exact (ih hs).imp_left (List.mem_cons_of_mem _)
  | replace _ hstands _ ih =>
      rcases List.mem_cons.mp hs with rfl | hs
      · exact .inr ⟨_, hstands⟩
      · exact (ih hs).imp_left (List.mem_cons_of_mem _)

theorem Cuts.mem_or_stands {heads pair : Form} (hcuts : Cuts rules heads pair)
    (hs : s ∈ pair) : s ∈ heads ∨ ∃ other, Stands rules s other := by
  cases hcuts with
  | pair first second => exact .inl hs
  | chain first _ hstands =>
      rcases List.mem_cons.mp hs with rfl | hs
      · exact .inl List.mem_cons_self
      · rw [List.mem_singleton.mp hs]
        exact .inr ⟨_, hstands⟩

theorem Emits.mem_or_stands {p q : Production} (hemits : Emits rules p q)
    (hs : s ∈ q.rhs) : s ∈ p.rhs ∨ ∃ other, Stands rules s other := by
  cases hemits with
  | terminal => exact .inl hs
  | split hsplits =>
      obtain ⟨heads, hreplaces, hcuts⟩ := hsplits.exists_heads
      rcases hcuts.mem_or_stands hs with hs | hstands
      · exact hreplaces.mem_or_stands hs
      · exact .inr hstands

end Emission

namespace ChomskyForm

variable {c : ChomskyForm}

theorem Describes.produces_of_mem (hc : c.Describes g) (hg : g.Useful start)
    {p : Production} (hp : p ∈ g.productions) {s : Symbol}
    (hs : s ∈ p.symbols) : c.grammar.Produces [s] := by
  obtain ⟨word, hword, hyields⟩ := hg.produces_of_mem hp hs
  exact ⟨word, hword, hc.yields_of_yields hyields⟩

theorem Describes.produces_of_stands (hc : c.Describes g) {s : Symbol}
    {form : Form} (hstands : Stands (c.rules g) s form)
    (hform : c.grammar.Produces form) : c.grammar.Produces [s] := by
  obtain ⟨word, hword, hyields⟩ := hform
  have hrule := hc.yields_rule hstands.rule_mem
    (Production.head?_rule hstands.isVar form)
  exact ⟨word, hword, hrule.trans hyields⟩

/-- All symbols of a rule derive terminal strings. -/
theorem Describes.produces_of_mem_rule (hc : c.Describes g)
    (hg : g.Useful start)
    (hknown : ∀ entry ∈ c.helpers.entries, ∀ s ∈ entry.2,
      (∃ p ∈ g.productions, s ∈ p.symbols) ∨
        ∃ t, t.isTerm = true ∧ Stands (c.rules g) s [t])
    {p : Production} (hp : p ∈ c.rules g) {s : Symbol} (hs : s ∈ p.symbols) :
    c.grammar.Produces [s] := by
  rcases List.mem_append.mp hp with hold | hhelper
  · exact hc.produces_of_mem hg hold hs
  · obtain ⟨entry, hentry, rfl⟩ := List.mem_map.mp hhelper
    have hform : ∀ t ∈ entry.2, c.grammar.Produces [t] := by
      intro t ht
      rcases hknown entry hentry t ht with ⟨q, hq, hoccurs⟩ | ⟨u, hu, hstands⟩
      · exact hc.produces_of_mem hg hq hoccurs
      · exact hc.produces_of_stands hstands (Grammar.produces_of_isTerm hu)
    rcases List.mem_cons.mp hs with rfl | hs
    · obtain ⟨t, hhead⟩ := Option.isSome_iff_exists.mp (hc.head_isSome _ hp)
      obtain ⟨word, hword, hyields⟩ := Grammar.produces_iff_forall.mpr hform
      have hsame := (Production.head?_eq_some_iff.mp hhead).1
      have hrule := hc.yields_rule hp hhead
      rw [← (List.cons.inj hsame).1] at hrule
      exact ⟨word, hword, hrule.trans hyields⟩
    · exact hform s hs

theorem Describes.occurs_of_head? (hc : c.Describes g) (hg : g.Useful start)
    (hbelow : ∀ entry ∈ c.helpers.entries, ∃ p ∈ g.productions, ∃ s,
      p.head? = some s ∧ Splitting.Below c.grammar.productions s entry.1)
    {p : Production} (hp : p ∈ c.rules g) {s : Symbol}
    (hhead : p.head? = some s) : c.grammar.Occurs start s := by
  have hold : ∀ q ∈ g.productions, ∀ t, q.head? = some t →
      c.grammar.Occurs start t := by
    intro q hq t hsole
    obtain ⟨before, after, hyields⟩ := hg.occurs q hq t
      (Production.head_mem_symbols hsole) (Grammar.isVar_of_head? hsole)
    exact ⟨before, after, hc.yields_of_yields hyields⟩
  rcases List.mem_append.mp hp with hmem | hhelper
  · exact hold p hmem s hhead
  · obtain ⟨entry, hentry, rfl⟩ := List.mem_map.mp hhelper
    obtain ⟨q, hq, t, hsole, hdown⟩ := hbelow entry hentry
    have hsame := (Production.head?_eq_some_iff.mp hhead).1
    rw [← (List.cons.inj hsame).1]
    exact hdown.occurs (hold q hq t hsole)

theorem Describes.useful (hc : c.Describes g) (hg : g.Useful start)
    (hknown : ∀ entry ∈ c.helpers.entries, ∀ s ∈ entry.2,
      (∃ p ∈ g.productions, s ∈ p.symbols) ∨
        ∃ t, t.isTerm = true ∧ Stands (c.rules g) s [t])
    (hbelow : ∀ entry ∈ c.helpers.entries, ∃ p ∈ g.productions, ∃ s,
      p.head? = some s ∧ Splitting.Below c.grammar.productions s entry.1) :
    c.grammar.Useful start := by
  constructor
  · intro q hq s hs _
    obtain ⟨p, hp, hemits⟩ := hc.emitted q hq
    obtain ⟨head, hhead⟩ := Option.isSome_iff_exists.mp (hc.head_isSome p hp)
    rw [Production.symbols_eq_cons (hemits.head_eq.trans hhead)] at hs
    rcases List.mem_cons.mp hs with rfl | hs
    · exact hc.produces_of_mem_rule hg hknown hp
        (Production.head_mem_symbols hhead)
    · rcases hemits.mem_or_stands hs with hs | ⟨form, hstands⟩
      · exact hc.produces_of_mem_rule hg hknown hp (List.mem_append_right _ hs)
      · exact hc.produces_of_mem_rule hg hknown hstands.rule_mem
          List.mem_cons_self
  · intro q hq s hs _
    obtain ⟨p, hp, hemits⟩ := hc.emitted q hq
    obtain ⟨head, hhead⟩ := Option.isSome_iff_exists.mp (hc.head_isSome p hp)
    have hsole := hemits.head_eq.trans hhead
    have hoccurs := hc.occurs_of_head? hg hbelow hp hhead
    rw [Production.symbols_eq_cons hsole] at hs
    rcases List.mem_cons.mp hs with rfl | hs
    · exact hoccurs
    · exact hoccurs.of_mem_rhs hq hsole hs

theorem useful_toChomskyForm (hg : g.Consistent)
    (hstart : g.requireContextFree = .ok start) (huseful : g.Useful start)
    {naming : Naming} (hc : g.toChomskyForm naming = .ok c) :
    c.grammar.Useful start := by
  have hdescribes := describes_toChomskyForm hg hstart hc
  have hfree := (Grammar.requireContextFree_eq_ok_iff.mp hstart).2
  obtain ⟨last, hfold, hfinish⟩ := exists_last hstart hc
  have hroot := (Splitting.rooted_ofGrammar g naming).foldlM
    (Splitting.complete_ofGrammar hg hfree naming) hfree (fun p hp => hp) hfold
  rcases Splitting.finish_eq_ok_iff.mp hfinish with ⟨_, rfl⟩
  refine hdescribes.useful huseful hroot.allKnown fun entry hentry => ?_
  obtain ⟨p, hp, s, hhead, hbelow⟩ := hroot.below entry hentry
  refine ⟨p, hp, s, hhead, hbelow.mono fun q hq => ?_⟩
  rw [Grammar.productions_withProductions, mem_extendNew]
  exact .inr hq

end ChomskyForm

end FormalGrammars
