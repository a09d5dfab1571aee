import FormalGrammars.NormalForm.Splitting
import FormalGrammars.Proofs.NormalForm.Directory
import FormalGrammars.Proofs.NormalForm.HelperName

/-!
# Splitting keeps the rules together

The rules of a splitting are the productions of the grammar and, for every
helper, the rule with the form that it stands for.  A rule emits a production
when its right side is a terminal on its own, or when its terminals are
replaced by stand-ins and what comes out is cut to a pair.

Every production that comes out is emitted by a rule, and every new helper has
a production that its rule emits.  Both are proved for one operation after the
other, with the same account of what an operation puts out.
-/

namespace FormalGrammars

/-! ## What a rule emits -/

section Emission

variable {rules more : List Production}

/-- Variables are kept, and stand-ins replace terminals. -/
inductive Replaces (rules : List Production) : Form → Form → Prop where
  | nil : Replaces rules [] []
  | keep {s : Symbol} {form heads : Form} (hvar : s.isVar = true)
      (hrest : Replaces rules form heads) :
      Replaces rules (s :: form) (s :: heads)
  | replace {t s : Symbol} {form heads : Form} (hterm : t.isTerm = true)
      (hstands : Stands rules s [t]) (hrest : Replaces rules form heads) :
      Replaces rules (t :: form) (s :: heads)

/-- A pair is itself; behind the first of more variables stands a variable for
the rest. -/
inductive Cuts (rules : List Production) : Form → Form → Prop where
  | pair (first second : Symbol) : Cuts rules [first, second] [first, second]
  | chain {s : Symbol} (first : Symbol) {rest : Form} (hlong : 2 ≤ rest.length)
      (hstands : Stands rules s rest) : Cuts rules (first :: rest) [first, s]

structure Splits (rules : List Production) (p q : Production) : Prop where
  head_eq : q.head? = p.head?
  exists_heads : ∃ heads, Replaces rules p.rhs heads ∧ Cuts rules heads q.rhs

inductive Emits (rules : List Production) : Production → Production → Prop where
  | terminal {s t : Symbol} (hvar : s.isVar = true) (hterm : t.isTerm = true) :
      Emits rules (.rule s [t]) (.rule s [t])
  | split {p q : Production} (hsplits : Splits rules p q) : Emits rules p q

theorem Replaces.extend {form heads : Form}
    (hreplaces : Replaces rules form heads) (hmore : Extends rules more) :
    Replaces more form heads := by
  induction hreplaces with
  | nil => exact .nil
  | keep hvar _ ih => exact .keep hvar ih
  | replace hterm hstands _ ih =>
      exact .replace hterm (hstands.extend hmore) ih

theorem Replaces.isVar {form heads : Form}
    (hreplaces : Replaces rules form heads) :
    ∀ s ∈ heads, s.isVar = true := by
  induction hreplaces with
  | nil => simp
  | keep hvar _ ih => exact List.forall_mem_cons.mpr ⟨hvar, ih⟩
  | replace _ hstands _ ih =>
      exact List.forall_mem_cons.mpr ⟨hstands.isVar, ih⟩

theorem Replaces.length_eq {form heads : Form}
    (hreplaces : Replaces rules form heads) : heads.length = form.length := by
  induction hreplaces with
  | nil => rfl
  | keep _ _ ih => rw [List.length_cons, List.length_cons, ih]
  | replace _ _ _ ih => rw [List.length_cons, List.length_cons, ih]

theorem Replaces.exists_cons {head : Symbol} {form heads : Form}
    (hreplaces : Replaces rules form (head :: heads)) :
    ∃ s rest, form = s :: rest ∧ Replaces rules rest heads := by
  cases hreplaces with
  | keep _ hrest => exact ⟨_, _, rfl, hrest⟩
  | replace _ _ hrest => exact ⟨_, _, rfl, hrest⟩

theorem replaces_self {form : Form} (hform : ∀ s ∈ form, s.isVar = true) :
    Replaces rules form form := by
  induction form with
  | nil => exact .nil
  | cons s form ih =>
      exact .keep (hform s List.mem_cons_self)
        (ih fun t ht => hform t (List.mem_cons_of_mem s ht))

theorem Replaces.eq_of_isVar {form heads : Form}
    (hreplaces : Replaces rules form heads)
    (hform : ∀ s ∈ form, s.isVar = true) : heads = form := by
  induction hreplaces with
  | nil => rfl
  | keep _ _ ih =>
      rw [ih fun t ht => hform t (List.mem_cons_of_mem _ ht)]
  | replace hterm _ _ _ =>
      exact absurd (hform _ List.mem_cons_self)
        (Symbol.not_isVar_of_isTerm hterm)

theorem Cuts.extend {heads pair : Form} (hcuts : Cuts rules heads pair)
    (hmore : Extends rules more) : Cuts more heads pair := by
  cases hcuts with
  | pair first second => exact .pair first second
  | chain first hlong hstands =>
      exact .chain first hlong (hstands.extend hmore)

theorem Splits.extend {p q : Production} (hsplits : Splits rules p q)
    (hmore : Extends rules more) : Splits more p q := by
  obtain ⟨heads, hreplaces, hcuts⟩ := hsplits.exists_heads
  exact ⟨hsplits.head_eq, heads, hreplaces.extend hmore, hcuts.extend hmore⟩

theorem Emits.extend {p q : Production} (hemits : Emits rules p q)
    (hmore : Extends rules more) : Emits more p q := by
  cases hemits with
  | terminal hvar hterm => exact .terminal hvar hterm
  | split hsplits => exact .split (hsplits.extend hmore)

theorem Emits.head_eq {p q : Production} (hemits : Emits rules p q) :
    q.head? = p.head? := by
  cases hemits with
  | terminal => rfl
  | split hsplits => exact hsplits.head_eq

theorem emits_self {p : Production} (hp : p.isChomsky = true) :
    Emits rules p p := by
  simp only [Production.isChomsky, Bool.and_eq_true] at hp
  obtain ⟨s, hhead⟩ := Option.isSome_iff_exists.mp hp.1
  have hrule := Production.eq_rule_of_head? hhead
  have hshape := hp.2
  split at hshape
  next t hrhs =>
    rw [hrule, hrhs]
    exact .terminal (Grammar.isVar_of_head? hhead) hshape
  next first second hrhs =>
    rw [Bool.and_eq_true] at hshape
    refine .split ⟨rfl, [first, second], ?_, ?_⟩
    · rw [hrhs]
      exact .keep hshape.1 (.keep hshape.2 .nil)
    · rw [hrhs]
      exact .pair first second
  next => cases hshape

end Emission

namespace Splitting

variable {g : Grammar} {c d e : Splitting}

/-! ## The state -/

def rules (g : Grammar) (c : Splitting) : List Production :=
  g.productions ++ c.helpers.entries.map fun entry => .rule entry.1 entry.2

/-- The names, the helpers and the directory go together. -/
structure Supplied (g : Grammar) (c : Splitting) : Prop where
  symbols_taken : ∀ p ∈ g.productions, ∀ s ∈ p.symbols,
    s.name ∈ c.names.taken
  helpers_taken : ∀ s ∈ c.helpers.keys, s.isVar = true ∧
    s.name ∈ c.names.taken
  helpers_new : ∀ p ∈ g.productions, ∀ s ∈ p.symbols, s ∉ c.helpers.keys
  helpers_nodup : c.helpers.keys.Nodup
  directory : c.directory.Describes (c.rules g)

structure Sound (g : Grammar) (c : Splitting) : Prop
    extends Supplied g c where
  origins : ∀ entry ∈ c.origins.entries, entry.2 ∈ g.productions ∧
    Splits (c.rules g) entry.2 entry.1

structure Grows (c d : Splitting) : Prop where
  helpers : c.helpers.entries <+: d.helpers.entries
  origins : ∀ q ∈ c.origins.keys, q ∈ d.origins.keys

theorem Grows.refl (c : Splitting) : Grows c c :=
  ⟨List.prefix_refl _, fun _ hq => hq⟩

theorem Grows.trans (hfirst : Grows c d) (hsecond : Grows d e) : Grows c e :=
  ⟨hfirst.helpers.trans hsecond.helpers,
    fun q hq => hsecond.origins q (hfirst.origins q hq)⟩

theorem Supplied.head?_helperRule (hc : c.Supplied g) {entry : Symbol × Form}
    (hentry : entry ∈ c.helpers.entries) :
    (Production.rule entry.1 entry.2).head? = some entry.1 :=
  Production.head?_rule
    (hc.helpers_taken entry.1 (List.mem_map.mpr ⟨entry, hentry, rfl⟩)).1 _

theorem Supplied.extends (hd : d.Supplied g)
    (hinitial : c.helpers.entries <+: d.helpers.entries) :
    Extends (c.rules g) (d.rules g) := by
  obtain ⟨later, hlater⟩ := hinitial
  have hnodup := hd.helpers_nodup
  unfold OrderedMap.keys at hnodup
  rw [← hlater, List.map_append, List.nodup_append] at hnodup
  constructor
  · intro p hp
    unfold rules at hp ⊢
    rw [← hlater, List.map_append, ← List.append_assoc]
    exact List.mem_append_left _ hp
  · intro p hp
    have hall := hp
    unfold rules at hp
    rw [← hlater, List.map_append, ← List.append_assoc] at hp
    refine (List.mem_append.mp hp).imp_right fun hnew q hq heq => ?_
    obtain ⟨entry, hentry, rfl⟩ := List.mem_map.mp hnew
    have hmem : entry ∈ d.helpers.entries :=
      hlater ▸ List.mem_append_right _ hentry
    rw [hd.head?_helperRule hmem] at heq
    rcases List.mem_append.mp hq with hold | hold
    · exact hd.helpers_new q hold entry.1 (Production.head_mem_symbols heq.symm)
        (List.mem_map.mpr ⟨entry, hmem, rfl⟩)
    · obtain ⟨other, hother, rfl⟩ := List.mem_map.mp hold
      have hin : other ∈ d.helpers.entries :=
        hlater ▸ List.mem_append_left _ hother
      rw [hd.head?_helperRule hin, Option.some.injEq] at heq
      exact hnodup.2.2 _ (List.mem_map.mpr ⟨other, hother, rfl⟩) _
        (List.mem_map.mpr ⟨entry, hentry, rfl⟩) heq.symm

theorem Supplied.stands_helper (hc : c.Supplied g) {s : Symbol} {form : Form}
    (hentry : (s, form) ∈ c.helpers.entries) :
    Stands (c.rules g) s form := by
  have hkey : s ∈ c.helpers.keys := List.mem_map.mpr ⟨_, hentry, rfl⟩
  refine ⟨(hc.helpers_taken s hkey).1, ?_, fun p hp hhead => ?_⟩
  · exact List.mem_append_right _ (List.mem_map.mpr ⟨_, hentry, rfl⟩)
  · rcases List.mem_append.mp hp with hold | hold
    · exact absurd hkey (hc.helpers_new p hold s (Production.head_mem_symbols hhead))
    · obtain ⟨other, hother, rfl⟩ := List.mem_map.mp hold
      rw [hc.head?_helperRule hother, Option.some.injEq] at hhead
      subst hhead
      have hsame := OrderedMap.get?_of_mem_entries hc.helpers_nodup hother
      rw [OrderedMap.get?_of_mem_entries hc.helpers_nodup hentry] at hsame
      exact (Option.some.inj hsame).symm

/-! ## Stand-ins -/

/-- A name that is taken is not minted again. -/
theorem ne_mint (c : Splitting) (form : Form) {s : Symbol}
    (hs : s.name ∈ c.names.taken) : s ≠ (c.mint form).1 := by
  rintro rfl
  exact (NameSource.mint_spec c.names).1 hs

theorem taken_mint (c : Splitting) (form : Form) :
    (c.mint form).2.names.taken = (c.mint form).1.name :: c.names.taken :=
  (NameSource.mint_spec c.names).2

theorem entries_mint (htaken : ∀ s ∈ c.helpers.keys, s.name ∈ c.names.taken)
    (form : Form) : (c.mint form).2.helpers.entries =
      c.helpers.entries ++ [((c.mint form).1, form)] :=
  OrderedMap.entries_insert_of_not_mem_keys
    (fun hold => ne_mint c form (htaken _ hold) rfl) form

theorem keys_mint (htaken : ∀ s ∈ c.helpers.keys, s.name ∈ c.names.taken)
    (form : Form) : (c.mint form).2.helpers.keys =
      c.helpers.keys ++ [(c.mint form).1] := by
  unfold OrderedMap.keys
  rw [entries_mint htaken, List.map_append, List.map_singleton]

theorem helpers_taken_mint
    (htaken : ∀ s ∈ c.helpers.keys, s.name ∈ c.names.taken) (form : Form) :
    ∀ s ∈ (c.mint form).2.helpers.keys,
      s.name ∈ (c.mint form).2.names.taken := by
  intro s hs
  rw [keys_mint htaken, List.mem_append, List.mem_singleton] at hs
  rw [taken_mint]
  rcases hs with hold | rfl
  · exact List.mem_cons_of_mem _ (htaken s hold)
  · exact List.mem_cons_self

theorem rules_mint {form : Form}
    (hentries : (c.mint form).2.helpers.entries =
      c.helpers.entries ++ [((c.mint form).1, form)]) :
    (c.mint form).2.rules g = c.rules g ++ [.rule (c.mint form).1 form] := by
  unfold rules
  rw [hentries, List.map_append, ← List.append_assoc]
  rfl

theorem Supplied.mint (hc : c.Supplied g) (form : Form) :
    (c.mint form).2.Supplied g ∧
      (c.mint form).2.helpers.entries =
        c.helpers.entries ++ [((c.mint form).1, form)] := by
  have holds : ∀ s ∈ c.helpers.keys, s.name ∈ c.names.taken :=
    fun s hs => (hc.helpers_taken s hs).2
  have hkeys := keys_mint holds form
  have hentries := entries_mint holds form
  have hrule : Production.rule (c.mint form).1 form ∉ c.rules g := by
    intro hmem
    rcases List.mem_append.mp hmem with hold | hold
    · exact ne_mint c form (hc.symbols_taken _ hold _ List.mem_cons_self) rfl
    · obtain ⟨entry, hentry, heq⟩ := List.mem_map.mp hold
      have hhead := (List.cons.inj (congrArg Production.lhs heq)).1
      exact ne_mint c form
        (holds entry.1 (List.mem_map.mpr ⟨entry, hentry, rfl⟩)) hhead
  refine ⟨⟨?_, ?_, ?_, ?_, ?_⟩, hentries⟩
  · intro p hp s hs
    rw [taken_mint]
    exact List.mem_cons_of_mem _ (hc.symbols_taken p hp s hs)
  · intro s hs
    refine ⟨?_, helpers_taken_mint holds form s hs⟩
    rw [hkeys, List.mem_append, List.mem_singleton] at hs
    rcases hs with hold | rfl
    · exact (hc.helpers_taken s hold).1
    · rfl
  · intro p hp s hs hin
    rw [hkeys, List.mem_append, List.mem_singleton] at hin
    rcases hin with hold | hhelper
    · exact hc.helpers_new p hp s hs hold
    · exact ne_mint c form (hc.symbols_taken p hp s hs) hhelper
  · rw [hkeys, List.nodup_append]
    refine ⟨hc.helpers_nodup, List.nodup_singleton _, ?_⟩
    intro s hs t ht
    rw [List.mem_singleton.mp ht]
    exact ne_mint c form (holds s hs)
  · rw [rules_mint hentries]
    exact hc.directory.insert (Production.head?_rule rfl form) hrule

theorem mem_of_helperFor? {form : Form} {s : Symbol}
    (hfound : c.helperFor? form = some s) :
    (s, form) ∈ c.helpers.entries := by
  obtain ⟨⟨_, other⟩, hfind, rfl⟩ := Option.map_eq_some_iff.mp hfound
  have hform : other = form := by simpa using List.find?_some hfind
  exact hform ▸ List.mem_of_find?_eq_some hfind

/-- What a request for a stand-in gives, whatever the origins are. -/
structure Offers (g : Grammar) (c : Splitting) (form : Form) (s : Symbol)
    (fresh : Bool) (d : Splitting) : Prop where
  supplied : d.Supplied g
  stands : Stands (d.rules g) s form
  entries_eq : d.helpers.entries =
    c.helpers.entries ++ if fresh then [(s, form)] else []
  eq_of_old : fresh = false → d = c

theorem Supplied.offers (hc : c.Supplied g) (form : Form) :
    let out := c.standIn form
    Offers g c form out.1.1 out.1.2 out.2 := by
  unfold Splitting.standIn
  cases hfound : c.helperFor? form <|> c.directory.standIn? form with
  | some s =>
      refine ⟨hc, ?_, (List.append_nil _).symm, fun _ => rfl⟩
      rw [Option.orElse_eq_orElse, Option.orElse_eq_or,
        Option.or_eq_some_iff] at hfound
      rcases hfound with hhelper | ⟨_, hother⟩
      · exact hc.stands_helper (mem_of_helperFor? hhelper)
      · exact hc.directory.stands hother
  | none =>
      obtain ⟨hd, hentries⟩ := hc.mint form
      refine ⟨hd, hd.stands_helper ?_, hentries, fun hfresh => by cases hfresh⟩
      rw [hentries]
      exact List.mem_append_right _ (List.mem_singleton.mpr rfl)

theorem Offers.initial {form : Form} {s : Symbol} {fresh : Bool}
    (hoffers : Offers g c form s fresh d) :
    c.helpers.entries <+: d.helpers.entries :=
  hoffers.entries_eq ▸ List.prefix_append _ _

theorem Offers.rules_eq {form : Form} {s : Symbol}
    (hoffers : Offers g c form s true d) :
    d.rules g = c.rules g ++ [.rule s form] := by
  rw [rules, rules, hoffers.entries_eq, if_pos rfl, List.map_append,
    ← List.append_assoc]
  rfl

/-- What a request for a stand-in gives: one that was there, or a new helper. -/
structure Provides (g : Grammar) (c : Splitting) (form : Form)
    (s : Symbol) (fresh : Bool) (d : Splitting) : Prop where
  sound : d.Sound g
  stands : Stands (d.rules g) s form
  origins_eq : d.origins = c.origins
  entries_eq : d.helpers.entries =
    c.helpers.entries ++ if fresh then [(s, form)] else []
  eq_of_old : fresh = false → d = c

theorem origins_standIn (c : Splitting) (form : Form) :
    (c.standIn form).2.origins = c.origins := by
  unfold standIn
  split <;> rfl

theorem Sound.provides (hc : c.Sound g) (form : Form) :
    let out := c.standIn form
    Provides g c form out.1.1 out.1.2 out.2 := by
  have hoffers := hc.toSupplied.offers form
  have horigins := origins_standIn c form
  have hmore := hoffers.supplied.extends hoffers.initial
  refine ⟨⟨hoffers.supplied, fun entry hentry => ?_⟩, hoffers.stands, horigins,
    hoffers.entries_eq, hoffers.eq_of_old⟩
  rw [horigins] at hentry
  obtain ⟨hsource, hsplits⟩ := hc.origins entry hentry
  exact ⟨hsource, hsplits.extend hmore⟩

theorem Provides.grows {form : Form} {s : Symbol} {fresh : Bool}
    (hprovides : Provides g c form s fresh d) : Grows c d :=
  ⟨hprovides.entries_eq ▸ List.prefix_append _ _,
    fun _ hq => hprovides.origins_eq ▸ hq⟩

/-! ## The account of an operation -/

/-- A rule emits the production; when its head is no helper, the production
is one of the grammar or has an origin. -/
structure Accounted (g : Grammar) (c : Splitting) (q : Production) : Prop where
  emitted : ∃ p ∈ c.rules g, Emits (c.rules g) p q
  known : ∀ s, q.head? = some s →
    s ∈ c.helpers.keys ∨ q ∈ g.productions ∨ q ∈ c.origins.keys

def Covers (g : Grammar) (c : Splitting) (qs : List Production)
    (p : Production) : Prop :=
  ∃ q ∈ qs, Emits (c.rules g) p q

/-- What an operation puts out: productions that are accounted for, and one at
least for every new helper. -/
structure Produces (g : Grammar) (c d : Splitting) (qs : List Production) :
    Prop where
  sound : d.Sound g
  grows : Grows c d
  accounted : ∀ q ∈ qs, d.Accounted g q
  covers : ∀ entry ∈ d.helpers.entries, entry ∈ c.helpers.entries ∨
    d.Covers g qs (.rule entry.1 entry.2)

theorem Accounted.grow {q : Production} (hq : c.Accounted g q)
    (hd : d.Sound g) (hgrows : Grows c d) : d.Accounted g q := by
  have hmore := hd.extends hgrows.helpers
  obtain ⟨p, hp, hemits⟩ := hq.emitted
  refine ⟨⟨p, hmore.subset p hp, hemits.extend hmore⟩, fun s hhead => ?_⟩
  rcases hq.known s hhead with hhelper | hold | horigin
  · exact .inl ((hgrows.helpers.map Prod.fst).subset hhelper)
  · exact .inr (.inl hold)
  · exact .inr (.inr (hgrows.origins q horigin))

theorem Covers.grow {qs : List Production} {p : Production}
    (hp : c.Covers g qs p) (hd : d.Sound g) (hgrows : Grows c d) :
    d.Covers g qs p := by
  obtain ⟨q, hq, hemits⟩ := hp
  exact ⟨q, hq, hemits.extend (hd.extends hgrows.helpers)⟩

theorem Covers.mono {qs more : List Production} {p : Production}
    (hp : c.Covers g qs p) (hsub : ∀ q ∈ qs, q ∈ more) :
    c.Covers g more p := by
  obtain ⟨q, hq, hemits⟩ := hp
  exact ⟨q, hsub q hq, hemits⟩

theorem Sound.produces_nil (hc : c.Sound g) : Produces g c c [] :=
  ⟨hc, .refl c, by simp, fun _ hentry => .inl hentry⟩

theorem Produces.trans {qs more : List Production}
    (hfirst : Produces g c d qs) (hsecond : Produces g d e more) :
    Produces g c e (qs ++ more) := by
  refine ⟨hsecond.sound, hfirst.grows.trans hsecond.grows, ?_, ?_⟩
  · intro q hq
    rcases List.mem_append.mp hq with hq | hq
    · exact (hfirst.accounted q hq).grow hsecond.sound hsecond.grows
    · exact hsecond.accounted q hq
  · intro entry hentry
    rcases hsecond.covers entry hentry with hold | hnew
    · refine (hfirst.covers entry hold).imp_right fun hcovers => ?_
      exact (hcovers.grow hsecond.sound hsecond.grows).mono
        fun q hq => List.mem_append_left _ hq
    · exact .inr (hnew.mono fun q hq => List.mem_append_right _ hq)

/-- A request for a stand-in is accounted for once the rule of a new helper
emits one of the productions. -/
theorem Provides.produces {form : Form} {s : Symbol} {fresh : Bool}
    {qs : List Production} (hprovides : Provides g c form s fresh d)
    (hproduces : Produces g d e qs)
    (hcovers : fresh = true → e.Covers g qs (.rule s form)) :
    Produces g c e qs := by
  refine ⟨hproduces.sound, hprovides.grows.trans hproduces.grows,
    hproduces.accounted, fun entry hentry => ?_⟩
  rcases hproduces.covers entry hentry with hold | hnew
  · rw [hprovides.entries_eq, List.mem_append] at hold
    refine hold.imp_right fun hfresh => ?_
    cases fresh with
    | false => cases hfresh
    | true =>
        rw [List.mem_singleton.mp hfresh]
        exact hcovers rfl
  · exact .inr hnew

/-! ## Replacing terminals -/

theorem Sound.produces_terminal (hc : c.Sound g) {t : Symbol}
    (hterm : t.isTerm = true) :
    let out := c.standIn [t]
    Produces g c out.2
      (if out.1.2 then [.rule out.1.1 [t]] else []) := by
  have hprovides := hc.provides [t]
  generalize c.standIn [t] = out at hprovides
  obtain ⟨⟨s, fresh⟩, d⟩ := out
  simp only at hprovides ⊢
  cases fresh with
  | false =>
      exact hprovides.produces hprovides.sound.produces_nil
        fun hfresh => by cases hfresh
  | true =>
      have hstands := hprovides.stands
      have hemits : Emits (d.rules g) (.rule s [t]) (.rule s [t]) :=
        .terminal hstands.isVar hterm
      have hkey : s ∈ d.helpers.keys := by
        unfold OrderedMap.keys
        rw [hprovides.entries_eq, List.map_append]
        exact List.mem_append_right _ (List.mem_singleton.mpr rfl)
      refine hprovides.produces ⟨hprovides.sound, .refl d, ?_,
        fun _ hentry => .inl hentry⟩ fun _ => ?_
      · intro q hq
        rw [if_pos rfl, List.mem_singleton] at hq
        subst hq
        refine ⟨⟨_, hstands.rule_mem, hemits⟩, fun other hhead => .inl ?_⟩
        rw [Production.head?_rule hstands.isVar, Option.some.injEq] at hhead
        exact hhead ▸ hkey
      · exact ⟨_, List.mem_singleton.mpr rfl, hemits⟩

theorem Sound.replaceTerminals (hc : c.Sound g) (form : Form) :
    let out := c.replaceTerminals form
    Produces g c out.2 out.1.1 ∧
      Replaces (out.2.rules g) form out.1.2 := by
  induction form generalizing c with
  | nil => exact ⟨hc.produces_nil, .nil⟩
  | cons s form ih =>
      unfold Splitting.replaceTerminals
      cases hvar : s.isVar with
      | true =>
          obtain ⟨hproduces, hreplaces⟩ := ih hc
          exact ⟨hproduces, .keep hvar hreplaces⟩
      | false =>
          have hterm := Symbol.isTerm_of_isVar_eq_false hvar
          have hprovides := hc.provides [s]
          have hfirst := hc.produces_terminal hterm
          simp only [Bool.false_eq_true, if_false]
          generalize c.standIn [s] = out at hprovides hfirst
          obtain ⟨⟨helper, fresh⟩, d⟩ := out
          obtain ⟨hrest, hreplaces⟩ := ih hprovides.sound
          have hmore := hrest.sound.extends hrest.grows.helpers
          refine ⟨?_, .replace hterm (hprovides.stands.extend hmore) hreplaces⟩
          have hboth := hfirst.trans hrest
          cases fresh with
          | false => exact hboth
          | true => exact hboth

/-! ## Cutting into pairs -/

/-- The rule that is cut: a production of the grammar with itself as the
source, or the rule of a helper without a source. -/
inductive IsCut (g : Grammar) (c : Splitting) :
    Option Production → Production → Prop where
  | source {p : Production} (hmem : p ∈ g.productions) :
      IsCut g c (some p) p
  | helper {s : Symbol} {form : Form} (hentry : (s, form) ∈ c.helpers.entries) :
      IsCut g c none (.rule s form)

theorem IsCut.grow {source? : Option Production} {p : Production}
    (hcut : IsCut g c source? p) (hgrows : Grows c d) :
    IsCut g d source? p := by
  cases hcut with
  | source hmem => exact .source hmem
  | helper hentry => exact .helper (hgrows.helpers.subset hentry)

theorem IsCut.mem_rules {source? : Option Production} {p : Production}
    (hcut : IsCut g c source? p) : p ∈ c.rules g := by
  cases hcut with
  | source hmem => exact List.mem_append_left _ hmem
  | helper hentry =>
      exact List.mem_append_right _ (List.mem_map.mpr ⟨_, hentry, rfl⟩)

theorem grows_noteOrigin (c : Splitting) (source? : Option Production)
    (q : Production) :
    (c.noteOrigin source? q).helpers = c.helpers ∧
      Grows c (c.noteOrigin source? q) := by
  unfold noteOrigin
  split
  next => exact ⟨rfl, .refl c⟩
  next source =>
    split
    next => exact ⟨rfl, .refl c⟩
    next =>
      refine ⟨rfl, List.prefix_refl _, fun p hp => ?_⟩
      change p ∈ (c.origins.insertIfNew q source).keys
      rw [OrderedMap.keys_insertIfNew, mem_insertNew]
      exact .inl hp

theorem Sound.noteOrigin (hc : c.Sound g) {source? : Option Production}
    {p q : Production} (hcut : IsCut g c source? p)
    (hsplits : Splits (c.rules g) p q) : (c.noteOrigin source? q).Sound g := by
  cases hcut with
  | helper => exact hc
  | source hmem =>
      unfold Splitting.noteOrigin
      simp only
      split
      next => exact hc
      next =>
        refine ⟨⟨hc.symbols_taken, hc.helpers_taken, hc.helpers_new,
          hc.helpers_nodup, hc.directory⟩, fun entry hentry => ?_⟩
        rcases OrderedMap.mem_entries_insertIfNew hentry with hold | rfl
        · exact hc.origins entry hold
        · exact ⟨hmem, hsplits⟩

theorem Sound.known_noteOrigin (hc : c.Sound g) {source? : Option Production}
    {p q : Production} (hcut : IsCut g c source? p)
    (hsplits : Splits (c.rules g) p q) {s : Symbol}
    (hhead : q.head? = some s) :
    s ∈ c.helpers.keys ∨ q ∈ g.productions ∨
      q ∈ (c.noteOrigin source? q).origins.keys := by
  cases hcut with
  | helper hentry =>
      left
      rw [hsplits.head_eq, hc.head?_helperRule hentry,
        Option.some.injEq] at hhead
      exact hhead ▸ List.mem_map.mpr ⟨_, hentry, rfl⟩
  | source hmem =>
      right
      unfold Splitting.noteOrigin
      simp only
      split
      next hcontains =>
        -- the directory also knows the rules of helpers, but `p` has no helper
        left
        have hrule := (hc.directory.contains_iff hhead).mp hcontains
        refine (List.mem_append.mp hrule).resolve_right fun hhelper => ?_
        obtain ⟨entry, hentry, rfl⟩ := List.mem_map.mp hhelper
        have hsame := hc.head?_helperRule hentry
        rw [hsplits.head_eq] at hsame
        exact hc.helpers_new _ hmem _ (Production.head_mem_symbols hsame)
          (List.mem_map.mpr ⟨entry, hentry, rfl⟩)
      next =>
        right
        change q ∈ (c.origins.insertIfNew q p).keys
        rw [OrderedMap.keys_insertIfNew, mem_insertNew]
        exact .inr rfl

theorem Sound.produces_first (hc : c.Sound g) {source? : Option Production}
    {p q : Production} (hcut : IsCut g c source? p)
    (hsplits : Splits (c.rules g) p q) :
    Produces g c (c.noteOrigin source? q) [q] ∧
      (c.noteOrigin source? q).Covers g [q] p := by
  obtain ⟨hhelpers, hgrows⟩ := grows_noteOrigin c source? q
  have hrules : (c.noteOrigin source? q).rules g = c.rules g := by
    unfold rules
    rw [hhelpers]
  refine ⟨⟨hc.noteOrigin hcut hsplits, hgrows, ?_, ?_⟩, ?_⟩
  · intro r hr
    rw [List.mem_singleton.mp hr]
    refine ⟨⟨p, hrules ▸ hcut.mem_rules, hrules ▸ .split hsplits⟩, ?_⟩
    intro s hhead
    rw [hhelpers]
    exact hc.known_noteOrigin hcut hsplits hhead
  · intro entry hentry
    rw [hhelpers] at hentry
    exact .inl hentry
  · exact ⟨q, List.mem_singleton.mpr rfl, hrules ▸ .split hsplits⟩

/-- Each call puts out the first production, and those of the helper for the
rest when that is new. -/
theorem Sound.cutIntoPairs (hc : c.Sound g) {source? : Option Production}
    {p : Production} {head : Symbol} {heads : Form}
    (hcut : IsCut g c source? p) (hhead : p.head? = some head)
    (hreplaces : Replaces (c.rules g) p.rhs heads)
    (hlong : 2 ≤ heads.length) :
    let out := c.cutIntoPairs source? head heads
    Produces g c out.2 out.1 ∧ out.2.Covers g out.1 p := by
  have hrule_head : ∀ form, (Production.rule head form).head? = p.head? :=
    fun form => (Production.head?_rule (Grammar.isVar_of_head? hhead) form).trans
      hhead.symm
  induction heads generalizing c source? p head with
  | nil => simp at hlong
  | cons first rest ih =>
      match rest, hlong with
      | [second], _ =>
          exact hc.produces_first hcut
            ⟨hrule_head _, _, hreplaces, .pair first second⟩
      | second :: third :: rest, _ =>
          unfold Splitting.cutIntoPairs
          have hprovides := hc.provides (second :: third :: rest)
          generalize c.standIn (second :: third :: rest) = out at hprovides
          obtain ⟨⟨helper, fresh⟩, d⟩ := out
          simp only at hprovides ⊢
          have hmore := hprovides.sound.extends hprovides.grows.helpers
          have hsplits : Splits (d.rules g) p (.rule head [first, helper]) :=
            ⟨hrule_head _, _, hreplaces.extend hmore,
              .chain first (by simp) hprovides.stands⟩
          obtain ⟨hproduces, hcovers⟩ := hprovides.sound.produces_first
            (hcut.grow hprovides.grows) hsplits
          cases fresh with
          | false =>
              refine ⟨hprovides.produces hproduces fun hfresh => ?_, hcovers⟩
              cases hfresh
          | true =>
              have hentry : (helper, second :: third :: rest) ∈
                  (d.noteOrigin source?
                    (.rule head [first, helper])).helpers.entries := by
                rw [(grows_noteOrigin d source? _).1, hprovides.entries_eq]
                exact List.mem_append_right _ (List.mem_singleton.mpr rfl)
              -- the helper has no production yet; it comes from the next call
              have hvars : ∀ s ∈ second :: third :: rest, s.isVar = true :=
                fun s hs => hreplaces.isVar s (List.mem_cons_of_mem first hs)
              obtain ⟨hrest, hcovered⟩ := ih hproduces.sound (.helper hentry)
                (Production.head?_rule hprovides.stands.isVar _)
                (replaces_self hvars) (by simp)
                (fun form => rfl)
              refine ⟨hprovides.produces (hproduces.trans hrest) ?_, ?_⟩
              · intro _
                exact hcovered.mono fun q hq => List.mem_cons_of_mem _ hq
              · exact (hcovers.grow hrest.sound hrest.grows).mono
                  fun q hq => List.mem_append_left _ hq

/-! ## Splitting a production -/

theorem output_standIn (c : Splitting) (form : Form) :
    (c.standIn form).2.output = c.output := by
  unfold standIn
  split <;> rfl

theorem output_replaceTerminals (c : Splitting) (form : Form) :
    (c.replaceTerminals form).2.output = c.output := by
  induction form generalizing c with
  | nil => rfl
  | cons s form ih =>
      unfold Splitting.replaceTerminals
      split
      next => exact ih c
      next => exact (ih _).trans (output_standIn c [s])

theorem output_noteOrigin (c : Splitting) (source? : Option Production)
    (q : Production) : (c.noteOrigin source? q).output = c.output := by
  unfold noteOrigin
  split
  next => rfl
  next => split <;> rfl

theorem output_cutIntoPairs (c : Splitting) (source? : Option Production)
    (head : Symbol) (heads : Form) :
    (c.cutIntoPairs source? head heads).2.output = c.output := by
  induction heads generalizing c source? head with
  | nil => exact output_noteOrigin c source? _
  | cons first rest ih =>
      match rest with
      | [] => exact output_noteOrigin c source? _
      | [_] => exact output_noteOrigin c source? _
      | second :: third :: rest =>
          have hfirst := (output_noteOrigin
            (c.standIn (second :: third :: rest)).2 source?
            (.rule head [first, (c.standIn (second :: third :: rest)).1.1])).trans
              (output_standIn c _)
          unfold Splitting.cutIntoPairs
          simp only
          split
          next => exact (ih _ _ _).trans hfirst
          next => exact hfirst

theorem two_le_length {p : Production} (hhead : p.hasHead = true)
    (hlambda : p.isLambda = false) (hunit : p.isUnit = false)
    (hchomsky : p.isChomsky = false) : 2 ≤ p.rhs.length := by
  simp only [Production.isLambda, Production.isUnit, Production.isChomsky,
    hhead, Bool.true_and] at hlambda hunit hchomsky
  cases hrhs : p.rhs with
  | nil => simp [hrhs] at hlambda
  | cons s rest =>
      cases rest with
      | nil => cases s <;> simp [hrhs, Symbol.isVar, Symbol.isTerm] at hunit hchomsky
      | cons t rest => simp

/-- A production in normal form stays, the others are cut after their
terminals are replaced, and lambda and unit productions are refused. -/
theorem split_cases {p : Production} {head : Symbol} {qs : List Production}
    (hhead : p.head? = some head) (hsplit : c.split p = .ok (qs, d)) :
    (p.isChomsky = true ∧ qs = [p] ∧
      d = { c with output := extendNew c.output [p] }) ∨
    (2 ≤ p.rhs.length ∧
      let replaced := c.replaceTerminals p.rhs
      let cut := replaced.2.cutIntoPairs (some p) head replaced.1.2
      qs = replaced.1.1 ++ cut.1 ∧
        d = { cut.2 with output := extendNew cut.2.output qs }) := by
  have hhas : p.hasHead = true := by rw [Production.hasHead, hhead]; rfl
  unfold split Production.shape at hsplit
  rw [hhead, hhas] at hsplit
  cases hlambda : p.isLambda with
  | true => simp [hlambda] at hsplit
  | false =>
      cases hunit : p.isUnit with
      | true => simp [hlambda, hunit] at hsplit
      | false =>
          cases hchomsky : p.isChomsky with
          | true =>
              simp only [hlambda, hunit, hchomsky, Bool.not_true,
                Bool.false_eq_true, if_false, if_true, Except.ok.injEq,
                Prod.mk.injEq] at hsplit
              exact .inl ⟨rfl, hsplit.1.symm, hsplit.2.symm⟩
          | false =>
              right
              refine ⟨two_le_length hhas hlambda hunit hchomsky, ?_⟩
              cases hterm : p.hasTerminalOnRight <;>
                simp only [hlambda, hunit, hchomsky, hterm, Bool.not_true,
                  Bool.false_eq_true, if_false, if_true, Except.ok.injEq,
                  Prod.mk.injEq] at hsplit <;>
                exact ⟨hsplit.1.symm, by rw [← hsplit.2, hsplit.1]⟩

theorem output_split {p : Production} {head : Symbol} {qs : List Production}
    (hhead : p.head? = some head) (hsplit : c.split p = .ok (qs, d)) :
    d.output = extendNew c.output qs := by
  rcases split_cases hhead hsplit with ⟨_, rfl, rfl⟩ | ⟨_, hqs, rfl⟩
  · rfl
  · have hcut := output_cutIntoPairs (c.replaceTerminals p.rhs).2 (some p)
      head (c.replaceTerminals p.rhs).1.2
    have hreplaced := output_replaceTerminals c p.rhs
    exact congrArg (extendNew · qs) (hcut.trans hreplaced)

theorem Produces.withOutput {qs : List Production}
    (hproduces : Produces g c d qs) (output : List Production) :
    Produces g c { d with output := output } qs := by
  have hd := hproduces.sound
  refine ⟨⟨⟨hd.symbols_taken, hd.helpers_taken, hd.helpers_new,
    hd.helpers_nodup, hd.directory⟩, hd.origins⟩,
    ⟨hproduces.grows.helpers, hproduces.grows.origins⟩, ?_,
    hproduces.covers⟩
  intro q hq
  have hq := hproduces.accounted q hq
  exact ⟨hq.emitted, hq.known⟩

theorem Sound.split (hc : c.Sound g) {p : Production} {head : Symbol}
    {qs : List Production} (hmem : p ∈ g.productions)
    (hhead : p.head? = some head) (hsplit : c.split p = .ok (qs, d)) :
    Produces g c d qs ∧ d.Covers g qs p ∧
      ∀ q, q ∈ d.output ↔ q ∈ c.output ∨ q ∈ qs := by
  have houtput : ∀ q, q ∈ d.output ↔ q ∈ c.output ∨ q ∈ qs := by
    intro q
    rw [output_split hhead hsplit]
    exact mem_extendNew
  rcases split_cases hhead hsplit with
    ⟨hchomsky, rfl, rfl⟩ | ⟨hlong, rfl, rfl⟩
  · have hself : Emits (c.rules g) p p := emits_self hchomsky
    have hproduces : Produces g c c [p] := by
      refine ⟨hc, .refl c, fun q hq => ?_, fun _ hentry => .inl hentry⟩
      rw [List.mem_singleton.mp hq]
      exact ⟨⟨p, List.mem_append_left _ hmem, hself⟩,
        fun _ _ => .inr (.inl hmem)⟩
    exact ⟨hproduces.withOutput _,
      ⟨p, List.mem_singleton.mpr rfl, hself⟩, houtput⟩
  · obtain ⟨hreplaced, hreplaces⟩ := hc.replaceTerminals p.rhs
    have hlength := hreplaces.length_eq
    obtain ⟨hcut, hcovers⟩ := hreplaced.sound.cutIntoPairs (.source hmem)
      hhead hreplaces (by omega)
    refine ⟨(hreplaced.trans hcut).withOutput _, ?_, houtput⟩
    exact hcovers.mono fun q hq => List.mem_append_right _ hq

/-! ## Splitting all productions -/

structure Complete (g : Grammar) (done : List Production) (c : Splitting) :
    Prop where
  sound : c.Sound g
  accounted : ∀ q ∈ c.output, c.Accounted g q
  covers_helper : ∀ entry ∈ c.helpers.entries,
    c.Covers g c.output (.rule entry.1 entry.2)
  covers : ∀ p ∈ done, c.Covers g c.output p

theorem complete_ofGrammar (hg : g.Consistent) (hfree : g.ContextFree)
    (naming : Naming) : Complete g [] (ofGrammar g naming) := by
  have hrules : (ofGrammar g naming).rules g = g.productions :=
    List.append_nil _
  refine ⟨⟨⟨?_, ?_, ?_, List.nodup_nil, ?_⟩, ?_⟩, ?_, ?_, ?_⟩
  · intro p hp s hs
    exact NameSource.name_mem_taken (hg.mem_keys_iff.mpr ⟨p, hp, hs⟩)
  · exact fun s hs => absurd hs List.not_mem_nil
  · exact fun _ _ s _ hs => absurd hs List.not_mem_nil
  · rw [hrules]
    exact Directory.describes_ofGrammar hfree hg.productions_nodup
  · exact fun _ hentry => absurd hentry List.not_mem_nil
  · exact fun _ hq => absurd hq List.not_mem_nil
  · exact fun _ hentry => absurd hentry List.not_mem_nil
  · exact fun _ hp => absurd hp List.not_mem_nil

theorem Complete.split {done : List Production} (hc : Complete g done c)
    {p : Production} {head : Symbol} {qs : List Production}
    (hmem : p ∈ g.productions) (hhead : p.head? = some head)
    (hsplit : c.split p = .ok (qs, d)) : Complete g (done ++ [p]) d := by
  obtain ⟨hproduces, hcovers, houtput⟩ := hc.sound.split hmem hhead hsplit
  have hgrow : ∀ {r : Production}, c.Covers g c.output r →
      d.Covers g d.output r := fun hr =>
    (hr.grow hproduces.sound hproduces.grows).mono
      fun q hq => (houtput q).mpr (.inl hq)
  refine ⟨hproduces.sound, fun q hq => ?_, fun entry hentry => ?_,
    fun r hr => ?_⟩
  · rcases (houtput q).mp hq with hold | hnew
    · exact (hc.accounted q hold).grow hproduces.sound hproduces.grows
    · exact hproduces.accounted q hnew
  · rcases hproduces.covers entry hentry with hold | hnew
    · exact hgrow (hc.covers_helper entry hold)
    · exact hnew.mono fun q hq => (houtput q).mpr (.inr hq)
  · rcases List.mem_append.mp hr with hold | hlast
    · exact hgrow (hc.covers r hold)
    · rw [List.mem_singleton.mp hlast]
      exact hcovers.mono fun q hq => (houtput q).mpr (.inr hq)

theorem Complete.covers_rule (hc : Complete g g.productions c)
    {p : Production} (hp : p ∈ c.rules g) : c.Covers g c.output p := by
  rcases List.mem_append.mp hp with hold | hhelper
  · exact hc.covers p hold
  · obtain ⟨entry, hentry, rfl⟩ := List.mem_map.mp hhelper
    exact hc.covers_helper entry hentry

theorem exists_split_of_foldlM {p : Production} {ps : List Production}
    (hfold : (p :: ps).foldlM (fun c p => (c.split p).map Prod.snd) c = .ok e) :
    ∃ qs d, c.split p = .ok (qs, d) ∧
      ps.foldlM (fun c p => (c.split p).map Prod.snd) d = .ok e := by
  rw [List.foldlM_cons] at hfold
  cases hsplit : c.split p with
  | error fault => rw [hsplit] at hfold; cases hfold
  | ok out =>
      rw [hsplit] at hfold
      exact ⟨out.1, out.2, rfl, hfold⟩

theorem Complete.foldlM {done ps : List Production} (hc : Complete g done c)
    (hfree : g.ContextFree) (hps : ∀ p ∈ ps, p ∈ g.productions)
    (hfold : ps.foldlM (fun c p => (c.split p).map Prod.snd) c = .ok d) :
    Complete g (done ++ ps) d := by
  induction ps generalizing c done with
  | nil =>
      cases hfold
      rw [List.append_nil]
      exact hc
  | cons p ps ih =>
      have hmem := hps p List.mem_cons_self
      obtain ⟨head, hhead⟩ := Option.isSome_iff_exists.mp (hfree p hmem)
      obtain ⟨_, _, hsplit, hmore⟩ := exists_split_of_foldlM hfold
      have hrest := ih (hc.split hmem hhead hsplit)
        (fun q hq => hps q (List.mem_cons_of_mem p hq)) hmore
      simpa using hrest

end Splitting

end FormalGrammars
