import FormalGrammars.Proofs.NormalForm.Chomsky
import FormalGrammars.Proofs.NormalForm.Supply
import FormalGrammars.Proofs.Renaming

/-!
# The names of helpers do not matter

Two conversions of one grammar that name their helpers differently are
renamings of each other.  The renaming is read off the helpers that both have
in the end: it carries the first helper of the one to the first of the other
and so on, and it keeps the symbols of the grammar.  Looking up a stand-in
only compares symbols, so both conversions find one or mint one at the same
moments.  What they put out, and where it comes from, is renamed alike, and
trees are carried back alike.
-/

namespace FormalGrammars

variable {g : Grammar} {start : Symbol} {f : Symbol → Symbol} {form : Form}

/-! ## Directories -/

namespace Directory

def rename (f : Symbol → Symbol) (d : Directory) : Directory :=
  ⟨d.producers.rename (List.map f) (List.map f), d.counts.rename f id⟩

theorem producersOf_rename (hf : Renames f) (d : Directory) (rhs : Form) :
    (d.rename f).producersOf (rhs.map f) = (d.producersOf rhs).map f :=
  OrderedMap.getD_rename hf.form_injective d.producers (List.map f) rhs []

theorem contains_rename (hf : Renames f) (d : Directory) (p : Production) :
    (d.rename f).contains (p.rename f) = d.contains p := by
  unfold contains
  rw [Production.head?_rename hf, Production.rename, producersOf_rename hf]
  cases p.head? with
  | none => rfl
  | some head =>
      simp only [Option.map_some, Option.any_some]
      rw [Bool.eq_iff_iff, List.contains_iff_mem, List.contains_iff_mem,
        List.mem_map_of_injective hf.injective]

theorem insert_rename (hf : Renames f) (d : Directory) (p : Production) :
    (d.rename f).insert (p.rename f) = (d.insert p).rename f := by
  unfold Directory.insert
  rw [Production.head?_rename hf, contains_rename hf]
  cases p.head? with
  | none => rfl
  | some head =>
      simp only [Option.map_some]
      split
      next => rfl
      next =>
        have hproducers :
            (d.producers.rename (List.map f) (List.map f)).alter (p.rhs.map f)
                [] (insertNew · (f head)) =
              (d.producers.alter p.rhs [] (insertNew · head)).rename
                (List.map f) (List.map f) :=
          OrderedMap.alter_rename (h := List.map f) hf.form_injective
            d.producers p.rhs [] fun heads =>
              (map_insertNew hf.injective heads head).symm
        have hcounts : (d.counts.rename f id).alter (f head) 0 (· + 1) =
            (d.counts.alter head 0 (· + 1)).rename f id :=
          OrderedMap.alter_rename (h := id) hf.injective d.counts head 0
            fun _ => rfl
        exact congrArg₂ Directory.mk hproducers hcounts

/-- The directory of a grammar has only symbols of the grammar. -/
theorem rename_ofGrammar (hf : Renames f) (hkept : g.KeptBy f) :
    (ofGrammar g).rename f = ofGrammar g := by
  unfold ofGrammar
  have hfold : ∀ (ps : List Production) (d : Directory),
      (∀ p ∈ ps, p.rename f = p) →
      (ps.foldl Directory.insert d).rename f =
        ps.foldl Directory.insert (d.rename f) := by
    intro ps
    induction ps with
    | nil => exact fun _ _ => rfl
    | cons p ps ih =>
        intro d hps
        rw [List.foldl_cons, ih _ fun q hq => hps q (List.mem_cons_of_mem p hq),
          ← insert_rename hf, hps p List.mem_cons_self, List.foldl_cons]
  exact hfold g.productions {} fun p hp => hkept.rename_eq hp

theorem standIn?_rename (hf : Renames f) (d : Directory) (rhs : Form) :
    (d.rename f).standIn? (rhs.map f) = (d.standIn? rhs).map f := by
  have hcount : ∀ head,
      OrderedMap.getD (d.rename f).counts (f head) 0 = d.counts.getD head 0 :=
    fun head => OrderedMap.getD_rename hf.injective d.counts id head 0
  unfold standIn? soleProducer?
  rw [producersOf_rename hf]
  match d.producersOf rhs with
  | [] => rfl
  | [head] =>
      simp only [List.map_cons, List.map_nil, Option.filter_some, hcount]
      split <;> rfl
  | _ :: _ :: _ => rfl

end Directory

/-! ## Helpers stay where they are -/

namespace Splitting

variable {c d c' d' : Splitting}

theorem keys_prefix_mint {keys : List Symbol} (c : Splitting) (form : Form)
    (hc : keys <+: c.helpers.keys) : keys <+: (c.mint form).2.helpers.keys := by
  change keys <+: (c.helpers.insert (c.mint form).1 form).keys
  rw [OrderedMap.keys_insert]
  exact hc.trans (prefix_insertNew _ _)

theorem keys_replaceTerminals (c : Splitting) (form : Form) :
    c.helpers.keys <+: (c.replaceTerminals form).2.helpers.keys :=
  supply_replaceTerminals
    (motive := fun _ helpers => c.helpers.keys <+: helpers.keys)
    keys_prefix_mint (List.prefix_refl _) form

theorem keys_cutIntoPairs (c : Splitting) (source? : Option Production)
    (head : Symbol) (heads : Form) :
    c.helpers.keys <+: (c.cutIntoPairs source? head heads).2.helpers.keys :=
  supply_cutIntoPairs
    (motive := fun _ helpers => c.helpers.keys <+: helpers.keys)
    keys_prefix_mint (List.prefix_refl _) source? head heads

theorem keys_foldlM {ps : List Production}
    (hfold : ps.foldlM (fun c p => (c.split p).map Prod.snd) c = .ok d) :
    c.helpers.keys <+: d.helpers.keys :=
  supply_foldlM (motive := fun _ helpers => c.helpers.keys <+: helpers.keys)
    keys_prefix_mint (List.prefix_refl _) hfold

/-- A chain of pairs goes on from the state that gave it its stand-in. -/
theorem keys_chain (c : Splitting) (source? : Option Production)
    (head first second third : Symbol) (rest : Form) :
    (c.standIn (second :: third :: rest)).2.helpers.keys <+:
      (c.cutIntoPairs source? head
        (first :: second :: third :: rest)).2.helpers.keys := by
  unfold Splitting.cutIntoPairs
  generalize c.standIn (second :: third :: rest) = out
  rcases out with ⟨⟨helper, fresh⟩, d⟩
  have hnote := (grows_noteOrigin d source? (.rule head [first, helper])).1
  have hkeys := congrArg OrderedMap.keys hnote
  cases fresh with
  | false => exact hkeys.symm ▸ List.prefix_refl _
  | true => exact hkeys ▸ keys_cutIntoPairs _ none helper _

/-! ## Two splittings side by side -/

/-- The renaming carries the helpers of the one to those of the other, in the
order of minting. -/
def Follows (f : Symbol → Symbol) (c d : Splitting) : Prop :=
  ∀ (i : Nat) (s t : Symbol), c.helpers.keys[i]? = some s →
    d.helpers.keys[i]? = some t → f s = t

theorem Follows.mono (hfollows : Follows f c' d')
    (hc : c.helpers.keys <+: c'.helpers.keys)
    (hd : d.helpers.keys <+: d'.helpers.keys) : Follows f c d := by
  intro i s t hs ht
  obtain ⟨hleft, rfl⟩ := List.getElem?_eq_some_iff.mp hs
  obtain ⟨hright, rfl⟩ := List.getElem?_eq_some_iff.mp ht
  exact hfollows i _ _ (List.prefix_iff_getElem?.mp hc i hleft)
    (List.prefix_iff_getElem?.mp hd i hright)

/-- One splitting is the renaming of the other, and in both the names of the
helpers are taken. -/
structure Matches (f : Symbol → Symbol) (c d : Splitting) : Prop where
  directory_eq : d.directory = c.directory.rename f
  helpers_eq : d.helpers = c.helpers.rename f (List.map f)
  origins_eq : d.origins =
    c.origins.rename (Production.rename f) (Production.rename f)
  output_eq : d.output = c.output.map (Production.rename f)
  left_taken : ∀ s ∈ c.helpers.keys, s.name ∈ c.names.taken
  right_taken : ∀ s ∈ d.helpers.keys, s.name ∈ d.names.taken

namespace Matches

variable (hf : Renames f) (hmatches : Matches f c d)

include hmatches

theorem keys_eq : d.helpers.keys = c.helpers.keys.map f := by
  rw [hmatches.helpers_eq, OrderedMap.keys_rename]

include hf

theorem mint (form : Form)
    (hfollows : Follows f (c.mint form).2 (d.mint (form.map f)).2) :
    (d.mint (form.map f)).1 = f (c.mint form).1 ∧
      Matches f (c.mint form).2 (d.mint (form.map f)).2 := by
  have hleftKeys := keys_mint hmatches.left_taken form
  have hrightKeys := keys_mint hmatches.right_taken (form.map f)
  have hlength : d.helpers.keys.length = c.helpers.keys.length := by
    rw [hmatches.keys_eq, List.length_map]
  have hhelper : (d.mint (form.map f)).1 = f (c.mint form).1 := by
    refine (hfollows c.helpers.keys.length _ _ ?_ ?_).symm
    · rw [hleftKeys, List.getElem?_concat_length]
    · rw [hrightKeys, ← hlength, List.getElem?_concat_length]
  refine ⟨hhelper, ?_, ?_, hmatches.origins_eq, hmatches.output_eq,
    helpers_taken_mint hmatches.left_taken form,
    helpers_taken_mint hmatches.right_taken (form.map f)⟩
  · change d.directory.insert (.rule (d.mint (form.map f)).1 (form.map f)) = _
    rw [hhelper, hmatches.directory_eq, ← Production.rename_rule,
      Directory.insert_rename hf]
    rfl
  · change d.helpers.insert (d.mint (form.map f)).1 (form.map f) = _
    rw [hhelper, hmatches.helpers_eq, OrderedMap.insert_rename hf.injective]
    rfl

theorem helperFor?_eq (form : Form) :
    d.helperFor? (form.map f) = (c.helperFor? form).map f := by
  unfold helperFor?
  rw [hmatches.helpers_eq]
  simp [OrderedMap.rename, List.find?_map, Function.comp_def,
    hf.form_injective.eq_iff]

theorem standIn (form : Form)
    (hfollows : Follows f (c.standIn form).2 (d.standIn (form.map f)).2) :
    let out := c.standIn form
    let other := d.standIn (form.map f)
    other.1.1 = f out.1.1 ∧ other.1.2 = out.1.2 ∧ Matches f out.2 other.2 := by
  have hsame : (d.helperFor? (form.map f) <|>
      d.directory.standIn? (form.map f)) =
        (c.helperFor? form <|> c.directory.standIn? form).map f := by
    rw [hmatches.helperFor?_eq hf, hmatches.directory_eq,
      Directory.standIn?_rename hf]
    cases c.helperFor? form <;> rfl
  unfold Splitting.standIn at hfollows ⊢
  rw [hsame] at hfollows ⊢
  cases hfound : c.helperFor? form <|> c.directory.standIn? form with
  | some s => exact ⟨rfl, rfl, hmatches⟩
  | none =>
      rw [hfound] at hfollows
      obtain ⟨hhelper, hminted⟩ := hmatches.mint hf form hfollows
      exact ⟨hhelper, rfl, hminted⟩

theorem replaceTerminals (form : Form)
    (hfollows : Follows f (c.replaceTerminals form).2
      (d.replaceTerminals (form.map f)).2) :
    let out := c.replaceTerminals form
    let other := d.replaceTerminals (form.map f)
    other.1.1 = out.1.1.map (Production.rename f) ∧
      other.1.2 = out.1.2.map f ∧ Matches f out.2 other.2 := by
  induction form generalizing c d with
  | nil => exact ⟨rfl, rfl, hmatches⟩
  | cons s form ih =>
      unfold Splitting.replaceTerminals at hfollows ⊢
      simp only [List.map_cons, hf.isVar_eq] at hfollows ⊢
      cases hvar : s.isVar with
      | true =>
          simp only [hvar, if_true] at hfollows ⊢
          obtain ⟨hminted, hheads, hrest⟩ := ih hmatches hfollows
          exact ⟨hminted, congrArg (f s :: ·) hheads, hrest⟩
      | false =>
          simp only [hvar, Bool.false_eq_true, if_false] at hfollows ⊢
          have hfirst := hmatches.standIn hf [s] (hfollows.mono
            (keys_replaceTerminals _ form) (keys_replaceTerminals _ _))
          rw [List.map_singleton] at hfirst
          generalize c.standIn [s] = out at hfirst hfollows
          generalize d.standIn [f s] = other at hfirst hfollows
          obtain ⟨⟨helper, _⟩, c⟩ := out
          obtain ⟨⟨_, fresh⟩, d⟩ := other
          simp only at hfirst hfollows ⊢
          obtain ⟨rfl, rfl, hfirst⟩ := hfirst
          obtain ⟨hminted, hheads, hrest⟩ := ih hfirst hfollows
          refine ⟨?_, congrArg (f helper :: ·) hheads, hrest⟩
          cases fresh with
          | false => exact hminted
          | true => exact congrArg (.rule (f helper) [f s] :: ·) hminted

theorem noteOrigin (source? : Option Production) (q : Production) :
    Matches f (c.noteOrigin source? q)
      (d.noteOrigin (source?.map (Production.rename f)) (q.rename f)) := by
  cases source? with
  | none => exact hmatches
  | some source =>
      have hknown : d.directory.contains (q.rename f) =
          c.directory.contains q := by
        rw [hmatches.directory_eq, Directory.contains_rename hf]
      unfold Splitting.noteOrigin
      simp only [Option.map_some, hknown]
      split
      next => exact hmatches
      next =>
        refine ⟨hmatches.directory_eq, hmatches.helpers_eq, ?_,
          hmatches.output_eq, hmatches.left_taken, hmatches.right_taken⟩
        change d.origins.insertIfNew (q.rename f) (source.rename f) = _
        rw [hmatches.origins_eq, OrderedMap.insertIfNew_rename
          (Production.rename_injective hf)]

theorem cutIntoPairs (source? : Option Production) (head : Symbol)
    (heads : Form)
    (hfollows : Follows f (c.cutIntoPairs source? head heads).2
      (d.cutIntoPairs (source?.map (Production.rename f)) (f head)
        (heads.map f)).2) :
    let out := c.cutIntoPairs source? head heads
    let other := d.cutIntoPairs (source?.map (Production.rename f)) (f head)
      (heads.map f)
    other.1 = out.1.map (Production.rename f) ∧ Matches f out.2 other.2 := by
  induction heads generalizing c d source? head with
  | nil => exact ⟨rfl, hmatches.noteOrigin hf source? (.rule head [])⟩
  | cons first rest ih =>
      match rest with
      | [] => exact ⟨rfl, hmatches.noteOrigin hf source? (.rule head [first])⟩
      | [second] =>
          exact ⟨rfl,
            hmatches.noteOrigin hf source? (.rule head [first, second])⟩
      | second :: third :: rest =>
          have hfirst := hmatches.standIn hf (second :: third :: rest)
            (hfollows.mono
              (keys_chain _ _ _ _ _ _ _)
              (keys_chain _ _ _ _ _ _ _))
          unfold Splitting.cutIntoPairs at hfollows ⊢
          simp only [List.map_cons] at hfirst hfollows ⊢
          generalize c.standIn (second :: third :: rest) = out at *
          generalize d.standIn (f second :: f third :: rest.map f) = other at *
          obtain ⟨⟨helper, _⟩, c⟩ := out
          obtain ⟨⟨_, fresh⟩, d⟩ := other
          simp only at hfirst hfollows ⊢
          obtain ⟨rfl, rfl, hfirst⟩ := hfirst
          have hnoted := hfirst.noteOrigin hf source?
            (.rule head [first, helper])
          cases fresh with
          | false => exact ⟨rfl, hnoted⟩
          | true =>
              obtain ⟨hrest, hlast⟩ := ih hnoted none helper hfollows
              refine ⟨?_, hlast⟩
              exact congrArg
                (Production.rule (f head) [f first, f helper] :: ·) hrest

theorem withOutput {qs rs : List Production}
    (hqs : rs = qs.map (Production.rename f)) :
    Matches f { c with output := extendNew c.output qs }
      { d with output := extendNew d.output rs } := by
  refine ⟨hmatches.directory_eq, hmatches.helpers_eq, hmatches.origins_eq, ?_,
    hmatches.left_taken, hmatches.right_taken⟩
  rw [hqs, hmatches.output_eq, map_extendNew (Production.rename_injective hf)]

/-- A production that is kept is taken apart alike. -/
theorem takeApart {p : Production} {head : Symbol} (hkept : p.rename f = p)
    (hhead : p.head? = some head)
    (hfollows :
      let left := c.replaceTerminals p.rhs
      let right := d.replaceTerminals p.rhs
      Follows f (left.2.cutIntoPairs (some p) head left.1.2).2
        (right.2.cutIntoPairs (some p) head right.1.2).2) :
    let left := c.replaceTerminals p.rhs
    let right := d.replaceTerminals p.rhs
    let leftCut := left.2.cutIntoPairs (some p) head left.1.2
    let rightCut := right.2.cutIntoPairs (some p) head right.1.2
    right.1.1 ++ rightCut.1 =
        (left.1.1 ++ leftCut.1).map (Production.rename f) ∧
      Matches f leftCut.2 rightCut.2 := by
  have hrhs : p.rhs.map f = p.rhs := congrArg Production.rhs hkept
  have hsame : f head = head := by
    have hmoved := Production.head?_rename hf p
    rw [hkept, hhead] at hmoved
    exact (Option.some.inj hmoved).symm
  have hreplaced := hmatches.replaceTerminals hf p.rhs
  rw [hrhs] at hreplaced
  simp only at hfollows hreplaced ⊢
  obtain ⟨hminted, hheads, hrest⟩ := hreplaced (hfollows.mono
    (keys_cutIntoPairs _ _ _ _) (keys_cutIntoPairs _ _ _ _))
  have hcut := hrest.cutIntoPairs hf (some p) head
    (c.replaceTerminals p.rhs).1.2
  rw [← hheads, hsame, Option.map_some, hkept] at hcut
  obtain ⟨hpairs, hlast⟩ := hcut hfollows
  exact ⟨by rw [hminted, hpairs, List.map_append], hlast⟩

theorem split {p : Production} {head : Symbol} {qs rs : List Production}
    (hkept : p.rename f = p) (hhead : p.head? = some head)
    (hc : c.split p = .ok (qs, c')) (hd : d.split p = .ok (rs, d'))
    (hfollows : Follows f c' d') : Matches f c' d' := by
  have htakeApart := hmatches.takeApart hf hkept hhead
  unfold Splitting.split at hc hd
  cases hshape : p.shape with
  | lambda => simp [hshape, hhead] at hc
  | unit => simp [hshape, hhead] at hc
  | chomsky =>
      simp only [hshape, hhead] at hc hd
      cases hc
      cases hd
      have hsame : [p] = [p].map (Production.rename f) := by
        rw [List.map_singleton, hkept]
      exact hmatches.withOutput hf hsame
  | _ =>
      simp only [hshape, hhead] at hc hd
      cases hc
      cases hd
      obtain ⟨hqs, hlast⟩ := htakeApart hfollows
      exact hlast.withOutput hf hqs

theorem foldlM {ps : List Production} (hkept : ∀ p ∈ ps, p.rename f = p)
    (hheads : ∀ p ∈ ps, p.hasHead = true)
    (hc : ps.foldlM (fun c p => (c.split p).map Prod.snd) c = .ok c')
    (hd : ps.foldlM (fun c p => (c.split p).map Prod.snd) d = .ok d')
    (hfollows : Follows f c' d') : Matches f c' d' := by
  induction ps generalizing c d with
  | nil =>
      cases hc
      cases hd
      exact hmatches
  | cons p ps ih =>
      obtain ⟨head, hhead⟩ :=
        Option.isSome_iff_exists.mp (hheads p List.mem_cons_self)
      obtain ⟨_, _, hleft, hc⟩ := exists_split_of_foldlM hc
      obtain ⟨_, _, hright, hd⟩ := exists_split_of_foldlM hd
      have hfirst := hmatches.split hf (hkept p List.mem_cons_self) hhead
        hleft hright (hfollows.mono (keys_foldlM hc) (keys_foldlM hd))
      exact ih hfirst (fun q hq => hkept q (List.mem_cons_of_mem p hq))
        (fun q hq => hheads q (List.mem_cons_of_mem p hq)) hc hd

end Matches

theorem matches_ofGrammar (hf : Renames f) (hkept : g.KeptBy f)
    (naming other : Naming) :
    Matches f (ofGrammar g naming) (ofGrammar g other) :=
  ⟨(Directory.rename_ofGrammar hf hkept).symm, rfl, rfl, rfl,
    fun _ hs => absurd hs List.not_mem_nil,
    fun _ hs => absurd hs List.not_mem_nil⟩

/-- The last states of two splittings of one grammar are renamings of each
other, whatever the namings are. -/
theorem exists_matches (hg : g.Consistent) (hfree : g.ContextFree)
    {naming other : Naming} {last final : Splitting}
    (hlast : g.productions.foldlM (fun c p => (c.split p).map Prod.snd)
      (ofGrammar g naming) = .ok last)
    (hfinal : g.productions.foldlM (fun c p => (c.split p).map Prod.snd)
      (ofGrammar g other) = .ok final) :
    ∃ f, Renames f ∧ g.KeptBy f ∧ Matches f last final := by
  have hleft := ((complete_ofGrammar hg hfree naming).foldlM hfree
    (fun p hp => hp) hlast).sound
  have hright := ((complete_ofGrammar hg hfree other).foldlM hfree
    (fun p hp => hp) hfinal).sound
  have hvars : ∀ s ∈ last.helpers.keys ++ final.helpers.keys,
      s.isVar = true := by
    intro s hs
    rcases List.mem_append.mp hs with hs | hs
    · exact (hleft.helpers_taken s hs).1
    · exact (hright.helpers_taken s hs).1
  have hnew : ∀ s, (∃ p ∈ g.productions, s ∈ p.symbols) →
      s ∉ last.helpers.keys ++ final.helpers.keys := by
    intro s hoccurs hmem
    rcases hoccurs with ⟨p, hp, hs⟩
    rcases List.mem_append.mp hmem with hmem | hmem
    · exact hleft.helpers_new p hp s hs hmem
    · exact hright.helpers_new p hp s hs hmem
  rcases exists_renames (fun s => ∃ p ∈ g.productions, s ∈ p.symbols)
    hleft.helpers_nodup hright.helpers_nodup hvars hnew with
    ⟨f, hf, hkept, hfollows⟩
  have hkeeps : g.KeptBy f := fun p hp s hs => hkept s ⟨p, hp, hs⟩
  exact ⟨f, hf, hkeeps, (matches_ofGrammar hf hkeeps naming other).foldlM hf
    (fun p hp => hkeeps.rename_eq hp) hfree hlast hfinal hfollows⟩

end Splitting

/-! ## Two conversions -/

namespace ChomskyForm

variable {c d : ChomskyForm}

/-- What recognition reads of the one is renamed in the other. -/
structure Renamed (f : Symbol → Symbol) (c d : ChomskyForm) : Prop where
  productions_eq : d.grammar.productions =
    c.grammar.productions.map (Production.rename f)
  origins_eq : d.origins =
    c.origins.rename (Production.rename f) (Production.rename f)

theorem renamed_finish {last final : Splitting} (hf : Renames f)
    (hmatches : Splitting.Matches f last final)
    (hc : last.finish g = .ok c) (hd : final.finish g = .ok d) :
    Renamed f c d := by
  rcases Splitting.finish_eq_ok_iff.mp hc with ⟨_, rfl⟩
  rcases Splitting.finish_eq_ok_iff.mp hd with ⟨_, rfl⟩
  refine ⟨?_, hmatches.origins_eq⟩
  simp only [Grammar.productions_withProductions, hmatches.output_eq]
  exact (map_extendNew (Production.rename_injective hf) [] _).symm

/-- Any two namings give the same normal form up to a renaming of helpers. -/
theorem exists_renamed (hg : g.Consistent)
    (hstart : g.requireContextFree = .ok start) {naming other : Naming}
    (hc : g.toChomskyForm naming = .ok c)
    (hd : g.toChomskyForm other = .ok d) :
    ∃ f, Renames f ∧ g.KeptBy f ∧ Renamed f c d := by
  have hfree := (Grammar.requireContextFree_eq_ok_iff.mp hstart).2
  rcases exists_last hstart hc with ⟨last, hlastFold, hlast⟩
  rcases exists_last hstart hd with ⟨final, hfinalFold, hfinal⟩
  rcases Splitting.exists_matches hg hfree hlastFold hfinalFold with
    ⟨f, hf, hkeeps, hmatches⟩
  exact ⟨f, hf, hkeeps, renamed_finish hf hmatches hlast hfinal⟩

/-! ## Trees are carried back alike -/

section Restoring

variable (hf : Renames f) (hrenamed : Renamed f c d)

/-- Both ways of carrying a tree back commute with the renaming. -/
structure RestoresAlike (f : Symbol → Symbol) (c d : ChomskyForm)
    (tree : Tree) : Prop where
  restore : d.restore (tree.rename f) = (c.restore tree).rename f
  inside : ∀ form, d.restoreInside (form.map f) (tree.rename f) =
    (c.restoreInside form tree).map (Tree.rename f)

include hf in
theorem restoreOnto_rename {children : List Tree}
    (hchildren : ∀ child ∈ children, RestoresAlike f c d child)
    (form : Form) :
    d.restoreOnto (form.map f) (children.map (Tree.rename f)) =
      (c.restoreOnto form children).map (Tree.rename f) := by
  have hsymbol : ∀ s, ∀ child ∈ children,
      (if (f s).isTerm then Tree.leaf (f s) else d.restore (child.rename f)) =
        (if s.isTerm then Tree.leaf s else c.restore child).rename f := by
    intro s child hchild
    rw [hf.isTerm_eq, (hchildren child hchild).restore]
    split <;> rfl
  induction form generalizing children with
  | nil => cases children <;> rfl
  | cons s form ih =>
      cases children with
      | nil => cases form <;> rfl
      | cons child more =>
          have hfirst := hsymbol s child List.mem_cons_self
          have hrest := ih (fun child hchild =>
              hchildren child (List.mem_cons_of_mem _ hchild))
            (fun s child hchild => hsymbol s child
              (List.mem_cons_of_mem _ hchild))
          match form, more with
          | [], [] => exact congrArg₂ List.cons hfirst hrest
          | [], _ :: _ => exact congrArg₂ List.cons hfirst hrest
          | _ :: _, _ :: _ => exact congrArg₂ List.cons hfirst hrest
          | next :: rest, [] =>
              exact (hchildren child List.mem_cons_self).inside
                (s :: next :: rest)

include hf hrenamed in
theorem restoresAlike (tree : Tree) : RestoresAlike f c d tree := by
  induction tree using Tree.induction with
  | leaf s => exact ⟨rfl, fun _ => rfl⟩
  | node s p children ih =>
      have honto := restoreOnto_rename hf ih
      constructor
      · have horigin : d.origins.get? (p.rename f) =
            (c.origins.get? p).map (Production.rename f) := by
          rw [hrenamed.origins_eq,
            OrderedMap.get?_rename (Production.rename_injective hf)]
        unfold Tree.rename restore
        rw [horigin, Tree.renameAll_eq_map]
        cases c.origins.get? p with
        | none =>
            have hall : d.restoreAll (children.map (Tree.rename f)) =
                Tree.renameAll f (c.restoreAll children) := by
              rw [restoreAll_eq_map, restoreAll_eq_map, Tree.renameAll_eq_map,
                List.map_map, List.map_map]
              exact List.map_congr_left fun child hchild =>
                (ih child hchild).restore
            exact congrArg (Tree.node (f s) (p.rename f)) hall
        | some source =>
            have hsource := honto source.rhs
            rw [← Tree.renameAll_eq_map f (c.restoreOnto _ _)] at hsource
            exact congrArg (Tree.node (f s) (source.rename f)) hsource
      · intro form
        unfold Tree.rename restoreInside
        rw [Tree.renameAll_eq_map]
        exact honto form

end Restoring

end ChomskyForm

end FormalGrammars
