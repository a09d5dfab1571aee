import FormalGrammars.Lookahead.Follow
import FormalGrammars.Proofs.First
import Mathlib.Tactic.ByContra

/-!
# FOLLOW sets are the least solution of their rules

`Follows` is the least family with the end of the input behind the start, the
beginning of the tail behind each variable on a right side, and whatever
follows the head behind a variable with a nullable tail.  The scan enters the
first two rules and notes the third one as flows.  While the worklist runs,
every flow from a variable outside the queue is satisfied; the queue and the
look-aheads that are still missing bound the number of rounds, so the queue is
empty at the end.
-/

namespace FormalGrammars

namespace Grammar

/-- The variable `s` stands on the right of a production of `head`, with
`tail` behind it. -/
def Precedes (g : Grammar) (head s : Symbol) (tail : Form) : Prop :=
  s.isVar = true ∧ ∃ p ∈ g.productions, p.head? = some head ∧
    ∃ before, p.rhs = before ++ s :: tail

/-- What can stand behind a variable by the rules for FOLLOW. -/
inductive Follows (g : Grammar) (start : Symbol) : Symbol → Lookahead → Prop where
  | atEnd : Follows g start start .endOfInput
  | tail {head s : Symbol} {tail : Form} {x : Lookahead}
      (hprecedes : g.Precedes head s tail) (hx : x ≠ .lambda)
      (hbegins : g.Begins tail x) : Follows g start s x
  | head {head s : Symbol} {tail : Form} {x : Lookahead}
      (hprecedes : g.Precedes head s tail) (htail : g.Yields tail [])
      (hfollows : Follows g start head x) : Follows g start s x

end Grammar

theorem exists_split_cons_iff {α : Type} {s t : α} {rest : List α}
    {motive : List α → Prop} :
    (∃ before tail, s :: rest = before ++ t :: tail ∧ motive tail) ↔
      (s = t ∧ motive rest) ∨
        ∃ before tail, rest = before ++ t :: tail ∧ motive tail := by
  constructor
  · rintro ⟨before, tail, heq, htail⟩
    cases before with
    | nil =>
        obtain ⟨rfl, rfl⟩ := List.cons.inj heq
        exact .inl ⟨rfl, htail⟩
    | cons u before =>
        obtain ⟨-, hrest⟩ := List.cons.inj heq
        exact .inr ⟨before, tail, hrest, htail⟩
  · rintro (⟨rfl, htail⟩ | ⟨before, tail, rfl, htail⟩)
    · exact ⟨[], rest, rfl, htail⟩
    · exact ⟨s :: before, tail, rfl, htail⟩

namespace FollowScan

variable {first : FirstSets}

/-! ## The scan -/

theorem mem_follow_note {head s t : Symbol} {scan : FollowScan} {tail : Form}
    {x : Lookahead} :
    x ∈ (scan.note first head s tail).follow.getD t [] ↔
      x ∈ scan.follow.getD t [] ∨
        (t = s ∧ x ≠ .lambda ∧ x ∈ first.ofForm tail) := by
  unfold note
  rw [OrderedMap.getD_alter]
  by_cases heq : t = s
  · subst heq
    simp [and_comm]
  · simp [heq]

theorem mem_flows_note {head s t u : Symbol} {scan : FollowScan}
    {tail : Form} :
    u ∈ (scan.note first head s tail).flows.getD t [] ↔
      u ∈ scan.flows.getD t [] ∨
        (t = head ∧ u = s ∧ s ≠ head ∧ .lambda ∈ first.ofForm tail) := by
  unfold note
  by_cases hflow : s ≠ head ∧ Lookahead.lambda ∈ first.ofForm tail
  · simp only [if_pos hflow, OrderedMap.getD_alter]
    by_cases heq : t = head
    · subst heq
      simp [hflow.1, hflow.2]
    · simp [heq]
  · simp [hflow]

theorem mem_follow_scanRightSide {head t : Symbol} {scan : FollowScan}
    {form : Form} {x : Lookahead} :
    x ∈ (scan.scanRightSide first head form).follow.getD t [] ↔
      x ∈ scan.follow.getD t [] ∨
        (t.isVar = true ∧ x ≠ .lambda ∧
          ∃ before tail, form = before ++ t :: tail ∧
            x ∈ first.ofForm tail) := by
  induction form with
  | nil => simp [scanRightSide]
  | cons s rest ih =>
      rw [exists_split_cons_iff]
      simp only [scanRightSide]
      by_cases hvar : s.isVar = true
      · rw [if_pos hvar, mem_follow_note, ih]
        constructor
        · rintro ((hx | ⟨ht, hne, hx⟩) | ⟨rfl, hne, hx⟩)
          · exact .inl hx
          · exact .inr ⟨ht, hne, .inr hx⟩
          · exact .inr ⟨hvar, hne, .inl ⟨rfl, hx⟩⟩
        · rintro (hx | ⟨ht, hne, ⟨rfl, hx⟩ | hx⟩)
          · exact .inl (.inl hx)
          · exact .inr ⟨rfl, hne, hx⟩
          · exact .inl (.inr ⟨ht, hne, hx⟩)
      · rw [if_neg hvar, ih]
        constructor
        · rintro (hx | ⟨ht, hne, hx⟩)
          · exact .inl hx
          · exact .inr ⟨ht, hne, .inr hx⟩
        · rintro (hx | ⟨ht, hne, ⟨rfl, hx⟩ | hx⟩)
          · exact .inl hx
          · exact absurd ht hvar
          · exact .inr ⟨ht, hne, hx⟩

theorem mem_flows_scanRightSide {head t u : Symbol} {scan : FollowScan}
    {form : Form} :
    u ∈ (scan.scanRightSide first head form).flows.getD t [] ↔
      u ∈ scan.flows.getD t [] ∨
        (t = head ∧ u.isVar = true ∧ u ≠ head ∧
          ∃ before tail, form = before ++ u :: tail ∧
            .lambda ∈ first.ofForm tail) := by
  induction form with
  | nil => simp [scanRightSide]
  | cons s rest ih =>
      rw [exists_split_cons_iff]
      simp only [scanRightSide]
      by_cases hvar : s.isVar = true
      · rw [if_pos hvar, mem_flows_note, ih]
        constructor
        · rintro ((hu | ⟨ht, hu, hne, hx⟩) | ⟨ht, rfl, hne, hx⟩)
          · exact .inl hu
          · exact .inr ⟨ht, hu, hne, .inr hx⟩
          · exact .inr ⟨ht, hvar, hne, .inl ⟨rfl, hx⟩⟩
        · rintro (hu | ⟨ht, hu, hne, ⟨rfl, hx⟩ | hx⟩)
          · exact .inl (.inl hu)
          · exact .inr ⟨ht, rfl, hne, hx⟩
          · exact .inl (.inr ⟨ht, hu, hne, hx⟩)
      · rw [if_neg hvar, ih]
        constructor
        · rintro (hu | ⟨ht, hu, hne, hx⟩)
          · exact .inl hu
          · exact .inr ⟨ht, hu, hne, .inr hx⟩
        · rintro (hu | ⟨ht, hu, hne, ⟨rfl, hx⟩ | hx⟩)
          · exact .inl hu
          · exact absurd hu hvar
          · exact .inr ⟨ht, hu, hne, hx⟩

theorem mem_follow_scan {ps : List Production} {t : Symbol}
    {scan : FollowScan} {x : Lookahead} :
    x ∈ (ps.foldl (scanProduction first) scan).follow.getD t [] ↔
      x ∈ scan.follow.getD t [] ∨
        ∃ p ∈ ps, p.hasHead = true ∧ t.isVar = true ∧ x ≠ .lambda ∧
          ∃ before tail, p.rhs = before ++ t :: tail ∧
            x ∈ first.ofForm tail := by
  induction ps generalizing scan with
  | nil => simp
  | cons p ps ih =>
      rw [List.foldl_cons, ih]
      simp only [List.mem_cons, exists_eq_or_imp]
      rw [← or_assoc]
      apply or_congr_left
      unfold scanProduction Production.hasHead
      cases p.head? with
      | none => simp
      | some head => simp [mem_follow_scanRightSide]

theorem mem_flows_scan {ps : List Production} {t u : Symbol}
    {scan : FollowScan} :
    u ∈ (ps.foldl (scanProduction first) scan).flows.getD t [] ↔
      u ∈ scan.flows.getD t [] ∨
        ∃ p ∈ ps, p.head? = some t ∧ u.isVar = true ∧ u ≠ t ∧
          ∃ before tail, p.rhs = before ++ u :: tail ∧
            .lambda ∈ first.ofForm tail := by
  induction ps generalizing scan with
  | nil => simp
  | cons p ps ih =>
      rw [List.foldl_cons, ih]
      simp only [List.mem_cons, exists_eq_or_imp]
      rw [← or_assoc]
      apply or_congr_left
      unfold scanProduction
      cases p.head? with
      | none => simp
      | some head =>
          simp only [mem_flows_scanRightSide, Option.some.injEq]
          apply or_congr_right
          constructor
          · rintro ⟨rfl, hu⟩
            exact ⟨rfl, hu⟩
          · rintro ⟨rfl, hu⟩
            exact ⟨rfl, hu⟩

/-- Every variable into which a set flows has a set of its own. -/
def Targeted (scan : FollowScan) : Prop :=
  ∀ t u, u ∈ scan.flows.getD t [] → u ∈ scan.follow.keys

theorem Targeted.note {scan : FollowScan} (hscan : scan.Targeted)
    {head s : Symbol} {tail : Form} :
    (scan.note first head s tail).Targeted := by
  intro t u hu
  unfold FollowScan.note
  rw [OrderedMap.keys_alter, mem_insertNew]
  rcases mem_flows_note.mp hu with hu | ⟨_, hu, _⟩
  · exact .inl (hscan t u hu)
  · exact .inr hu

theorem Targeted.scanRightSide {scan : FollowScan} (hscan : scan.Targeted)
    {head : Symbol} (form : Form) :
    (scan.scanRightSide first head form).Targeted := by
  induction form with
  | nil => exact hscan
  | cons s rest ih =>
      simp only [FollowScan.scanRightSide]
      split
      next => exact ih.note
      next => exact ih

theorem Targeted.scan {scan : FollowScan} (hscan : scan.Targeted)
    (ps : List Production) :
    (ps.foldl (scanProduction first) scan).Targeted := by
  apply List.foldlRecOn (motive := Targeted)
  · exact hscan
  · intro scan hscan p _
    unfold scanProduction
    split
    next => exact hscan
    next => exact hscan.scanRightSide p.rhs

/-! ## The worklist -/

theorem mem_pour {source : List Lookahead}
    {state : OrderedMap Symbol (List Lookahead) × List Symbol}
    {target s : Symbol} {x : Lookahead} :
    x ∈ (pour source state target).1.getD s [] ↔
      x ∈ state.1.getD s [] ∨ (s = target ∧ x ∈ source) := by
  unfold pour
  rw [OrderedMap.getD_insert]
  by_cases heq : s = target
  · subst heq
    simp
  · simp [heq]

theorem pour_snd (source : List Lookahead)
    (state : OrderedMap Symbol (List Lookahead) × List Symbol)
    (target : Symbol) :
    (pour source state target).2 =
      if (state.1.getD target []).length <
          (extendNew (state.1.getD target []) source).length then
        insertNew state.2 target
      else state.2 :=
  rfl

theorem mem_queue_pour {source : List Lookahead}
    {state : OrderedMap Symbol (List Lookahead) × List Symbol}
    {target s : Symbol} (hs : s ∈ state.2) :
    s ∈ (pour source state target).2 := by
  rw [pour_snd]
  split
  next => exact mem_insertNew.mpr (.inl hs)
  next => exact hs

theorem length_extendNew_lt {α : Type} [DecidableEq α] {xs ys : List α}
    {y : α} (hy : y ∈ ys) (hnew : y ∉ xs) :
    xs.length < (extendNew xs ys).length := by
  obtain ⟨added, hadded⟩ := prefix_extendNew xs ys
  have hmem : y ∈ xs ++ added := by
    rw [hadded]
    exact mem_extendNew.mpr (.inr hy)
  rw [← hadded, List.length_append]
  have hy : y ∈ added := (List.mem_append.mp hmem).resolve_left hnew
  have hpos := List.length_pos_of_mem hy
  omega

theorem mem_queue_of_grown {source : List Lookahead}
    {state : OrderedMap Symbol (List Lookahead) × List Symbol}
    {target s : Symbol} {x : Lookahead}
    (hold : x ∉ state.1.getD s [])
    (hnew : x ∈ (pour source state target).1.getD s []) :
    s ∈ (pour source state target).2 := by
  rcases mem_pour.mp hnew with hx | ⟨rfl, hx⟩
  · exact absurd hx hold
  · rw [pour_snd, if_pos (length_extendNew_lt hx hold)]
    exact mem_insertNew.mpr (.inr rfl)

/-- The look-aheads that are missing from the sets of the given variables. -/
def shortage (ks : List Symbol) (xs : List Lookahead)
    (follow : OrderedMap Symbol (List Lookahead)) : Nat :=
  (missing (ks ×ˢ xs) fun entry =>
    decide (entry.2 ∈ follow.getD entry.1 [])).length

/-- The queue grows by at most what the shortage shrinks. -/
theorem length_add_shortage_pour_le {source xs : List Lookahead}
    {ks : List Symbol}
    (state : OrderedMap Symbol (List Lookahead) × List Symbol)
    {target : Symbol} (htarget : target ∈ ks)
    (hsource : ∀ x ∈ source, x ∈ xs) :
    (pour source state target).2.length +
        shortage ks xs (pour source state target).1 ≤
      state.2.length + shortage ks xs state.1 := by
  have hsub : ∀ entry : Symbol × Lookahead,
      decide (entry.2 ∈ state.1.getD entry.1 []) = true →
        decide (entry.2 ∈ (pour source state target).1.getD entry.1 []) =
          true := by
    intro entry hentry
    rw [decide_eq_true_eq] at hentry ⊢
    exact mem_pour.mpr (.inl hentry)
  by_cases hall : ∀ x ∈ source, x ∈ state.1.getD target []
  · have hqueue : (pour source state target).2 = state.2 := by
      rw [pour_snd, extendNew_eq_self hall]
      simp
    rw [hqueue]
    exact Nat.add_le_add_left (missing_length_le _ hsub) _
  · simp only [not_forall] at hall
    obtain ⟨x, hx, hnew⟩ := hall
    have hlt : shortage ks xs (pour source state target).1 <
        shortage ks xs state.1 := by
      apply missing_length_lt (target, x) hsub
      · exact List.mem_product.mpr ⟨htarget, hsource x hx⟩
      · exact decide_eq_false hnew
      · exact decide_eq_true (mem_pour.mpr (.inr ⟨rfl, hx⟩))
    have hqueue : (pour source state target).2.length ≤
        state.2.length + 1 := by
      rw [pour_snd, insertNew]
      split
      next =>
        split
        next => omega
        next => simp
      next => omega
    omega

/-- One round: the set of a variable flows into all its targets. -/
structure Poured (source : List Lookahead) (targets : List Symbol)
    (old new : OrderedMap Symbol (List Lookahead) × List Symbol) : Prop where
  mem_iff : ∀ s x, x ∈ new.1.getD s [] ↔
    x ∈ old.1.getD s [] ∨ (s ∈ targets ∧ x ∈ source)
  queue : ∀ s ∈ old.2, s ∈ new.2
  grown : ∀ s x, x ∉ old.1.getD s [] → x ∈ new.1.getD s [] → s ∈ new.2
  bound : ∀ ks xs, (∀ s ∈ targets, s ∈ ks) → (∀ x ∈ source, x ∈ xs) →
    new.2.length + shortage ks xs new.1 ≤
      old.2.length + shortage ks xs old.1

theorem poured_foldl (source : List Lookahead) (targets : List Symbol)
    (state : OrderedMap Symbol (List Lookahead) × List Symbol) :
    Poured source targets state (targets.foldl (pour source) state) := by
  induction targets generalizing state with
  | nil =>
      exact ⟨by simp, fun _ hs => hs, fun _ _ hold hnew => absurd hnew hold,
        fun _ _ _ _ => Nat.le_refl _⟩
  | cons target targets ih =>
      have hrest := ih (pour source state target)
      rw [List.foldl_cons]
      constructor
      · intro s x
        rw [hrest.mem_iff, mem_pour, List.mem_cons, or_and_right, or_assoc]
      · intro s hs
        exact hrest.queue s (mem_queue_pour hs)
      · intro s x hold hnew
        by_cases hx : x ∈ (pour source state target).1.getD s []
        · exact hrest.queue s (mem_queue_of_grown hold hx)
        · exact hrest.grown s x hx hnew
      · intro ks xs htargets hsource
        have hfirst := length_add_shortage_pour_le state
          (htargets target List.mem_cons_self) hsource
        have hothers := hrest.bound ks xs
          (fun s hs => htargets s (List.mem_cons_of_mem target hs)) hsource
        omega

/-- The flows from the variables outside the queue are satisfied. -/
def Settled (flows : OrderedMap Symbol (List Symbol))
    (follow : OrderedMap Symbol (List Lookahead)) (queue : List Symbol) : Prop :=
  ∀ s, s ∉ queue → ∀ t ∈ flows.getD s [],
    ∀ x ∈ follow.getD s [], x ∈ follow.getD t []

theorem Settled.round {flows : OrderedMap Symbol (List Symbol)}
    {follow : OrderedMap Symbol (List Lookahead)} {s : Symbol}
    {queue : List Symbol} (hsettled : Settled flows follow (s :: queue))
    {new : OrderedMap Symbol (List Lookahead) × List Symbol}
    (hpoured : Poured (follow.getD s []) (flows.getD s []) (follow, queue) new) :
    Settled flows new.1 new.2 := by
  intro t ht u hu x hx
  rw [hpoured.mem_iff]
  have hold : x ∈ follow.getD t [] := by
    by_contra hnot
    exact ht (hpoured.grown t x hnot hx)
  by_cases heq : t = s
  · subst heq
    exact .inr ⟨hu, hold⟩
  · have hqueue : t ∉ s :: queue := by
      rw [List.mem_cons]
      rintro (h | h)
      · exact heq h
      · exact ht (hpoured.queue t h)
    exact .inl (hsettled t hqueue u hu x hold)

/-- What holds of all the sets and flows along holds after a round. -/
theorem Poured.keeps {flows : OrderedMap Symbol (List Symbol)}
    {follow : OrderedMap Symbol (List Lookahead)} {s : Symbol}
    {queue : List Symbol}
    {new : OrderedMap Symbol (List Lookahead) × List Symbol}
    (hpoured : Poured (follow.getD s []) (flows.getD s []) (follow, queue) new)
    {motive : Symbol → Lookahead → Prop}
    (hmotive : ∀ t ∈ flows.getD s [], ∀ x, motive s x → motive t x)
    (hfollow : ∀ t, ∀ x ∈ follow.getD t [], motive t x) :
    ∀ t, ∀ x ∈ new.1.getD t [], motive t x := by
  intro t x hx
  rcases (hpoured.mem_iff t x).mp hx with hx | ⟨ht, hx⟩
  · exact hfollow t x hx
  · exact hmotive t ht x (hfollow s x hx)

/-- The end of the worklist: all flows are satisfied, and the sets hold what
they held before and what the flows brought. -/
theorem settle_spec {flows : OrderedMap Symbol (List Symbol)}
    (ks : List Symbol) {xs : List Lookahead}
    {motive : Symbol → Lookahead → Prop}
    (hflows : ∀ s, ∀ t ∈ flows.getD s [], t ∈ ks)
    (hmotive : ∀ s, ∀ t ∈ flows.getD s [], ∀ x, motive s x → motive t x)
    (fuel : Nat) {follow : OrderedMap Symbol (List Lookahead)}
    {queue : List Symbol} (hsettled : Settled flows follow queue)
    (hknown : ∀ s, ∀ x ∈ follow.getD s [], motive s x ∧ x ∈ xs)
    (hfuel : queue.length + shortage ks xs follow ≤ fuel) :
    Settled flows (settle flows fuel follow queue) [] ∧
      (∀ s, ∀ x ∈ follow.getD s [],
        x ∈ (settle flows fuel follow queue).getD s []) ∧
      ∀ s, ∀ x ∈ (settle flows fuel follow queue).getD s [],
        motive s x ∧ x ∈ xs := by
  induction fuel generalizing follow queue with
  | zero =>
      have hqueue : queue = [] := List.length_eq_zero_iff.mp (by omega)
      subst hqueue
      exact ⟨hsettled, fun _ _ hx => hx, hknown⟩
  | succ fuel ih =>
      cases queue with
      | nil => exact ⟨hsettled, fun _ _ hx => hx, hknown⟩
      | cons s queue =>
          have hpoured := poured_foldl (follow.getD s []) (flows.getD s [])
            (follow, queue)
          have hbound := hpoured.bound ks xs (hflows s)
            fun x hx => (hknown s x hx).2
          -- A variable joins the queue only when its set has grown.
          have hnext := ih (hsettled.round hpoured) ?_ ?_
          · refine ⟨hnext.1, fun t x hx => ?_, hnext.2.2⟩
            exact hnext.2.1 t x ((hpoured.mem_iff t x).mpr (.inl hx))
          · exact hpoured.keeps
              (fun t ht x hx => ⟨hmotive s t ht x hx.1, hx.2⟩) hknown
          · simp only [List.length_cons] at hfuel hbound ⊢
            omega

/-- One round of the worklist; nothing is left to do when the queue is empty. -/
def round (flows : OrderedMap Symbol (List Symbol)) :
    OrderedMap Symbol (List Lookahead) × List Symbol →
      OrderedMap Symbol (List Lookahead) × List Symbol
  | (follow, []) => (follow, [])
  | (follow, s :: queue) =>
    (flows.getD s []).foldl (pour (follow.getD s [])) (follow, queue)

theorem stepTimes_round_nil (flows : OrderedMap Symbol (List Symbol))
    (count : Nat) (follow : OrderedMap Symbol (List Lookahead)) :
    stepTimes (round flows) count (follow, []) = (follow, []) :=
  stepTimes_of_fixed rfl count

/-- The bound on the rounds only stops them. -/
theorem settle_eq_stepTimes (flows : OrderedMap Symbol (List Symbol))
    (fuel : Nat) (follow : OrderedMap Symbol (List Lookahead))
    (queue : List Symbol) :
    settle flows fuel follow queue =
      (stepTimes (round flows) fuel (follow, queue)).1 := by
  induction fuel generalizing follow queue with
  | zero => rfl
  | succ fuel ih =>
      cases queue with
      | nil => rw [stepTimes_round_nil, settle]
      | cons s queue => exact ih _ _

/-- A round takes a variable from the queue and brings in others only for
look-aheads that were missing, so the queue runs empty. -/
theorem queue_stepTimes_round {flows : OrderedMap Symbol (List Symbol)}
    (ks : List Symbol) {xs : List Lookahead}
    (hflows : ∀ s, ∀ t ∈ flows.getD s [], t ∈ ks) (count : Nat)
    {follow : OrderedMap Symbol (List Lookahead)} {queue : List Symbol}
    (hknown : ∀ s, ∀ x ∈ follow.getD s [], x ∈ xs)
    (hcount : queue.length + shortage ks xs follow ≤ count) :
    (stepTimes (round flows) count (follow, queue)).2 = [] := by
  induction count generalizing follow queue with
  | zero =>
      have hqueue : queue.length = 0 := by omega
      exact List.length_eq_zero_iff.mp hqueue
  | succ count ih =>
      cases queue with
      | nil => rw [stepTimes_round_nil]
      | cons s queue =>
          have hpoured := poured_foldl (follow.getD s []) (flows.getD s [])
            (follow, queue)
          have hbound := hpoured.bound ks xs (hflows s) (hknown s)
          refine ih (hpoured.keeps (fun _ _ _ hx => hx) hknown) ?_
          simp only [List.length_cons] at hcount hbound
          omega

end FollowScan

namespace LookaheadSets

variable {g : Grammar} {start : Symbol}

def followDomain (g : Grammar) : List Lookahead :=
  .endOfInput :: g.terminals.map .symbol

def scanned (g : Grammar) (start : Symbol) : FollowScan :=
  g.productions.foldl (FollowScan.scanProduction g.firstSets)
    { follow := OrderedMap.alter ⟨g.variables.map fun s => (s, [])⟩ start []
        (insertNew · .endOfInput) }

theorem mem_scanned_follow (hg : g.Consistent) {s : Symbol} {x : Lookahead} :
    x ∈ (scanned g start).follow.getD s [] ↔
      (s = start ∧ x = .endOfInput) ∨
        ∃ head tail, g.Precedes head s tail ∧ x ≠ .lambda ∧
          g.Begins tail x := by
  unfold scanned
  rw [FollowScan.mem_follow_scan]
  apply or_congr
  · rw [OrderedMap.getD_alter]
    by_cases heq : s = start
    · simp [heq, OrderedMap.getD_emptyLists]
    · simp [heq, OrderedMap.getD_emptyLists]
  · constructor
    · rintro ⟨p, hmem, hhead, hvar, hx, before, tail, hrhs, hfirst⟩
      obtain ⟨head, hhead⟩ := Option.isSome_iff_exists.mp hhead
      exact ⟨head, tail, ⟨hvar, p, hmem, hhead, before, hrhs⟩, hx,
        (FirstSets.mem_ofForm_iff_begins hg).mp hfirst⟩
    · rintro ⟨head, tail, ⟨hvar, p, hmem, hhead, before, hrhs⟩, hx, hbegins⟩
      exact ⟨p, hmem, Option.isSome_iff_exists.mpr ⟨head, hhead⟩, hvar, hx,
        before, tail, hrhs, (FirstSets.mem_ofForm_iff_begins hg).mpr hbegins⟩

theorem mem_scanned_flows (hg : g.Consistent) {s t : Symbol} :
    t ∈ (scanned g start).flows.getD s [] ↔
      t ≠ s ∧ ∃ tail, g.Precedes s t tail ∧ g.Yields tail [] := by
  unfold scanned
  rw [FollowScan.mem_flows_scan]
  constructor
  · rintro (ht | ⟨p, hmem, hhead, hvar, hne, before, tail, hrhs, hfirst⟩)
    · simp [OrderedMap.getD, OrderedMap.get?] at ht
    · exact ⟨hne, tail, ⟨hvar, p, hmem, hhead, before, hrhs⟩,
        (FirstSets.mem_ofForm_iff_begins hg).mp hfirst⟩
  · rintro ⟨hne, tail, ⟨hvar, p, hmem, hhead, before, hrhs⟩, hnull⟩
    exact .inr ⟨p, hmem, hhead, hvar, hne, before, tail, hrhs,
      (FirstSets.mem_ofForm_iff_begins hg).mpr hnull⟩

theorem mem_followDomain_of_begins (hg : g.Consistent) {head s : Symbol}
    {tail : Form} (hprecedes : g.Precedes head s tail) {x : Lookahead}
    (hx : x ≠ .lambda) (hbegins : g.Begins tail x) :
    x ∈ followDomain g := by
  obtain ⟨_, p, hmem, _, before, hrhs⟩ := hprecedes
  have hopens := FirstSets.mem_ofForm.mp
    ((FirstSets.mem_ofForm_iff_begins hg).mpr hbegins)
  have htail : ∀ u ∈ tail, u.isTerm = true → u ∈ g.terminals := by
    intro u hu
    apply hg.mem_terminals_of_mem_rhs hmem
    rw [hrhs]
    exact List.mem_append_right _ (List.mem_cons_of_mem s hu)
  have hgrowing := (FirstSets.growing_and_fixed hg).1
  obtain ⟨t, ht, rfl⟩ := hgrowing.known_of_opens htail hopens hx
  exact List.mem_cons_of_mem _ (List.mem_map.mpr ⟨t, ht, rfl⟩)

theorem scanned_targeted : (scanned g start).Targeted := by
  apply FollowScan.Targeted.scan
  intro t u hu
  simp [OrderedMap.getD, OrderedMap.get?] at hu

theorem known_scanned (hg : g.Consistent) :
    ∀ s, ∀ x ∈ (scanned g start).follow.getD s [],
      g.Follows start s x ∧ x ∈ followDomain g := by
  intro s x hx
  rcases (mem_scanned_follow hg).mp hx with ⟨rfl, rfl⟩ | ⟨_, _, hp, hne, hb⟩
  · exact ⟨.atEnd, List.mem_cons_self⟩
  · exact ⟨.tail hp hne hb, mem_followDomain_of_begins hg hp hne hb⟩

/-- The number of rounds that are allowed is enough. -/
theorem scanned_rounds_le (g : Grammar) (start : Symbol) :
    (scanned g start).follow.keys.length +
        FollowScan.shortage (scanned g start).follow.keys (followDomain g)
          (scanned g start).follow ≤
      (scanned g start).follow.size * (g.terminals.length + 2) := by
  have hmissing : FollowScan.shortage (scanned g start).follow.keys
      (followDomain g) (scanned g start).follow ≤
      (scanned g start).follow.size * (g.terminals.length + 1) := by
    refine Nat.le_trans (List.length_filter_le _ _) ?_
    rw [List.length_product, OrderedMap.keys, List.length_map]
    simp [followDomain, OrderedMap.size]
  have hkeys : (scanned g start).follow.keys.length =
      (scanned g start).follow.size := List.length_map _
  have hrounds : (scanned g start).follow.size * (g.terminals.length + 2) =
      (scanned g start).follow.size * (g.terminals.length + 1) +
        (scanned g start).follow.size := Nat.mul_succ _ _
  omega

theorem followOf_spec (start : Symbol) (hg : g.Consistent) :
    FollowScan.Settled (scanned g start).flows
        (followOf g g.firstSets start) [] ∧
      (∀ s, ∀ x ∈ (scanned g start).follow.getD s [],
        x ∈ (followOf g g.firstSets start).getD s []) ∧
      ∀ s, ∀ x ∈ (followOf g g.firstSets start).getD s [],
        g.Follows start s x ∧ x ∈ followDomain g := by
  apply FollowScan.settle_spec (scanned g start).follow.keys
    (motive := g.Follows start)
  · exact scanned_targeted
  · intro s t ht x hx
    obtain ⟨_, tail, hprecedes, hnull⟩ := (mem_scanned_flows hg).mp ht
    exact .head hprecedes hnull hx
  · intro s hs t _ x hx
    rw [OrderedMap.getD_of_not_mem_keys hs] at hx
    simp at hx
  · exact known_scanned hg
  · exact scanned_rounds_le g start

/-- The worklist that starts with all variables runs empty, and what it has
collected then are the FOLLOW sets. -/
theorem exists_stepTimes_round_eq (start : Symbol) (hg : g.Consistent) :
    ∃ count, stepTimes (FollowScan.round (scanned g start).flows) count
        ((scanned g start).follow, (scanned g start).follow.keys) =
      (followOf g g.firstSets start, []) := by
  refine ⟨_, Prod.ext (FollowScan.settle_eq_stepTimes _ _ _ _).symm ?_⟩
  exact FollowScan.queue_stepTimes_round (scanned g start).follow.keys
    scanned_targeted _ (fun s x hx => (known_scanned hg s x hx).2)
    (scanned_rounds_le g start)

/-- FOLLOW of a variable is what can stand behind it. -/
theorem mem_followOf_iff (hg : g.Consistent) {s : Symbol} {x : Lookahead} :
    x ∈ (followOf g g.firstSets start).getD s [] ↔ g.Follows start s x := by
  obtain ⟨hsettled, hscanned, hsound⟩ := followOf_spec start hg
  refine ⟨fun hx => (hsound s x hx).1, fun hfollows => ?_⟩
  induction hfollows with
  | atEnd =>
      exact hscanned start _ ((mem_scanned_follow hg).mpr (.inl ⟨rfl, rfl⟩))
  | @tail head s tail x hprecedes hx hbegins =>
      exact hscanned s x ((mem_scanned_follow hg).mpr
        (.inr ⟨head, tail, hprecedes, hx, hbegins⟩))
  | @head head s tail x hprecedes htail _ ih =>
      by_cases heq : s = head
      · rw [heq]
        exact ih
      · exact hsettled head (by simp) s
          ((mem_scanned_flows hg).mpr ⟨heq, tail, hprecedes, htail⟩) x ih

/-! ## The sets of a grammar -/

theorem ofGrammar_eq_ok (hstart : g.requireContextFree = .ok start) :
    ∃ known, ofGrammar g =
      .ok ⟨g.firstSets, known, followOf g g.firstSets start⟩ := by
  unfold ofGrammar
  rw [hstart]
  exact ⟨_, rfl⟩

theorem mem_followOfVariable_iff (hg : g.Consistent)
    (hstart : g.requireContextFree = .ok start) {sets : LookaheadSets}
    (hsets : ofGrammar g = .ok sets) {s : Symbol} {x : Lookahead} :
    x ∈ sets.followOfVariable s ↔ g.Follows start s x := by
  obtain ⟨known, hok⟩ := ofGrammar_eq_ok hstart
  rw [hok] at hsets
  cases hsets
  exact mem_followOf_iff hg

theorem eq_of_ofGrammar {sets : LookaheadSets} (hsets : ofGrammar g = .ok sets) :
    sets.first = g.firstSets ∧
      sets.firstOfRightSides = g.productions.foldl
        (fun known p => known.insert p.rhs (g.firstSets.ofForm p.rhs))
        ⟨[]⟩ := by
  unfold ofGrammar at hsets
  cases hstart : g.requireContextFree with
  | error => rw [hstart] at hsets; cases hsets
  | ok start =>
      rw [hstart] at hsets
      cases hsets
      exact ⟨rfl, rfl⟩

theorem firstOf_ofGrammar {sets : LookaheadSets}
    (hsets : ofGrammar g = .ok sets) (form : Form) :
    sets.firstOf form = g.firstSets.ofForm form := by
  obtain ⟨hfirst, hknown⟩ := eq_of_ofGrammar hsets
  unfold firstOf
  rw [hfirst, hknown]
  apply List.foldlRecOn
    (motive := fun known : OrderedMap Form (List Lookahead) =>
      known.getD form (g.firstSets.ofForm form) = g.firstSets.ofForm form)
  · simp [OrderedMap.getD, OrderedMap.get?]
  · intro known hknown p _
    rw [OrderedMap.getD_insert]
    split
    next heq => rw [heq]
    next => exact hknown

end LookaheadSets

end FormalGrammars
