import FormalGrammars.Proofs.Editing

/-!
# Removals undo additions

An addition puts the new symbols of its production at the end of the tally, and
raises the counts of those that are there already.  The removal of the
production lowers all these counts again, and what it drops are the symbols
whose count was raised from nothing.  So the other symbols stay in their order,
and the grammar before the addition comes back as it was.
-/

namespace FormalGrammars

/-- A map with distinct keys is made up of its keys and their values. -/
theorem OrderedMap.entries_eq_map {κ ν : Type} [DecidableEq κ]
    {m : OrderedMap κ ν} (hkeys : m.keys.Nodup) (fallback : ν) :
    m.entries = m.keys.map fun key => (key, m.getD key fallback) := by
  have hentry : ∀ entry ∈ m.entries,
      (entry.1, m.getD entry.1 fallback) = id entry := by
    intro entry hentry
    rw [getD, get?_of_mem_entries hkeys hentry]
    rfl
  rw [keys, List.map_map]
  exact ((List.map_congr_left hentry).trans (List.map_id _)).symm

namespace Tally

variable {tally : Tally}

/-! ## Counting up and down -/

theorem keys_addAll (tally : Tally) (form : Form) :
    (tally.addAll form).keys = extendNew tally.keys form := by
  induction form generalizing tally with
  | nil => rfl
  | cons s form ih =>
      have hfold : tally.addAll (s :: form) = (tally.add s).addAll form := rfl
      rw [hfold, ih, add, OrderedMap.keys_alter]
      rfl

theorem exists_filter_remove (tally : Tally) (s : Symbol) :
    ∃ stays, (tally.remove s).keys = tally.keys.filter stays := by
  have hall : tally.keys.filter (fun _ => true) = tally.keys :=
    List.filter_eq_self.mpr fun _ _ => rfl
  unfold remove
  cases hget : OrderedMap.get? tally s with
  | none => exact ⟨fun _ => true, hall.symm⟩
  | some count =>
      by_cases hlast : count ≤ 1
      · refine ⟨fun t => t ≠ s, ?_⟩
        simp only [if_pos hlast]
        exact OrderedMap.keys_erase tally s
      · refine ⟨fun _ => true, ?_⟩
        simp only [if_neg hlast]
        rw [OrderedMap.keys_insert, hall]
        exact insertNew_eq_self (OrderedMap.mem_keys_of_get? hget)

theorem exists_filter_removeAll (tally : Tally) (form : Form) :
    ∃ stays, (tally.removeAll form).keys = tally.keys.filter stays := by
  induction form generalizing tally with
  | nil =>
      exact ⟨fun _ => true, (List.filter_eq_self.mpr fun _ _ => rfl).symm⟩
  | cons s form ih =>
      obtain ⟨first, hfirst⟩ := exists_filter_remove tally s
      obtain ⟨others, hothers⟩ := ih (tally.remove s)
      refine ⟨fun t => others t && first t, ?_⟩
      rw [← List.filter_filter, ← hfirst, ← hothers]
      rfl

/-- What is dropped are the symbols whose counts come to zero. -/
theorem Sound.keys_removeAll (htally : tally.Sound) (form : Form) :
    (tally.removeAll form).keys =
      tally.keys.filter fun s => 0 < (tally.removeAll form).count s := by
  obtain ⟨stays, hstays⟩ := exists_filter_removeAll tally form
  have hsound := htally.removeAll form
  rw [hstays]
  refine List.filter_congr fun s hs => ?_
  rw [Bool.eq_iff_iff, decide_eq_true_eq, ← hsound.mem_keys_iff, hstays,
    List.mem_filter]
  exact (and_iff_right hs).symm

/-- Symbols that are counted up and down again leave the tally as it was. -/
theorem Sound.removeAll_addAll (htally : tally.Sound) (form : Form) :
    (tally.addAll form).removeAll form = tally := by
  have hsound := (htally.addAll form).removeAll form
  have hcount : ∀ s, ((tally.addAll form).removeAll form).count s =
      tally.count s := by
    intro s
    rw [count_removeAll, count_addAll, Nat.add_sub_cancel]
  have hkeys : ((tally.addAll form).removeAll form).keys = tally.keys := by
    have hnodup := (htally.addAll form).keys_nodup
    rw [(htally.addAll form).keys_removeAll]
    rw [keys_addAll] at hnodup ⊢
    obtain ⟨more, hmore⟩ := prefix_extendNew tally.keys form
    rw [← hmore] at hnodup ⊢
    have hold : ∀ s ∈ tally.keys,
        decide (0 < ((tally.addAll form).removeAll form).count s) = true := by
      intro s hs
      rw [hcount]
      exact decide_eq_true (htally.count_pos s hs)
    have hnew : ∀ s ∈ more,
        ¬ decide (0 < ((tally.addAll form).removeAll form).count s) = true := by
      intro s hs
      rw [hcount, decide_eq_true_eq, ← htally.mem_keys_iff]
      exact fun hkey => (List.nodup_append.mp hnodup).2.2 s hkey s hs rfl
    rw [List.filter_append, List.filter_eq_self.mpr hold,
      List.filter_eq_nil_iff.mpr hnew, List.append_nil]
  have hentries : ((tally.addAll form).removeAll form).entries =
      tally.entries := by
    rw [OrderedMap.entries_eq_map hsound.keys_nodup 0,
      OrderedMap.entries_eq_map htally.keys_nodup 0, hkeys]
    exact List.map_congr_left fun s _ => congrArg (Prod.mk s) (hcount s)
  cases tally
  exact congrArg OrderedMap.mk hentries

end Tally

/-! ## Adding and removing a production -/

namespace Grammar

variable {g : Grammar} {p : Production}

theorem Consistent.remove_insert (hg : g.Consistent) (hnew : p ∉ g.productions) :
    (g.insert p).remove p = (true, g) := by
  have hinsert : g.insert p = { g with
      productions := g.productions ++ [p], tally := g.tally.addAll p.symbols } :=
    if_neg (mt contains_iff.mp hnew)
  have hmem : (g.insert p).contains p = true := by
    rw [contains_iff, hinsert]
    exact List.mem_append_right _ List.mem_cons_self
  rw [Grammar.remove, if_pos hmem, hinsert]
  simp only [List.erase_append_right [p] hnew, List.erase_cons_head,
    List.append_nil, hg.tally_sound.removeAll_addAll]

/-- An addition of a production that is new puts it behind the others, and its
removal brings back the grammar as it was, with all its orders. -/
theorem remove_of_add (validity : Validity) (edits : List Edit) (p : Production)
    (after : Grammar) :
    let g := Edit.performAll edits (empty validity)
    g.add p = .ok (true, after) →
      p ∉ g.productions ∧ after.productions = g.productions ++ [p] ∧
        after.remove p = (true, g) := by
  intro g hadd
  have hg : g.Kept validity := (kept_empty validity).performAll edits
  cases hfault : g.faultOf? p with
  | some fault =>
      rw [add_of_fault hfault] at hadd
      cases hadd
  | none =>
      rw [add_of_no_fault hfault] at hadd
      obtain ⟨hisNew, rfl⟩ := Prod.mk.inj (Except.ok.inj hadd)
      have hnew : p ∉ g.productions := by
        rw [← contains_iff]
        simpa using hisNew
      refine ⟨hnew, ?_, hg.consistent.remove_insert hnew⟩
      rw [productions_insert, insertNew, if_neg hnew]

/-- Adds `S → aSb`, `S → Bc` and `B → b` and takes the first one away; `b` stays
in front of `c`. -/
def afterRemoval : List Edit :=
  [.addAll
    [.rule (.var "S") [.term "a", .var "S", .term "b"],
      .rule (.var "S") [.var "B", .term "c"], .rule (.var "B") [.term "b"]],
    .remove (.rule (.var "S") [.term "a", .var "S", .term "b"])]

/-- With `S → aBDbaD` the symbols `a` and `D` come in, each of them twice. -/
theorem remove_of_add_afterRemoval :
    let g := Edit.performAll afterRemoval (empty .contextFree)
    let p := Production.rule (.var "S")
      [.term "a", .var "B", .var "D", .term "b", .term "a", .var "D"]
    g.variables = [.var "S", .var "B"] ∧
    g.terminals = [.term "b", .term "c"] ∧
    ∃ after, g.add p = .ok (true, after) ∧
      after.variables = [.var "S", .var "B", .var "D"] ∧
      after.terminals = [.term "b", .term "c", .term "a"] ∧
      after.productions = g.productions ++ [p] ∧
      after.remove p = (true, g) := by
  intro g p
  have hadd : g.add p = .ok (true, g.insert p) :=
    add_of_no_fault (by decide +kernel)
  obtain ⟨_, hproductions, hremove⟩ :=
    remove_of_add .contextFree afterRemoval p (g.insert p) hadd
  exact ⟨by decide +kernel, by decide +kernel, g.insert p, hadd,
    by decide +kernel, by decide +kernel, hproductions, hremove⟩

end Grammar

end FormalGrammars
