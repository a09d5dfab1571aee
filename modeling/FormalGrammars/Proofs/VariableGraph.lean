import FormalGrammars.VariableGraph
import FormalGrammars.Grammar.Consistency

/-!
# Breadth-first search finds walks

Every node in the map of parents was discovered along an edge from its parent,
which is the source or stands before it; so the climb along the parents ends
at the source, and the way back is a walk.  There are no more discovered nodes
than edges, so the search gets to all of them, and what it has found is closed
under edges.
-/

namespace FormalGrammars.VariableGraph

variable {g : Grammar} {graph : VariableGraph}
  {source target node : Symbol} {parents : OrderedMap Symbol Symbol}

/-! ## Edges -/

theorem mem_targets_foldl {targets : Production → List Symbol}
    {ps : List Production} {edges : OrderedMap Symbol (List Symbol)}
    {s t : Symbol} :
    t ∈ (ps.foldl (fun edges p =>
        match p.head? with
        | none => edges
        | some head => edges.alter head [] fun out =>
            extendNew out (targets p)) edges).getD s [] ↔
      t ∈ edges.getD s [] ∨
        ∃ p ∈ ps, p.head? = some s ∧ t ∈ targets p := by
  induction ps generalizing edges with
  | nil => simp
  | cons p ps ih =>
      rw [List.foldl_cons, ih]
      cases hhead : p.head? with
      | none => simp [hhead]
      | some head =>
          simp only [OrderedMap.getD_alter, List.mem_cons, exists_eq_or_imp,
            hhead, Option.some.injEq]
          by_cases heq : s = head
          · subst heq
            simp [or_assoc]
          · simp [heq, Ne.symm heq]

theorem hasEdge_ofTargets {targets : Production → List Symbol}
    {s t : Symbol} :
    (ofTargets g targets).hasEdge s t = true ↔
      ∃ p ∈ g.productions, p.head? = some s ∧ t ∈ targets p := by
  unfold hasEdge
  rw [decide_eq_true_eq]
  refine mem_targets_foldl.trans ?_
  rw [OrderedMap.getD_emptyLists]
  simp

theorem hasEdge_ofUnits {s t : Symbol} :
    (ofUnits g).hasEdge s t = true ↔
      t.isVar = true ∧ ∃ p ∈ g.productions, p.head? = some s ∧ p.rhs = [t] := by
  unfold ofUnits
  rw [hasEdge_ofTargets]
  constructor
  · rintro ⟨p, hmem, hhead, ht⟩
    split at ht
    next hunit =>
      simp only [Production.isUnit, Bool.and_eq_true] at hunit
      split at hunit
      next u hrhs =>
        rw [hrhs, List.mem_singleton] at ht
        exact ⟨ht ▸ hunit.2, p, hmem, hhead, ht ▸ hrhs⟩
      next => exact absurd hunit.2 (by simp)
    next => simp at ht
  · rintro ⟨hvar, p, hmem, hhead, hrhs⟩
    refine ⟨p, hmem, hhead, ?_⟩
    simp [Production.isUnit, Production.hasHead, hhead, hrhs, hvar]

theorem hasEdge_ofOccurrences {s t : Symbol} :
    (ofOccurrences g).hasEdge s t = true ↔
      t.isVar = true ∧ ∃ p ∈ g.productions, p.head? = some s ∧ t ∈ p.rhs := by
  unfold ofOccurrences
  rw [hasEdge_ofTargets]
  simp only [List.mem_filter]
  constructor
  · rintro ⟨p, hmem, hhead, ht, hvar⟩
    exact ⟨hvar, p, hmem, hhead, ht⟩
  · rintro ⟨hvar, p, hmem, hhead, ht⟩
    exact ⟨p, hmem, hhead, ht, hvar⟩

theorem mem_nodes_of_hasEdge
    (hedge : graph.hasEdge source target = true) : source ∈ graph.nodes := by
  apply Classical.byContradiction
  intro hnode
  unfold hasEdge targets at hedge
  rw [OrderedMap.getD_of_not_mem_keys hnode] at hedge
  simp at hedge

theorem Walk.snoc {path : List Symbol}
    (hwalk : Walk graph source node path)
    (hedge : graph.hasEdge node target = true) :
    Walk graph source target (path ++ [target]) := by
  induction hwalk with
  | edge hfirst => exact .cons hfirst (.edge hedge)
  | cons hfirst _ ih => exact .cons hfirst (ih hedge)

/-! ## Discovery -/

/-- Each node was found along an edge from its parent, which is the source or
stands before it. -/
structure Discovered (graph : VariableGraph) (source : Symbol)
    (parents : OrderedMap Symbol Symbol) : Prop where
  nodup : parents.keys.Nodup
  hasEdge : ∀ entry ∈ parents.entries, graph.hasEdge entry.2 entry.1 = true
  parent_before : ∀ i entry, parents.entries[i]? = some entry →
    entry.2 = source ∨ entry.2 ∈ (parents.entries.take i).map Prod.fst

theorem discovered_empty : Discovered graph source ⟨[]⟩ :=
  ⟨List.nodup_nil, by simp, by simp⟩

theorem Discovered.insertIfNew (hparents : Discovered graph source parents)
    (hnode : node = source ∨ node ∈ parents.keys)
    (hedge : graph.hasEdge node target = true) :
    Discovered graph source (parents.insertIfNew target node) := by
  by_cases hkey : parents.contains target = true
  · rw [OrderedMap.insertIfNew, if_pos hkey]
    exact hparents
  constructor
  · rw [OrderedMap.keys_insertIfNew]
    exact nodup_insertNew hparents.nodup target
  · intro entry hentry
    rcases OrderedMap.mem_entries_insertIfNew hentry with hold | rfl
    · exact hparents.hasEdge entry hold
    · exact hedge
  · intro i entry hentry
    rw [OrderedMap.insertIfNew, if_neg hkey] at hentry ⊢
    rcases Nat.lt_or_ge i parents.entries.length with hlt | hge
    · rw [List.getElem?_append_left hlt] at hentry
      rw [List.take_append_of_le_length (Nat.le_of_lt hlt)]
      exact hparents.parent_before i entry hentry
    · rw [List.getElem?_append_right hge] at hentry
      have hentry := List.mem_singleton.mp (List.mem_of_getElem? hentry)
      rw [hentry, List.take_append, List.map_append]
      refine hnode.imp_right fun hkey => List.mem_append_left _ ?_
      rwa [List.take_of_length_le hge]

theorem visit_eq (graph : VariableGraph) (parents : OrderedMap Symbol Symbol)
    (node : Symbol) :
    graph.visit parents node = ((graph.targets node).map (·, node)).foldl
      (fun parents entry => parents.insertIfNew entry.1 entry.2) parents := by
  unfold visit
  rw [List.foldl_map]

theorem keys_visit (graph : VariableGraph) (parents : OrderedMap Symbol Symbol)
    (node : Symbol) :
    (graph.visit parents node).keys =
      extendNew parents.keys (graph.targets node) := by
  rw [visit_eq, OrderedMap.keys_foldl_insertIfNew, List.map_map]
  congr 1
  exact List.map_id _

theorem prefix_keys_visit (graph : VariableGraph)
    (parents : OrderedMap Symbol Symbol) (node : Symbol) :
    parents.keys <+: (graph.visit parents node).keys := by
  rw [keys_visit]
  exact prefix_extendNew _ _

/-- New keys come last, so the visited ones stay in front. -/
theorem take_keys_visit {visited : Nat}
    (hnode : parents.keys[visited]? = some node) :
    (graph.visit parents node).keys.take (visited + 1) =
      parents.keys.take visited ++ [node] := by
  have hlt := (List.getElem?_eq_some_iff.mp hnode).1
  obtain ⟨more, hmore⟩ := prefix_keys_visit graph parents node
  rw [← hmore, List.take_append_of_le_length hlt, List.take_add_one, hnode]
  rfl

theorem Discovered.visit (hparents : Discovered graph source parents)
    (hnode : node = source ∨ node ∈ parents.keys) :
    Discovered graph source (graph.visit parents node) := by
  have hedges : ∀ t ∈ graph.targets node, graph.hasEdge node t = true :=
    fun t ht => decide_eq_true ht
  unfold VariableGraph.visit
  generalize graph.targets node = targets at hedges
  induction targets generalizing parents with
  | nil => exact hparents
  | cons t targets ih =>
      have hfirst := hparents.insertIfNew hnode (hedges t List.mem_cons_self)
      refine ih hfirst (hnode.imp_right fun hkey => ?_)
        fun u hu => hedges u (List.mem_cons_of_mem t hu)
      rw [OrderedMap.keys_insertIfNew, mem_insertNew]
      exact .inl hkey

/-- Different discovered nodes are targets of different edges. -/
theorem Discovered.size_le (hparents : Discovered graph source parents) :
    parents.keys.length ≤ graph.edgeCount := by
  apply hparents.nodup.length_le_of_subset
  intro key hkey
  obtain ⟨entry, hentry, rfl⟩ := List.mem_map.mp hkey
  have hedge := of_decide_eq_true (hparents.hasEdge entry hentry)
  unfold targets OrderedMap.getD at hedge
  cases hget : graph.edges.get? entry.2 with
  | none => simp [hget] at hedge
  | some out =>
      rw [hget, Option.getD_some] at hedge
      exact List.mem_flatMap.mpr
        ⟨(entry.2, out), OrderedMap.mem_entries_of_get? hget, hedge⟩

/-- The targets of the source and of the first nodes are discovered. -/
def VisitedBelow (graph : VariableGraph) (source : Symbol)
    (parents : OrderedMap Symbol Symbol) (bound : Nat) : Prop :=
  ∀ node, node = source ∨ node ∈ parents.keys.take bound →
    ∀ t ∈ graph.targets node, t ∈ parents.keys

theorem VisitedBelow.of_length_le {bound : Nat}
    (hvisited : VisitedBelow graph source parents bound)
    (hle : parents.keys.length ≤ bound) :
    ∀ node, node = source ∨ node ∈ parents.keys →
      ∀ t ∈ graph.targets node, t ∈ parents.keys := by
  intro node hnode
  rw [← List.take_of_length_le hle] at hnode
  exact hvisited node hnode

/-- What a visit to the next node keeps holds when all of them are visited. -/
theorem explore_induct {motive : Nat → OrderedMap Symbol Symbol → Prop}
    (hvisit : ∀ visited parents node, motive visited parents →
      parents.keys[visited]? = some node →
        motive (visited + 1) (graph.visit parents node))
    (hbound : ∀ visited parents, motive visited parents →
      parents.keys.length ≤ graph.edgeCount)
    {fuel visited : Nat} (hparents : motive visited parents)
    (hfuel : graph.edgeCount ≤ visited + fuel) :
    ∃ last, motive last (graph.explore fuel visited parents) ∧
      (graph.explore fuel visited parents).keys.length ≤ last := by
  induction fuel generalizing visited parents with
  | zero => exact ⟨visited, hparents, Nat.le_trans (hbound _ _ hparents) hfuel⟩
  | succ fuel ih =>
      unfold explore
      cases hnode : parents.keys[visited]? with
      | none => exact ⟨visited, hparents, List.getElem?_eq_none_iff.mp hnode⟩
      | some node => exact ih (hvisit _ _ _ hparents hnode) (by omega)

theorem VisitedBelow.visit {visited : Nat}
    (hvisited : VisitedBelow graph source parents visited)
    (hnode : parents.keys[visited]? = some node) :
    VisitedBelow graph source (graph.visit parents node) (visited + 1) := by
  intro other hother t ht
  rw [take_keys_visit hnode, List.mem_append, List.mem_singleton, ← or_assoc]
    at hother
  rcases hother with hold | rfl
  · exact (prefix_keys_visit graph parents node).subset
      (hvisited other hold t ht)
  · rw [keys_visit, mem_extendNew]
    exact .inr ht

theorem explore_spec {fuel visited : Nat}
    (hparents : Discovered graph source parents)
    (hvisited : VisitedBelow graph source parents visited)
    (hfuel : graph.edgeCount ≤ visited + fuel) :
    let last := graph.explore fuel visited parents
    Discovered graph source last ∧
      ∀ node, node = source ∨ node ∈ last.keys →
        ∀ t ∈ graph.targets node, t ∈ last.keys := by
  obtain ⟨last, ⟨hlast, hbelow⟩, hle⟩ := explore_induct
    (motive := fun visited parents => Discovered graph source parents ∧
      VisitedBelow graph source parents visited)
    (fun _ _ _ hbefore hnode =>
      ⟨hbefore.1.visit (.inr (List.mem_of_getElem? hnode)),
        hbefore.2.visit hnode⟩)
    (fun _ _ hbefore => hbefore.1.size_le) ⟨hparents, hvisited⟩ hfuel
  exact ⟨hlast, hbelow.of_length_le hle⟩

/-- The search ends when all discovered nodes are visited, so more fuel changes
nothing. -/
theorem Discovered.explore_add (hparents : Discovered graph source parents)
    {fuel visited : Nat} (hfuel : graph.edgeCount ≤ visited + fuel)
    (extra : Nat) :
    graph.explore (fuel + extra) visited parents =
      graph.explore fuel visited parents := by
  induction fuel generalizing visited parents with
  | zero =>
      have hsize := hparents.size_le
      have hend : parents.keys[visited]? = none :=
        List.getElem?_eq_none_iff.mpr (by omega)
      cases extra with
      | zero => rfl
      | succ extra =>
          simp only [explore, hend]
  | succ fuel ih =>
      rw [Nat.succ_add_eq_add_succ, Nat.add_succ, explore, explore]
      cases hnode : parents.keys[visited]? with
      | none => rfl
      | some node =>
          have hkey := List.mem_of_getElem? hnode
          exact ih (hparents.visit (.inr hkey)) (by omega)

theorem explore_eq_search (graph : VariableGraph) (source : Symbol)
    (extra : Nat) :
    graph.explore (graph.edgeCount + extra) 0 (graph.visit ⟨[]⟩ source) =
      graph.search source :=
  (discovered_empty.visit (.inl rfl)).explore_add (by omega) extra

theorem discovered_search (graph : VariableGraph) (source : Symbol) :
    Discovered graph source (graph.search source) ∧
      ∀ node, node = source ∨ node ∈ graph.dependencies source →
        ∀ t ∈ graph.targets node, t ∈ graph.dependencies source := by
  apply explore_spec (discovered_empty.visit (.inl rfl))
  · rintro node (rfl | hnode) t ht
    · rw [keys_visit, mem_extendNew]
      exact .inr ht
    · simp at hnode
  · omega

/-! ## Walks -/

theorem mem_dependencies_of_walk {path : List Symbol}
    (hwalk : Walk graph source target path) :
    target ∈ graph.dependencies source := by
  have hclosed := (discovered_search graph source).2
  have hgeneral : ∀ first last path, Walk graph first last path →
      first = source ∨ first ∈ graph.dependencies source →
        last ∈ graph.dependencies source := by
    intro first last path hpath
    induction hpath with
    | edge hedge =>
        intro hfirst
        exact hclosed _ hfirst _ (of_decide_eq_true hedge)
    | cons hedge _ ih =>
        intro hfirst
        exact ih (.inr (hclosed _ hfirst _ (of_decide_eq_true hedge)))
  exact hgeneral source target path hwalk (.inl rfl)

theorem Discovered.climb (hparents : Discovered graph source parents)
    {fuel i : Nat} {parent : Symbol}
    (hentry : parents.entries[i]? = some (node, parent)) (hfuel : i < fuel) :
    ∃ path, VariableGraph.climb parents source fuel node = some path ∧
      Walk graph source node path := by
  induction fuel generalizing i node parent with
  | zero => omega
  | succ fuel ih =>
      have hmem := List.mem_of_getElem? hentry
      have hget : parents.get? node = some parent :=
        OrderedMap.get?_of_mem_entries hparents.nodup hmem
      have hedge := hparents.hasEdge _ hmem
      unfold VariableGraph.climb
      simp only [hget]
      by_cases hsource : parent = source
      · rw [if_pos hsource]
        subst hsource
        exact ⟨_, rfl, .edge hedge⟩
      · rw [if_neg hsource]
        have hbefore := (hparents.parent_before i _ hentry).resolve_left hsource
        obtain ⟨⟨_, above⟩, habove, rfl⟩ := List.mem_map.mp hbefore
        obtain ⟨j, hj⟩ := List.mem_iff_getElem?.mp habove
        rw [List.getElem?_take] at hj
        split at hj
        next hlt =>
          obtain ⟨path, hpath, hwalk⟩ := ih hj (by omega)
          exact ⟨path ++ [node], by rw [hpath]; rfl, hwalk.snoc hedge⟩
        next => cases hj

theorem exists_path?_of_mem_dependencies
    (hmem : target ∈ graph.dependencies source) :
    ∃ path, graph.path? source target = some path ∧
      Walk graph source target path := by
  obtain ⟨⟨_, parent⟩, hentry, rfl⟩ := List.mem_map.mp hmem
  obtain ⟨i, hi⟩ := List.mem_iff_getElem?.mp hentry
  exact (discovered_search graph source).1.climb hi
    (List.getElem?_eq_some_iff.mp hi).1

theorem mem_dependencies_iff :
    target ∈ graph.dependencies source ↔
      ∃ path, Walk graph source target path := by
  constructor
  · intro hmem
    obtain ⟨path, _, hwalk⟩ := exists_path?_of_mem_dependencies hmem
    exact ⟨path, hwalk⟩
  · rintro ⟨path, hwalk⟩
    exact mem_dependencies_of_walk hwalk

end FormalGrammars.VariableGraph
