import FormalGrammars.Proofs.FixedPoint
import FormalGrammars.Proofs.VariableGraph
import Mathlib.Data.List.Chain

/-!
# Paths along the parents are shortest

A breadth-first search visits the source first and then the discovered nodes in
the order of their discovery.  So the parents, read in this order, stand at
ascending places of the visit, and each target of a visited node has a parent
whose place is not behind that of the node.  It follows that nodes discovered
later have no shorter ways along their parents, and that no walk to a node is
shorter than its way.

The source is visited at the beginning and, when it lies on a cycle, once more
as a discovered node.  Its place is the first one, and the second visit finds
nothing new.
-/

namespace FormalGrammars.VariableGraph

variable {graph : VariableGraph} {source target node : Symbol}
  {parents : OrderedMap Symbol Symbol} {path : List Symbol} {visited : Nat}

/-! ## Walks from their ends -/

/-- A walk is an edge out of its source, or a walk with one more edge behind it. -/
theorem Walk.snoc_induction {motive : Symbol → List Symbol → Prop}
    (hwalk : Walk graph source target path)
    (edge : ∀ t, graph.hasEdge source t = true → motive t [source, t])
    (snoc : ∀ u t front, Walk graph source u front → motive u front →
      graph.hasEdge u t = true → motive t (front ++ [t])) :
    motive target path := by
  induction hwalk generalizing motive with
  | edge hedge => exact edge _ hedge
  | @cons first next _ rest hedge _ ih =>
      apply ih (motive := fun t front => motive t (first :: front))
      · intro t ht
        exact snoc next t [first, next] (.edge hedge) (edge next hedge) ht
      · intro u t front hfront hu ht
        exact snoc u t (first :: front) (.cons hedge hfront) hu ht

theorem walk_iff : Walk graph source target path ↔
    2 ≤ path.length ∧ path.head? = some source ∧
      path.getLast? = some target ∧
      path.IsChain fun s t => graph.hasEdge s t = true := by
  constructor
  · intro hwalk
    induction hwalk with
    | edge hedge => simpa using hedge
    | @cons source next target rest hedge hrest ih =>
        obtain ⟨hlength, hhead, hlast, hchain⟩ := ih
        obtain ⟨more, rfl⟩ := List.head?_eq_some_iff.mp hhead
        refine ⟨by simp, rfl, ?_, List.isChain_cons_cons.mpr ⟨hedge, hchain⟩⟩
        rw [List.getLast?_cons_cons]
        exact hlast
  · rintro ⟨hlength, hhead, hlast, hchain⟩
    induction path generalizing source with
    | nil => cases hhead
    | cons s rest ih =>
        cases hhead
        cases rest with
        | nil => simp at hlength
        | cons next rest =>
            obtain ⟨hedge, hrest⟩ := List.isChain_cons_cons.mp hchain
            rw [List.getLast?_cons_cons] at hlast
            cases rest with
            | nil =>
                cases hlast
                exact .edge hedge
            | cons other rest =>
                exact .cons hedge (ih (by simp) rfl hlast hrest)

/-! ## The order of the visits -/

/-- The number of the visit to a node: the source is visited first. -/
def place (parents : OrderedMap Symbol Symbol) (source node : Symbol) : Nat :=
  (source :: parents.keys).idxOf node

theorem place_source : place parents source source = 0 :=
  List.idxOf_cons_self

theorem place_eq_zero_iff : place parents source node = 0 ↔ node = source := by
  constructor
  · intro hplace
    by_contra heq
    rw [place, List.idxOf_cons_ne _ (Ne.symm heq)] at hplace
    exact Nat.succ_ne_zero _ hplace
  · rintro rfl
    exact place_source

theorem getElem?_keys_of_place
    (hplace : place parents source node = visited + 1)
    (hmem : node ∈ parents.keys) : parents.keys[visited]? = some node := by
  have hfound := List.getElem?_idxOf (l := source :: parents.keys)
    (List.mem_cons_of_mem source hmem)
  unfold place at hplace
  rwa [hplace, List.getElem?_cons_succ] at hfound

theorem place_of_getElem? (hnodup : parents.keys.Nodup)
    (hnode : parents.keys[visited]? = some node) :
    node = source ∨ place parents source node = visited + 1 := by
  by_cases heq : node = source
  · exact .inl heq
  · obtain ⟨hlt, hget⟩ := List.getElem?_eq_some_iff.mp hnode
    right
    unfold place
    rw [List.idxOf_cons_ne _ (Ne.symm heq), ← hget, hnodup.idxOf_getElem]

theorem place_of_isPrefix {later : OrderedMap Symbol Symbol}
    (hgrown : parents.keys <+: later.keys)
    (hnode : node = source ∨ node ∈ parents.keys) :
    place later source node = place parents source node := by
  obtain ⟨more, hmore⟩ := hgrown
  unfold place
  rw [← hmore, ← List.cons_append,
    List.idxOf_append_of_mem (List.mem_cons.mpr hnode)]

/-- The source is visited first, and then the discovered nodes in turn. -/
def Visited (source : Symbol) (visited : Nat)
    (parents : OrderedMap Symbol Symbol) (node : Symbol) : Prop :=
  node = source ∨ node ∈ parents.keys.take visited

theorem Visited.place_le (hnodup : parents.keys.Nodup)
    (hnode : Visited source visited parents node) :
    place parents source node ≤ visited := by
  rcases hnode with rfl | hmem
  · rw [place_source]
    exact Nat.zero_le _
  · obtain ⟨i, hi⟩ := List.mem_iff_getElem?.mp hmem
    rw [List.getElem?_take] at hi
    split at hi
    next hlt =>
      have hplaces : node = source ∨ place parents source node = _ :=
        place_of_getElem? hnodup hi
      rcases hplaces with rfl | hplace
      · rw [place_source]
        exact Nat.zero_le _
      · rw [hplace]
        exact hlt
    next => cases hi

/-- The parents are visited nodes in the order of their visits, and each target
of a visited node has a parent that was not visited behind it. -/
structure InTurn (graph : VariableGraph) (source : Symbol) (visited : Nat)
    (parents : OrderedMap Symbol Symbol) : Prop where
  discovered : Discovered graph source parents
  parent_visited : ∀ entry ∈ parents.entries,
    Visited source visited parents entry.2
  ascending : parents.entries.Pairwise fun entry later =>
    place parents source entry.2 ≤ place parents source later.2
  covered : ∀ node, Visited source visited parents node →
    ∀ t ∈ graph.targets node, ∃ parent, parents.get? t = some parent ∧
      place parents source parent ≤ place parents source node

/-- A visit puts the new targets of the node behind the entries. -/
theorem entries_visit (graph : VariableGraph)
    (parents : OrderedMap Symbol Symbol) (node : Symbol) :
    ∃ more, (graph.visit parents node).entries = parents.entries ++ more ∧
      ∀ entry ∈ more, entry.2 = node := by
  unfold visit
  generalize graph.targets node = targets
  induction targets generalizing parents with
  | nil => exact ⟨[], by simp, by simp⟩
  | cons t targets ih =>
      obtain ⟨more, hentries, hmore⟩ := ih (parents.insertIfNew t node)
      rw [List.foldl_cons, hentries, OrderedMap.insertIfNew]
      split
      next => exact ⟨more, rfl, hmore⟩
      next =>
        refine ⟨(t, node) :: more, by simp, ?_⟩
        exact List.forall_mem_cons.mpr ⟨rfl, hmore⟩

theorem get?_visit (graph : VariableGraph) (parents : OrderedMap Symbol Symbol)
    (node t : Symbol) :
    (graph.visit parents node).get? t =
      (parents.get? t).or
        (if t ∈ graph.targets node then some node else none) := by
  rw [visit_eq, OrderedMap.get?_foldl_insertIfNew]
  congr 1
  induction graph.targets node with
  | nil => rfl
  | cons u targets ih =>
      unfold OrderedMap.get? at ih ⊢
      by_cases heq : u = t
      · simp [heq]
      · simp [heq, Ne.symm heq, ← ih]

theorem inTurn_visit_source (graph : VariableGraph) (source : Symbol) :
    InTurn graph source 0 (graph.visit ⟨[]⟩ source) := by
  obtain ⟨more, hentries, hmore⟩ := entries_visit graph ⟨[]⟩ source
  have hparent : ∀ entry ∈ (graph.visit ⟨[]⟩ source).entries,
      entry.2 = source := by
    intro entry hentry
    rw [hentries, List.nil_append] at hentry
    exact hmore entry hentry
  refine ⟨discovered_empty.visit (.inl rfl),
    fun entry hentry => .inl (hparent entry hentry), ?_, ?_⟩
  · refine List.pairwise_of_forall_mem_list fun entry hentry later _ => ?_
    rw [hparent entry hentry, place_source]
    exact Nat.zero_le _
  · rintro node (rfl | hnode) t ht
    · refine ⟨node, ?_, Nat.le_refl _⟩
      rw [get?_visit, if_pos ht]
      rfl
    · simp at hnode

/-- The targets of a visited node are known, so a second visit finds nothing. -/
theorem InTurn.visit_eq_self (hturn : InTurn graph source visited parents)
    (hnode : Visited source visited parents node) :
    graph.visit parents node = parents := by
  refine foldl_eq_self fun t ht => ?_
  obtain ⟨parent, hget, _⟩ := hturn.covered node hnode t ht
  have hknown := OrderedMap.mem_keys_of_get? hget
  rw [OrderedMap.insertIfNew, if_pos (OrderedMap.contains_iff_mem_keys.mpr hknown)]

theorem visited_visit_iff (hnode : parents.keys[visited]? = some node)
    {other : Symbol} :
    Visited source (visited + 1) (graph.visit parents node) other ↔
      Visited source visited parents other ∨ other = node := by
  unfold Visited
  rw [take_keys_visit hnode, List.mem_append, List.mem_singleton, or_assoc]

/-- What is known when a node is visited keeps its place. -/
theorem Visited.place_visit {other : Symbol}
    (hother : Visited source visited parents other) :
    place (graph.visit parents node) source other =
      place parents source other :=
  place_of_isPrefix (prefix_keys_visit graph parents node)
    (hother.imp_right List.mem_of_mem_take)

/-- A node that is visited for the first time is the parent of the entries that
come in behind the others. -/
theorem InTurn.visit_new (hturn : InTurn graph source visited parents)
    (hnode : parents.keys[visited]? = some node) (hnew : node ≠ source) :
    InTurn graph source (visited + 1) (graph.visit parents node) := by
  have hnodup := hturn.discovered.nodup
  have hkey := List.mem_of_getElem? hnode
  have hlast : place (graph.visit parents node) source node = visited + 1 := by
    rw [place_of_isPrefix (prefix_keys_visit graph parents node) (.inr hkey)]
    exact (place_of_getElem? hnodup hnode).resolve_left hnew
  have hbefore : ∀ other, Visited source visited parents other →
      place (graph.visit parents node) source other ≤ visited + 1 := by
    intro other hother
    rw [hother.place_visit]
    exact Nat.le_succ_of_le (hother.place_le hnodup)
  obtain ⟨more, hentries, hmore⟩ := entries_visit graph parents node
  refine ⟨hturn.discovered.visit (.inr hkey), ?_, ?_, ?_⟩
  · intro entry hentry
    rw [hentries, List.mem_append] at hentry
    rw [visited_visit_iff hnode]
    exact hentry.imp (hturn.parent_visited entry) (hmore entry)
  · rw [hentries]
    refine List.pairwise_append.mpr ⟨?_, ?_, ?_⟩
    · refine hturn.ascending.imp_of_mem ?_
      intro entry later hentry hlater hle
      rw [(hturn.parent_visited entry hentry).place_visit,
        (hturn.parent_visited later hlater).place_visit]
      exact hle
    · refine List.pairwise_of_forall_mem_list fun entry hentry later hlater => ?_
      rw [hmore entry hentry, hmore later hlater]
    · intro entry hentry later hlater
      rw [hmore later hlater, hlast]
      exact hbefore _ (hturn.parent_visited entry hentry)
  · intro other hother t ht
    rw [get?_visit]
    rcases (visited_visit_iff hnode).mp hother with hold | rfl
    · obtain ⟨parent, hget, hle⟩ := hturn.covered other hold t ht
      have hparent := hturn.parent_visited _ (OrderedMap.mem_entries_of_get? hget)
      refine ⟨parent, by rw [hget]; rfl, ?_⟩
      rw [hparent.place_visit, hold.place_visit]
      exact hle
    · cases hget : parents.get? t with
      | none => exact ⟨other, by rw [if_pos ht]; rfl, Nat.le_refl _⟩
      | some parent =>
          have hparent := hturn.parent_visited _
            (OrderedMap.mem_entries_of_get? hget)
          refine ⟨parent, rfl, ?_⟩
          rw [hlast]
          exact hbefore parent hparent

theorem InTurn.visit (hturn : InTurn graph source visited parents)
    (hnode : parents.keys[visited]? = some node) :
    InTurn graph source (visited + 1) (graph.visit parents node) := by
  by_cases hnew : node = source
  · -- the source comes round again
    have hself := hturn.visit_eq_self (.inl hnew)
    have hsame : ∀ other, Visited source (visited + 1) parents other ↔
        Visited source visited parents other := by
      intro other
      rw [← hself, visited_visit_iff hnode, hself]
      exact or_iff_left_of_imp fun heq => .inl (heq.trans hnew)
    rw [hself]
    refine ⟨hturn.discovered, fun entry hentry => ?_, hturn.ascending,
      fun other hother => hturn.covered other ((hsame other).mp hother)⟩
    exact (hsame _).mpr (hturn.parent_visited entry hentry)
  · exact hturn.visit_new hnode hnew

theorem exists_inTurn_search (graph : VariableGraph) (source : Symbol) :
    ∃ visited, InTurn graph source visited (graph.search source) ∧
      (graph.search source).keys.length ≤ visited :=
  explore_induct (fun _ _ _ hturn hnode => hturn.visit hnode)
    (fun _ _ hturn => hturn.discovered.size_le)
    (inTurn_visit_source graph source) (by omega)

/-! ## The way along the parents -/

theorem climb_succ {fuel : Nat} {parent : Symbol}
    (hget : parents.get? node = some parent) :
    climb parents source (fuel + 1) node =
      if parent = source then some [source, node]
      else (climb parents source fuel parent).map (· ++ [node]) := by
  rw [climb, hget]

theorem climb_of_not_mem (hnode : node ∉ parents.keys) (fuel : Nat) :
    climb parents source fuel node = none := by
  cases fuel with
  | zero => rfl
  | succ fuel => rw [climb, OrderedMap.get?_eq_none_iff.mpr hnode]

/-- A way is found at the first look or by the way to the parent. -/
theorem climb_cases {fuel : Nat}
    (hclimb : climb parents source fuel node = some path) :
    ∃ less parent, fuel = less + 1 ∧ parents.get? node = some parent ∧
      (parent = source ∧ path = [source, node] ∨
        parent ≠ source ∧ ∃ front,
          climb parents source less parent = some front ∧
            path = front ++ [node]) := by
  cases fuel with
  | zero => cases hclimb
  | succ less =>
      cases hget : parents.get? node with
      | none => simp [climb, hget] at hclimb
      | some parent =>
          refine ⟨less, parent, rfl, rfl, ?_⟩
          rw [climb_succ hget] at hclimb
          split at hclimb
          next hsource =>
            cases hclimb
            exact .inl ⟨hsource, rfl⟩
          next hother =>
            obtain ⟨front, hfront, rfl⟩ := Option.map_eq_some_iff.mp hclimb
            exact .inr ⟨hother, front, hfront, rfl⟩

theorem climb_add {fuel : Nat}
    (hclimb : climb parents source fuel node = some path) (extra : Nat) :
    climb parents source (fuel + extra) node = some path := by
  induction fuel generalizing node path with
  | zero => cases hclimb
  | succ fuel ih =>
      obtain ⟨less, parent, hless, hget, hcases⟩ := climb_cases hclimb
      cases hless
      rw [Nat.succ_add, climb_succ hget]
      rcases hcases with ⟨hsource, rfl⟩ | ⟨hother, front, hfront, rfl⟩
      · rw [if_pos hsource]
      · rw [if_neg hother, ih hfront]
        rfl

theorem two_le_length_climb {fuel : Nat}
    (hclimb : climb parents source fuel node = some path) :
    2 ≤ path.length := by
  induction fuel generalizing node path with
  | zero => cases hclimb
  | succ fuel ih =>
      obtain ⟨less, parent, hless, _, hcases⟩ := climb_cases hclimb
      cases hless
      rcases hcases with ⟨_, rfl⟩ | ⟨_, front, hfront, rfl⟩
      · exact Nat.le_refl 2
      · rw [List.length_append]
        exact Nat.le_add_right_of_le (ih hfront)

/-- The entry of a node other than the source is found at its place. -/
theorem getElem?_entries_of_place (hnodup : parents.keys.Nodup)
    {parent : Symbol} (hget : parents.get? node = some parent)
    (hother : node ≠ source) :
    ∃ i, place parents source node = i + 1 ∧
      parents.entries[i]? = some (node, parent) := by
  obtain ⟨i, hplace⟩ := Nat.exists_eq_succ_of_ne_zero
    (mt place_eq_zero_iff.mp hother)
  have hkey := getElem?_keys_of_place hplace (OrderedMap.mem_keys_of_get? hget)
  rw [OrderedMap.keys, List.getElem?_map] at hkey
  obtain ⟨⟨_, above⟩, hentry, rfl⟩ := Option.map_eq_some_iff.mp hkey
  have hsame := OrderedMap.get?_of_mem_entries hnodup (List.mem_of_getElem? hentry)
  rw [hget] at hsame
  cases hsame
  exact ⟨i, hplace, hentry⟩

namespace InTurn

variable {other parent above : Symbol} {fuel bound : Nat}
  {way : List Symbol}

/-- Nodes that are visited in turn have parents that are visited in turn. -/
theorem place_parent_le (hturn : InTurn graph source visited parents)
    (hnode : node ≠ source) (hother : other ≠ source)
    (hle : place parents source node ≤ place parents source other)
    (hparent : parents.get? node = some parent)
    (habove : parents.get? other = some above) :
    place parents source parent ≤ place parents source above := by
  have hnodup := hturn.discovered.nodup
  obtain ⟨i, hi, hfirst⟩ := getElem?_entries_of_place hnodup hparent hnode
  obtain ⟨j, hj, hsecond⟩ := getElem?_entries_of_place hnodup habove hother
  rw [hi, hj] at hle
  rcases Nat.eq_or_lt_of_le (Nat.le_of_succ_le_succ hle) with rfl | hlt
  · rw [hfirst] at hsecond
    cases hsecond
    exact Nat.le_refl _
  · obtain ⟨hi, hfirst⟩ := List.getElem?_eq_some_iff.mp hfirst
    obtain ⟨hj, hsecond⟩ := List.getElem?_eq_some_iff.mp hsecond
    have hplaces := List.pairwise_iff_getElem.mp hturn.ascending i j hi hj hlt
    rwa [hfirst, hsecond] at hplaces

/-- A node that is visited later has no shorter way. -/
theorem length_mono (hturn : InTurn graph source visited parents)
    (hnode : node ≠ source) (hother : other ≠ source)
    (hle : place parents source node ≤ place parents source other)
    (hpath : climb parents source fuel node = some path)
    (hway : climb parents source bound other = some way) :
    path.length ≤ way.length := by
  induction bound generalizing fuel node other path way with
  | zero => cases hway
  | succ bound ih =>
      obtain ⟨_, parent, _, hparent, hcases⟩ := climb_cases hpath
      obtain ⟨_, above, hbound, habove, hcasesAbove⟩ := climb_cases hway
      cases hbound
      have hplaces :=
        hturn.place_parent_le hnode hother hle hparent habove
      rcases hcases with ⟨_, rfl⟩ | ⟨hnew, front, hfront, rfl⟩
      · exact two_le_length_climb hway
      · rcases hcasesAbove with ⟨hsource, _⟩ | ⟨hnewAbove, back, hback, rfl⟩
        · rw [hsource, place_source, Nat.le_zero, place_eq_zero_iff] at hplaces
          exact absurd hplaces hnew
        · rw [List.length_append, List.length_append]
          exact Nat.add_le_add_right
            (ih hnew hnewAbove hplaces hfront hback) 1

/-- The way to a target is an edge from the source, or it goes over a parent that
was not visited behind the node that the edge leaves. -/
theorem way_cases (hturn : InTurn graph source visited parents)
    (hnode : Visited source visited parents node)
    (hedge : graph.hasEdge node target = true)
    (hway : climb parents source fuel target = some way) :
    way = [source, target] ∨
      ∃ less parent front, parent ≠ source ∧
        place parents source parent ≤ place parents source node ∧
        climb parents source less parent = some front ∧
        way = front ++ [target] := by
  obtain ⟨less, parent, _, hget, hcases⟩ := climb_cases hway
  obtain ⟨above, habove, hplaces⟩ :=
    hturn.covered node hnode target (of_decide_eq_true hedge)
  rw [hget] at habove
  cases habove
  rcases hcases with ⟨_, hshort⟩ | ⟨hnew, front, hfront, hlong⟩
  · exact .inl hshort
  · exact .inr ⟨less, parent, front, hnew, hplaces, hfront, hlong⟩

theorem way_of_source (hturn : InTurn graph source visited parents)
    (hedge : graph.hasEdge source target = true)
    (hway : climb parents source fuel target = some way) :
    way = [source, target] := by
  refine (hturn.way_cases (.inl rfl) hedge hway).resolve_right ?_
  rintro ⟨_, parent, _, hnew, hplaces, _, _⟩
  rw [place_source, Nat.le_zero, place_eq_zero_iff] at hplaces
  exact hnew hplaces

/-- Behind an edge the way is longer by one at most. -/
theorem length_le_of_edge (hturn : InTurn graph source visited parents)
    (hnode : Visited source visited parents node)
    (hedge : graph.hasEdge node target = true)
    (hpath : climb parents source bound node = some path)
    (hway : climb parents source fuel target = some way) :
    way.length ≤ path.length + 1 := by
  rcases hturn.way_cases hnode hedge hway with
    rfl | ⟨_, parent, front, hnew, hplaces, hfront, rfl⟩
  · exact Nat.le_succ_of_le (two_le_length_climb hpath)
  · have hother : node ≠ source := by
      rintro rfl
      rw [place_source, Nat.le_zero, place_eq_zero_iff] at hplaces
      exact hnew hplaces
    rw [List.length_append]
    exact Nat.add_le_add_right
      (hturn.length_mono hnew hother hplaces hfront hpath) 1

end InTurn

/-- No walk is shorter than the way along the parents. -/
theorem length_climb_le_of_walk (hwalk : Walk graph source target path)
    {fuel : Nat} {way : List Symbol}
    (hway : climb (graph.search source) source fuel target = some way) :
    way.length ≤ path.length := by
  obtain ⟨visited, hturn, hall⟩ := exists_inTurn_search graph source
  have hvisited : ∀ node ∈ graph.dependencies source,
      Visited source visited (graph.search source) node := by
    intro node hnode
    right
    rwa [List.take_of_length_le hall]
  refine hwalk.snoc_induction (motive := fun target path => ∀ fuel way,
    climb (graph.search source) source fuel target = some way →
      way.length ≤ path.length) ?_ ?_ fuel way hway
  · intro t hedge fuel way hway
    rw [hturn.way_of_source hedge hway]
  · intro u t front hfront ih hedge fuel way hway
    have hu := mem_dependencies_of_walk hfront
    obtain ⟨other, hother, _⟩ := exists_path?_of_mem_dependencies hu
    have hshorter := ih _ other hother
    have hlonger := hturn.length_le_of_edge (hvisited u hu) hedge hother hway
    rw [List.length_append]
    exact hlonger.trans (Nat.add_le_add_right hshorter 1)

/-! ## Shortest paths -/

theorem path?_of_not_mem (hmem : target ∉ graph.dependencies source) :
    graph.path? source target = none :=
  climb_of_not_mem hmem _

theorem walk_of_path? (hpath : graph.path? source target = some path) :
    Walk graph source target path := by
  by_cases hmem : target ∈ graph.dependencies source
  · obtain ⟨same, hsame, hwalk⟩ := exists_path?_of_mem_dependencies hmem
    rw [hpath] at hsame
    cases hsame
    exact hwalk
  · rw [path?_of_not_mem hmem] at hpath
    cases hpath

theorem isSome_path?_iff : (graph.path? source target).isSome = true ↔
    target ∈ graph.dependencies source := by
  constructor
  · intro hsome
    obtain ⟨path, hpath⟩ := Option.isSome_iff_exists.mp hsome
    exact mem_dependencies_of_walk (walk_of_path? hpath)
  · intro hmem
    obtain ⟨path, hpath, _⟩ := exists_path?_of_mem_dependencies hmem
    rw [hpath]
    rfl

/-- The climb ends within its bound: at the source, or at once when nothing is
known of the target. -/
theorem climb_eq_path? (graph : VariableGraph) (source target : Symbol)
    (extra : Nat) :
    climb (graph.search source) source
        ((graph.search source).size + extra) target =
      graph.path? source target := by
  by_cases hmem : target ∈ graph.dependencies source
  · obtain ⟨path, hpath, _⟩ := exists_path?_of_mem_dependencies hmem
    rw [hpath]
    exact climb_add hpath extra
  · rw [path?_of_not_mem hmem]
    exact climb_of_not_mem hmem _

/-- The search and the climb end; there is a path exactly to the dependencies,
which are the nodes that a walk leads to, and no walk is shorter than it. -/
theorem path?_shortest (graph : VariableGraph) (source target : Symbol) :
    (∀ extra, graph.explore (graph.edgeCount + extra) 0
        (graph.visit ⟨[]⟩ source) = graph.search source) ∧
    (∀ extra, climb (graph.search source) source
        ((graph.search source).size + extra) target =
      graph.path? source target) ∧
    ((graph.path? source target).isSome = true ↔
      target ∈ graph.dependencies source) ∧
    (target ∈ graph.dependencies source ↔
      ∃ path, Walk graph source target path) ∧
    ∀ path, graph.path? source target = some path →
      path.head? = some source ∧ path.getLast? = some target ∧
      2 ≤ path.length ∧
      (path.IsChain fun s t => graph.hasEdge s t = true) ∧
      ∀ other, Walk graph source target other →
        path.length ≤ other.length := by
  refine ⟨explore_eq_search graph source, climb_eq_path? graph source target,
    isSome_path?_iff, mem_dependencies_iff, fun path hpath => ?_⟩
  obtain ⟨hlength, hhead, hlast, hchain⟩ := walk_iff.mp (walk_of_path? hpath)
  exact ⟨hhead, hlast, hlength, hchain,
    fun other hother => length_climb_le_of_walk hother hpath⟩

/-- `S → A | B | S`, `A → C`, `B → C` and `C → A | c`: a loop at `S` and a cycle
through `A` and `C`. -/
def unitCycles : Grammar :=
  Grammar.withProductions { start := some (.var "S") }
    [.rule (.var "S") [.var "A"], .rule (.var "S") [.var "B"],
      .rule (.var "S") [.var "S"], .rule (.var "A") [.var "C"],
      .rule (.var "B") [.var "C"], .rule (.var "C") [.var "A"],
      .rule (.var "C") [.term "c"]]

theorem path?_shortest_unitCycles :
    let graph := ofUnits unitCycles
    graph.path? (.var "S") (.var "S") = some [.var "S", .var "S"] ∧
    graph.path? (.var "B") (.var "A") =
      some [.var "B", .var "C", .var "A"] ∧
    graph.path? (.var "C") (.var "C") =
      some [.var "C", .var "A", .var "C"] ∧
    (∀ other, Walk graph (.var "C") (.var "C") other → 3 ≤ other.length) ∧
    graph.path? (.var "C") (.var "S") = none ∧
    ¬ ∃ path, Walk graph (.var "C") (.var "S") path := by
  intro graph
  have hround : graph.path? (.var "C") (.var "C") =
      some [.var "C", .var "A", .var "C"] := by
    decide +kernel
  have hnone : graph.path? (.var "C") (.var "S") = none := by
    decide +kernel
  obtain ⟨_, _, _, _, hshortest⟩ :=
    path?_shortest graph (.var "C") (.var "C")
  obtain ⟨_, _, hfound, hwalk, _⟩ :=
    path?_shortest graph (.var "C") (.var "S")
  refine ⟨by decide +kernel, by decide +kernel, hround, ?_, hnone, ?_⟩
  · exact (hshortest _ hround).2.2.2.2
  · rw [← hwalk, ← hfound, hnone]
    exact Bool.false_ne_true

end FormalGrammars.VariableGraph
