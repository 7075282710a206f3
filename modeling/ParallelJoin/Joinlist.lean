import ParallelJoin.Clump
import ParallelJoin.Soundness

/-!
# `make_rel_from_joinlist`: the planner's call of the parallel search

Model of `make_rel_from_joinlist` (`allpaths.c:3334-3415`), the caller of
`parallel_join_search`. A joinlist (built by `deconstruct_jointree`) is a list of nodes, each a
`RangeTblRef` or a sub-joinlist. The function builds `initial_rels` from the nodes, recursing
into the sub-joinlists, and then joins them. A single relation is returned as it is. For more,
the dispatch tries `join_search_hook`, then GEQO, then the parallel left-deep search with one
worker when `levels_needed` is even, and otherwise `standard_join_search`.

* `JoinNode.list` keeps its first node apart, so a sub-joinlist is never empty. A NULL
  `thisrel` from an empty sub-joinlist, which `deconstruct_jointree` never builds, cannot be
  expressed. The top-level joinlist may be empty, and the result is then NULL.
* `find_base_rel`, the hook, `geqo` and `standard_join_search` are fields of `Planner`: the
  model records what they return and leaves out their `elog(ERROR)` paths. `root` is not
  threaded: the oracle is pure, and `parallel_join_search` hands back the `root` it was given.

Results:
* `relids_makeRelFromJoinlist`: for any oracle, the relation covers exactly the `rtindex`es of
  the joinlist, at every nesting depth, when base relations and the other search routines cover
  what they are given.
* `makeRelFromJoinlist_isOk`: with distinct `rtindex`es, at most 26 of them, and an oracle that
  accepts disjoint pairs at monotone costs, a nonempty joinlist yields a relation. The parallel
  search never faults on the levels it is given, sub-joinlist results included; a level has no
  more entries than base relations, so its worker has a table (`tableAllocOk_iff`).
-/

namespace ParallelJoin

/-- A node of a joinlist: a `RangeTblRef`, or a sub-joinlist, which is never empty. -/
inductive JoinNode
  | rangeTblRef (rtindex : Nat)
  | list (first : JoinNode) (rest : List JoinNode)

mutual
/-- The `rtindex` of every `RangeTblRef` under a node, left to right. -/
def JoinNode.rtindexes : JoinNode → List Nat
  | .rangeTblRef rtindex => [rtindex]
  | .list first rest => first.rtindexes ++ rtindexesOf rest
/-- The `rtindex`es of a joinlist, left to right. -/
def rtindexesOf : List JoinNode → List Nat
  | [] => []
  | n :: ns => n.rtindexes ++ rtindexesOf ns
end

/-- The planner routines `make_rel_from_joinlist` calls besides the parallel search. -/
structure Planner (R : Type) where
  /-- `find_base_rel(root, varno)`. -/
  findBaseRel : Nat → R
  /-- `join_search_hook`, when a plugin has installed one. -/
  joinSearchHook : Option (Nat → List R → R)
  /-- The setting `enable_geqo`. -/
  enableGeqo : Bool
  /-- The setting `geqo_threshold`. -/
  geqoThreshold : Nat
  /-- `geqo(root, levels_needed, initial_rels)`. -/
  geqo : Nat → List R → R
  /-- `standard_join_search(root, levels_needed, initial_rels)`. -/
  standardJoinSearch : Nat → List R → R

variable {R C : Type} [LinearOrder C] (o : Oracle R C) (pl : Planner R)

/-- The choice of join search for `levels_needed ≥ 2` relations (`allpaths.c:3386-3413`). -/
def joinSearch (levelsNeeded : Nat) (initialRels : List R) : Except Fault R :=
  match pl.joinSearchHook with
  | some hook => pure (hook levelsNeeded initialRels)
  | none =>
    if pl.enableGeqo ∧ pl.geqoThreshold ≤ levelsNeeded then
      pure (pl.geqo levelsNeeded initialRels)
    else if levelsNeeded % 2 = 0 then
      Prod.fst <$> parallelJoinSearch o () levelsNeeded initialRels 1 .leftDeep
    else pure (pl.standardJoinSearch levelsNeeded initialRels)

/-- `make_rel_from_joinlist` after its loop, on `initial_rels = r :: rs`: `linitial` when
`levels_needed` is 1, the join search otherwise (`allpaths.c:3379-3414`). -/
def joinlistRel (r : R) (rs : List R) : Except Fault R :=
  if (r :: rs).length = 1 then pure r else joinSearch o pl (r :: rs).length (r :: rs)

mutual
/-- `thisrel` of one node in the loop of `make_rel_from_joinlist` (`allpaths.c:3359-3375`):
`find_base_rel` of a `RangeTblRef`, the recursive call on a sub-joinlist. -/
def nodeRel : JoinNode → Except Fault R
  | .rangeTblRef rtindex => pure (pl.findBaseRel rtindex)
  | .list first rest => do joinlistRel o pl (← nodeRel first) (← nodeRels rest)
/-- The list `initial_rels` the loop builds: `thisrel` of every node, in order. -/
def nodeRels : List JoinNode → Except Fault (List R)
  | [] => pure []
  | n :: ns => return (← nodeRel n) :: (← nodeRels ns)
end

/-- `make_rel_from_joinlist(root, joinlist)`: NULL for an empty joinlist. -/
def makeRelFromJoinlist : List JoinNode → Except Fault (Option R)
  | [] => pure none
  | first :: rest => some <$> nodeRel o pl (.list first rest)

/-! ## Relids -/

omit [LinearOrder C] in
/-- What the planner's routines return covers exactly what they are given: a base relation its
own `rtindex`, a join search the union of its `initial_rels`. -/
structure Planner.KeepsRelids : Prop where
  findBaseRel : ∀ rtindex, o.relids (pl.findBaseRel rtindex) = {rtindex}
  joinSearchHook : ∀ hook, pl.joinSearchHook = some hook → ∀ rels : List R,
    o.relids (hook rels.length rels) = o.unionRelids rels
  geqo : ∀ rels : List R, o.relids (pl.geqo rels.length rels) = o.unionRelids rels
  standardJoinSearch : ∀ rels : List R,
    o.relids (pl.standardJoinSearch rels.length rels) = o.unionRelids rels

variable {o pl}

/-! ## The dispatch -/

/-- Inversion of the dispatch: the relation comes from the hook, GEQO, `standard_join_search`,
or, for an even `levels_needed`, from the parallel search with one worker. -/
theorem joinSearch_eq_ok {rels : List R} {r : R}
    (h : joinSearch o pl rels.length rels = .ok r) :
    (∃ hook, pl.joinSearchHook = some hook ∧ r = hook rels.length rels) ∨
      r = pl.geqo rels.length rels ∨ r = pl.standardJoinSearch rels.length rels ∨
      2 ∣ rels.length ∧ parallelJoinSearch o () rels.length rels 1 .leftDeep = .ok (r, ()) := by
  unfold joinSearch at h
  split at h
  · exact .inl ⟨_, ‹_›, (Except.ok.inj h).symm⟩
  · split_ifs at h with hgeqo hev
    · exact .inr (.inl (Except.ok.inj h).symm)
    · obtain ⟨⟨r', ⟨⟩⟩, hpar, rfl⟩ := map_eq_ok.mp h
      exact .inr (.inr (.inr ⟨Nat.dvd_of_mod_eq_zero hev, hpar⟩))
    · exact .inr (.inr (.inl (Except.ok.inj h).symm))

/-- A level of two or more relations is joined into a relation covering all of them. -/
theorem relids_joinSearch (hpl : pl.KeepsRelids o) {rels : List R} {r : R} (h2 : 2 ≤ rels.length)
    (h : joinSearch o pl rels.length rels = .ok r) : o.relids r = o.unionRelids rels := by
  rcases joinSearch_eq_ok h with ⟨hook, hh, rfl⟩ | rfl | rfl | ⟨hev, hpar⟩
  · exact hpl.joinSearchHook hook hh rels
  · exact hpl.geqo rels
  · exact hpl.standardJoinSearch rels
  · obtain ⟨-, -, p, -, t, hperm, -, ht⟩ := exists_plan_of_parallelJoinSearch
      (.inl ⟨rfl, hev, h2, by rw [Nat.clog_one_right]; exact Nat.zero_le _⟩) hpar
    rw [Oracle.relids_plan ht, bitmapOf_of_perm hperm]
    exact cover_eq_unionRelids fun i hi => by simpa [Nat.testBit_two_pow_sub_one] using hi

theorem relids_joinlistRel (hpl : pl.KeepsRelids o) {a r : R} {rs : List R}
    (h : joinlistRel o pl a rs = .ok r) : o.relids r = o.unionRelids (a :: rs) := by
  unfold joinlistRel at h
  split_ifs at h with h1
  · obtain rfl : rs = [] := List.length_eq_zero.mp (Nat.succ.inj h1)
    cases h
    simp
  · exact relids_joinSearch hpl (by simp only [List.length_cons] at h1 ⊢; omega) h

/-- A joinlist node's initial relation comes first; `do` inversion of a sub-joinlist. -/
theorem nodeRel_list_eq_ok {first : JoinNode} {rest : List JoinNode} {r : R}
    (h : nodeRel o pl (.list first rest) = .ok r) :
    ∃ a rs, nodeRel o pl first = .ok a ∧ nodeRels o pl rest = .ok rs ∧
      joinlistRel o pl a rs = .ok r := by
  rw [nodeRel] at h
  obtain ⟨a, ha, h⟩ := bind_eq_ok.mp h
  obtain ⟨rs, hrs, h⟩ := bind_eq_ok.mp h
  exact ⟨a, rs, ha, hrs, h⟩

theorem nodeRels_cons_eq_ok {n : JoinNode} {ns : List JoinNode} {rs : List R}
    (h : nodeRels o pl (n :: ns) = .ok rs) :
    ∃ r rs', nodeRel o pl n = .ok r ∧ nodeRels o pl ns = .ok rs' ∧ rs = r :: rs' := by
  rw [nodeRels] at h
  obtain ⟨r, hr, h⟩ := bind_eq_ok.mp h
  obtain ⟨rs', hrs', h⟩ := bind_eq_ok.mp h
  exact ⟨r, rs', hr, hrs', (Except.ok.inj h).symm⟩

mutual
/-- A node's relation covers the `rtindex`es under it. -/
theorem relids_nodeRel (hpl : pl.KeepsRelids o) :
    ∀ (n : JoinNode) {r : R}, nodeRel o pl n = .ok r → o.relids r = n.rtindexes.toFinset
  | .rangeTblRef rtindex, r, h => by
    cases h
    simp [JoinNode.rtindexes, hpl.findBaseRel]
  | .list first rest, r, h => by
    obtain ⟨a, rs, ha, hrs, h⟩ := nodeRel_list_eq_ok h
    rw [relids_joinlistRel hpl h, Oracle.unionRelids_cons, relids_nodeRel hpl first ha,
      unionRelids_nodeRels hpl rest hrs, JoinNode.rtindexes, List.toFinset_append]
/-- The initial relations of a joinlist cover its `rtindex`es. -/
theorem unionRelids_nodeRels (hpl : pl.KeepsRelids o) :
    ∀ (ns : List JoinNode) {rs : List R}, nodeRels o pl ns = .ok rs →
      o.unionRelids rs = (rtindexesOf ns).toFinset
  | [], rs, h => by
    cases h
    rfl
  | n :: ns, rs, h => by
    obtain ⟨r, rs', hr, hrs', rfl⟩ := nodeRels_cons_eq_ok h
    rw [Oracle.unionRelids_cons, relids_nodeRel hpl n hr, unionRelids_nodeRels hpl ns hrs',
      rtindexesOf, List.toFinset_append]
end

/-- **The planner's relation covers the query's relations**, for any oracle. When
`find_base_rel` returns a relation of its own `rtindex` and the hook, GEQO and
`standard_join_search` return relations covering their `initial_rels`, the relation
`make_rel_from_joinlist` returns covers exactly the `rtindex`es of the joinlist, through every
level of sub-joinlists and every parallel search among them. -/
theorem relids_makeRelFromJoinlist (o : Oracle R C) (pl : Planner R) (joinlist : List JoinNode)
    (r : R) (hpl : pl.KeepsRelids o) (h : makeRelFromJoinlist o pl joinlist = .ok (some r)) :
    o.relids r = (rtindexesOf joinlist).toFinset := by
  cases joinlist with
  | nil => cases h
  | cons first rest =>
    obtain ⟨r', hr', hr⟩ := map_eq_ok.mp h
    cases hr
    rw [relids_nodeRel hpl _ hr', JoinNode.rtindexes, rtindexesOf]

/-- A planner whose searches concatenate their inputs' relids: no hook, GEQO off. -/
def concatPlanner : Planner (List Nat × Nat) where
  findBaseRel rtindex := ([rtindex], 0)
  joinSearchHook := none
  enableGeqo := false
  geqoThreshold := 12
  geqo _ rels := (rels.flatMap Prod.fst, 0)
  standardJoinSearch _ rels := (rels.flatMap Prod.fst, 0)

theorem concatPlanner_keepsRelids : concatPlanner.KeepsRelids sumOracle := by
  have hflat : ∀ rels : List (List Nat × Nat),
      (rels.flatMap Prod.fst).toFinset = sumOracle.unionRelids rels := fun rels => by
    induction rels with
    | nil => rfl
    | cons r rels ih => rw [List.flatMap_cons, List.toFinset_append, ih]; rfl
  exact ⟨fun _ => rfl, (fun _ h => nomatch h), hflat, hflat⟩

/-- Three entries, the middle one a sub-joinlist of two: the outer level goes to
`standard_join_search`, the inner one to the parallel search. -/
theorem relids_makeRelFromJoinlist_three :
    ∃ r, makeRelFromJoinlist sumOracle concatPlanner
        [.rangeTblRef 0, .list (.rangeTblRef 1) [.rangeTblRef 2], .rangeTblRef 3] = .ok (some r) ∧
      sumOracle.relids r =
        (rtindexesOf [.rangeTblRef 0, .list (.rangeTblRef 1) [.rangeTblRef 2], .rangeTblRef 3]).toFinset :=
  ⟨_, rfl, relids_makeRelFromJoinlist sumOracle concatPlanner _ _ concatPlanner_keepsRelids rfl⟩

/-! ## No fault with an accepting oracle -/

/-- Every node has an `rtindex`. -/
theorem JoinNode.rtindexes_ne_nil : ∀ n : JoinNode, n.rtindexes ≠ []
  | .rangeTblRef _ => List.cons_ne_nil _ _
  | .list first _ => by
    rw [JoinNode.rtindexes]
    exact fun h => first.rtindexes_ne_nil (List.append_eq_nil.mp h).1

/-- A level has no more entries than base relations. -/
theorem length_le_rtindexesOf : ∀ ns : List JoinNode, ns.length ≤ (rtindexesOf ns).length
  | [] => le_rfl
  | n :: ns => by
    rw [rtindexesOf, List.length_append, List.length_cons]
    have := List.length_pos.mpr n.rtindexes_ne_nil
    have := length_le_rtindexesOf ns
    omega

omit [LinearOrder C] in
/-- Relations covering disjoint `rtindex` lists have disjoint relids. -/
theorem disjointRels_cons_of_nodup {a : R} {rs : List R} {xs ys : List Nat}
    (ha : o.relids a = xs.toFinset) (hrs : o.unionRelids rs = ys.toFinset)
    (hnd : (xs ++ ys).Nodup) (hdisj : o.DisjointRels rs) : o.DisjointRels (a :: rs) :=
  disjointRels_cons.mpr ⟨by
    rw [ha, hrs]; exact List.disjoint_toFinset_iff_disjoint.mpr (List.nodup_append.mp hnd).2.2, hdisj⟩

section Accepting

variable (hacc : o.AcceptsDisjoint) (hmono : o.CostMonotone)
include hacc hmono

/-- With disjoint relations, at most 26 of them, every branch of the dispatch returns a
relation. -/
theorem joinSearch_isOk {rels : List R} (h2 : 2 ≤ rels.length) (h26 : rels.length ≤ 26)
    (hdisj : o.DisjointRels rels) : ∃ r, joinSearch o pl rels.length rels = .ok r := by
  unfold joinSearch
  split
  · exact ⟨_, rfl⟩
  · split_ifs with hgeqo hev
    · exact ⟨_, rfl⟩
    · obtain ⟨r, hr, -⟩ := worker_leftDeep_minCost o rels.length 0 1 rels
        (Nat.dvd_of_mod_eq_zero hev) h2 h26 (by rw [Nat.clog_one_right]; exact Nat.zero_le _) rfl
        hdisj hacc hmono
      exact ⟨r, by rw [parallelJoinSearch_one () (by omega) hr]; rfl⟩
    · exact ⟨_, rfl⟩

theorem joinlistRel_isOk {a : R} {rs : List R} (h26 : (a :: rs).length ≤ 26)
    (hdisj : o.DisjointRels (a :: rs)) : ∃ r, joinlistRel o pl a rs = .ok r := by
  unfold joinlistRel
  split_ifs with h1
  · exact ⟨a, rfl⟩
  · exact joinSearch_isOk hacc hmono (by simp only [List.length_cons] at h1 ⊢; omega) h26 hdisj

omit hacc hmono

mutual
/-- A node with distinct `rtindex`es, at most 26, has a relation. -/
theorem nodeRel_isOk (hacc : o.AcceptsDisjoint) (hmono : o.CostMonotone) (hpl : pl.KeepsRelids o) :
    ∀ n : JoinNode, n.rtindexes.Nodup → n.rtindexes.length ≤ 26 → ∃ r, nodeRel o pl n = .ok r
  | .rangeTblRef _, _, _ => ⟨_, rfl⟩
  | .list first rest, hnd, h26 => by
    rw [JoinNode.rtindexes] at hnd h26
    rw [List.length_append] at h26
    obtain ⟨a, ha⟩ := nodeRel_isOk hacc hmono hpl first (List.nodup_append.mp hnd).1 (by omega)
    obtain ⟨rs, hrs, hdisj, hlen⟩ :=
      nodeRels_isOk hacc hmono hpl rest (List.nodup_append.mp hnd).2.1 (by omega)
    have := List.length_pos.mpr first.rtindexes_ne_nil
    have := length_le_rtindexesOf rest
    obtain ⟨r, hr⟩ := joinlistRel_isOk hacc hmono (by rw [List.length_cons, hlen]; omega)
      (disjointRels_cons_of_nodup (relids_nodeRel hpl first ha) (unionRelids_nodeRels hpl rest hrs)
        hnd hdisj)
    exact ⟨r, by rw [nodeRel, ha, hrs]; exact hr⟩
/-- A joinlist with distinct `rtindex`es, at most 26, has initial relations with disjoint relids,
one per node. -/
theorem nodeRels_isOk (hacc : o.AcceptsDisjoint) (hmono : o.CostMonotone) (hpl : pl.KeepsRelids o) :
    ∀ ns : List JoinNode, (rtindexesOf ns).Nodup → (rtindexesOf ns).length ≤ 26 →
    ∃ rs, nodeRels o pl ns = .ok rs ∧ o.DisjointRels rs ∧ rs.length = ns.length
  | [], _, _ => ⟨[], rfl, List.Pairwise.nil, rfl⟩
  | n :: ns, hnd, h26 => by
    rw [rtindexesOf] at hnd h26
    rw [List.length_append] at h26
    obtain ⟨r, hr⟩ := nodeRel_isOk hacc hmono hpl n (List.nodup_append.mp hnd).1 (by omega)
    obtain ⟨rs, hrs, hdisj, hlen⟩ :=
      nodeRels_isOk hacc hmono hpl ns (List.nodup_append.mp hnd).2.1 (by omega)
    exact ⟨r :: rs, by rw [nodeRels, hr, hrs]; rfl, disjointRels_cons_of_nodup
      (relids_nodeRel hpl n hr) (unionRelids_nodeRels hpl ns hrs) hnd hdisj, by simp [hlen]⟩
end

end Accepting

/-- **The planner never faults on a query whose joins are all legal.** For a nonempty joinlist
whose `rtindex`es are distinct and at most 26, an oracle that accepts disjoint pairs at costs monotone in
their inputs', and planner routines that cover what they are given: `make_rel_from_joinlist`
returns a relation. Every parallel search it runs, on base relations or on the relations of
sub-joinlists, returns without a fault. -/
theorem makeRelFromJoinlist_isOk (o : Oracle R C) (pl : Planner R) (joinlist : List JoinNode)
    (hpl : pl.KeepsRelids o) (hacc : o.AcceptsDisjoint) (hmono : o.CostMonotone)
    (hnd : (rtindexesOf joinlist).Nodup) (hsize : (rtindexesOf joinlist).length ≤ 26)
    (hne : joinlist ≠ []) : ∃ r, makeRelFromJoinlist o pl joinlist = .ok (some r) := by
  cases joinlist with
  | nil => exact absurd rfl hne
  | cons first rest =>
    obtain ⟨r, hr⟩ := nodeRel_isOk hacc hmono hpl (.list first rest)
      (by rwa [JoinNode.rtindexes, ← rtindexesOf]) (by rwa [JoinNode.rtindexes, ← rtindexesOf])
    exact ⟨r, by rw [makeRelFromJoinlist, hr]; rfl⟩

/-- Four base relations in one joinlist: the parallel search builds the relation. -/
theorem makeRelFromJoinlist_isOk_four :
    (rtindexesOf [.rangeTblRef 0, .rangeTblRef 1, .rangeTblRef 2, .rangeTblRef 3]).Nodup ∧
      (rtindexesOf [.rangeTblRef 0, .rangeTblRef 1, .rangeTblRef 2, .rangeTblRef 3]).length ≤ 26 ∧
      ∃ r, makeRelFromJoinlist sumOracle concatPlanner
        [.rangeTblRef 0, .rangeTblRef 1, .rangeTblRef 2, .rangeTblRef 3] = .ok (some r) :=
  ⟨by decide, by decide, makeRelFromJoinlist_isOk sumOracle concatPlanner _ concatPlanner_keepsRelids
    sumOracle_acceptsDisjoint sumOracle_costMonotone (by decide) (by decide) (by simp)⟩

end ParallelJoin
