import Decompiler.Proofs.BodyGraph
import Decompiler.Proofs.Paths

/-!
# Dominators by paths

The sets of dominators start too large, and every pass takes nodes out of them that are no
dominators. The passes end, since there is only so much to take out, and what is left then are the
nodes that lie on every path from the entry.

Main statement: `withDominators_exact`.
-/

namespace Decompiler.Flow

open NodeSet

namespace NodeSet

variable {s t : NodeSet} {n : Nat}

lemma ext (h : ∀ i, s.contains i = t.contains i) : s = t := by
  exact congrArg mk (Nat.eq_of_testBit_eq h)

lemma size_le_of_subset (h : ∀ i, s.contains i → t.contains i) : s.size n ≤ t.size n :=
  (List.monotone_filter_right _ h).length_le

lemma size_lt_of_subset (h : ∀ i, s.contains i → t.contains i) (ne : s ≠ t)
    (bound : ∀ i, t.contains i → i < n) : s.size n < t.size n := by
  by_contra le
  refine ne (ext fun i => Bool.eq_iff_iff.2 ⟨h i, fun mem => ?_⟩)
  have sub : (s.toList n).Sublist (t.toList n) := List.monotone_filter_right _ h
  have same := sub.eq_of_length_le (Nat.le_of_not_lt le)
  have mem : i ∈ t.toList n := List.mem_filter.2 ⟨List.mem_range.2 (bound i mem), mem⟩
  exact (List.mem_filter.1 (same ▸ mem)).2

lemma size_le (s : NodeSet) (n : Nat) : s.size n ≤ n := by
  simpa [size, toList] using (List.range n).length_filter_le s.contains

end NodeSet

namespace Graph

structure Rooted (g : Graph) : Prop where
  reached : ∀ i < g.nodes.size, ∃ path, g.Path 0 path i
  parents : ∀ {i : Nat} {n : Node}, g.nodes[i]? = some n → ∀ p, p ∈ n.parents ↔ g.Edge p i

structure Holding (g : Graph) (doms : Array NodeSet) : Prop where
  size : doms.size = g.nodes.size
  bounded : ∀ i d, (dominatorsAt doms i).contains d → d < g.nodes.size
  entry : ∀ d, (dominatorsAt doms 0).contains d → d = 0
  holds : ∀ i < g.nodes.size, ∀ d, g.Dominates d i → (dominatorsAt doms i).contains d

structure Narrows (doms doms' : Array NodeSet) : Prop where
  size : doms'.size = doms.size
  subset : ∀ i d, (dominatorsAt doms' i).contains d → (dominatorsAt doms i).contains d

namespace Narrows

variable {doms : Array NodeSet}

lemma refl : Narrows doms doms :=
  ⟨rfl, fun _ _ h => h⟩

lemma trans (h : Narrows doms doms') (h' : Narrows doms' doms'') : Narrows doms doms'' :=
  ⟨h'.size.trans h.size, fun i d mem => h.subset i d (h'.subset i d mem)⟩

lemma antisymm (h : Narrows doms doms') (h' : Narrows doms' doms) : doms = doms' := by
  refine Array.ext h'.size fun i lt lt' => ?_
  have at_eq {doms : Array NodeSet} (lt : i < doms.size) : dominatorsAt doms i = doms[i] := by
    rw [dominatorsAt, Array.getElem?_eq_getElem lt, Option.getD_some]
  rw [← at_eq lt, ← at_eq lt']
  exact ext fun d => Bool.eq_iff_iff.2 ⟨h'.subset i d, h.subset i d⟩

end Narrows

section

variable {g : Graph} {doms : Array NodeSet} {i d : Nat} {n : Node}

lemma dominatorsAt_set :
    dominatorsAt (doms.setIfInBounds i s) j =
      if i = j ∧ i < doms.size then s else dominatorsAt doms j := by
  simp only [dominatorsAt, Array.getElem?_setIfInBounds]
  split
  · split
    · simp_all
    · simp_all
  · simp_all

lemma contains_joinParents :
    (joinParents doms i n).contains d ↔
      ((dominatorsAt doms i).contains d ∧ ∀ p ∈ n.parents, (dominatorsAt doms p).contains d) ∨
        d = i := by
  have all (s : NodeSet) (ps : List Nat) :
      (ps.foldl (fun s p => s.inter (dominatorsAt doms p)) s).contains d ↔
        s.contains d ∧ ∀ p ∈ ps, (dominatorsAt doms p).contains d := by
    induction ps generalizing s with
    | nil => simp
    | cons p ps ih =>
      rw [List.foldl_cons, ih, contains_inter, Bool.and_eq_true, List.forall_mem_cons,
        and_assoc]
  rw [joinParents, contains_insert, Bool.or_eq_true, all, beq_iff_eq]

lemma Holding.update (rooted : g.Rooted) (holding : g.Holding doms) (found : g.nodes[i]? = some n)
    (other : i ≠ 0) :
    g.Holding (doms.setIfInBounds i (joinParents doms i n)) ∧
      Narrows doms (doms.setIfInBounds i (joinParents doms i n)) := by
  have lt : i < g.nodes.size := (getElem?_eq_some_iff.1 found).1
  have self : (dominatorsAt doms i).contains i := holding.holds i lt i .refl
  have narrows : Narrows doms (doms.setIfInBounds i (joinParents doms i n)) := by
    refine ⟨Array.size_setIfInBounds, fun j d mem => ?_⟩
    rw [dominatorsAt_set] at mem
    split at mem
    · rename_i here
      obtain ⟨rfl, -⟩ := here
      rcases contains_joinParents.1 mem with ⟨mem, -⟩ | rfl
      · exact mem
      · exact self
    · exact mem
  refine ⟨⟨narrows.size.trans holding.size, fun j d mem => ?_, fun d mem => ?_, ?_⟩, narrows⟩
  · exact holding.bounded j d (narrows.subset j d mem)
  · exact holding.entry d (narrows.subset 0 d mem)
  · intro j ltj d dom
    rw [dominatorsAt_set]
    split
    · rename_i here
      obtain ⟨rfl, -⟩ := here
      refine contains_joinParents.2 ?_
      by_cases same : d = i
      · exact .inr same
      · refine .inl ⟨holding.holds i ltj d dom, fun p parent => ?_⟩
        have edge := (rooted.parents found p).1 parent
        exact holding.holds p edge.lt d (dom.of_edge edge same)
    · exact holding.holds j ltj d dom

/-- A pass only takes out nodes that are no dominators. -/
lemma Holding.pass (rooted : g.Rooted) {nodes} (mem : ∀ e ∈ nodes, g.nodes[e.2]? = some e.1 ∧ e.2 ≠ 0)
    (holding : g.Holding doms) :
    g.Holding (dominatorPass nodes doms) ∧ Narrows doms (dominatorPass nodes doms) ∧
      (dominatorPass nodes doms = doms →
        ∀ e ∈ nodes, doms.setIfInBounds e.2 (joinParents doms e.2 e.1) = doms) := by
  induction nodes generalizing doms with
  | nil => exact ⟨holding, .refl, fun _ _ h => (List.not_mem_nil h).elim⟩
  | cons e nodes ih =>
    obtain ⟨n, i⟩ := e
    obtain ⟨found, other⟩ := mem _ List.mem_cons_self
    obtain ⟨holding1, narrows1⟩ := holding.update rooted found other
    obtain ⟨holding', narrows', settled⟩ :=
      ih (fun e h => mem e (List.mem_cons_of_mem _ h)) holding1
    refine ⟨holding', narrows1.trans narrows', fun same => ?_⟩
    have unchanged : doms.setIfInBounds i (joinParents doms i n) = doms := by
      refine Narrows.antisymm ?_ narrows1
      have narrows : Narrows _ (dominatorPass ((n, i) :: nodes) doms) := narrows'
      rwa [same] at narrows
    refine List.forall_mem_cons.2 ⟨unchanged, ?_⟩
    rw [unchanged] at settled
    refine settled ?_
    have pass : dominatorPass ((n, i) :: nodes) doms =
        dominatorPass nodes (doms.setIfInBounds i (joinParents doms i n)) := rfl
    rwa [pass, unchanged] at same

end

section

variable {g : Graph} {doms : Array NodeSet} {nodes : List (Node × Nat)}

def total (g : Graph) (doms : Array NodeSet) : Nat :=
  ((List.range g.nodes.size).map fun i => (dominatorsAt doms i).size g.nodes.size).sum

lemma Narrows.total_lt (holding : g.Holding doms) (narrows : Narrows doms doms') (ne : doms' ≠ doms) :
    g.total doms' < g.total doms := by
  refine List.sum_lt_sum _ _ (fun i _ => size_le_of_subset (narrows.subset i)) ?_
  by_contra same
  refine ne (antisymm ⟨narrows.size.symm, fun i d mem => ?_⟩ narrows)
  by_cases lt : i < g.nodes.size
  · have unchanged : dominatorsAt doms' i = dominatorsAt doms i := by
      by_contra differ
      exact same ⟨i, List.mem_range.2 lt, size_lt_of_subset (narrows.subset i) differ
        fun d mem => holding.bounded i d mem⟩
    rwa [unchanged]
  · have absent : doms[i]? = none := Array.getElem?_eq_none (holding.size ▸ Nat.le_of_not_lt lt)
    simp [dominatorsAt, absent, contains, empty] at mem

lemma dominatorPasses_settled (rooted : g.Rooted)
    (mem : ∀ e ∈ nodes, g.nodes[e.2]? = some e.1 ∧ e.2 ≠ 0) (holding : g.Holding doms)
    (enough : g.total doms < passes) :
    g.Holding (dominatorPasses nodes passes doms) ∧
      dominatorPass nodes (dominatorPasses nodes passes doms) = dominatorPasses nodes passes doms ∧
      ∀ more, dominatorPasses nodes (passes + more) doms = dominatorPasses nodes passes doms := by
  induction passes generalizing doms with
  | zero => exact absurd enough (Nat.not_lt_zero _)
  | succ passes ih =>
    obtain ⟨holding', narrows, -⟩ := holding.pass rooted mem
    have unfolded (k) : dominatorPasses nodes (k + 1) doms =
        if dominatorPass nodes doms == doms then doms
        else dominatorPasses nodes k (dominatorPass nodes doms) := rfl
    by_cases same : dominatorPass nodes doms = doms
    · have last (k) : dominatorPasses nodes (k + 1) doms = doms := by
        rw [unfolded, if_pos (beq_iff_eq.2 same)]
      refine ⟨by rwa [last], by rw [last, same], fun more => ?_⟩
      rw [add_right_comm, last, last]
    · have next (k) : dominatorPasses nodes (k + 1) doms =
          dominatorPasses nodes k (dominatorPass nodes doms) := by
        rw [unfolded, if_neg fun h => same (eq_of_beq h)]
      have fewer := narrows.total_lt holding same
      obtain ⟨holds, settled, stable⟩ := ih holding' (by omega)
      refine ⟨by rwa [next], by rwa [next], fun more => ?_⟩
      rw [add_right_comm, next, next, stable]

lemma dominates_of_settled (rooted : g.Rooted) (holding : g.Holding doms)
    (settled : ∀ {i : Nat} {n : Node}, g.nodes[i]? = some n → i ≠ 0 →
      doms.setIfInBounds i (joinParents doms i n) = doms) (lt : i < g.nodes.size)
    (mem : (dominatorsAt doms i).contains d) : g.Dominates d i := by
  intro path along
  induction along with
  | here =>
    rw [holding.entry d mem]
    exact List.mem_singleton_self _
  | @step path p i before edge ih =>
    by_cases entry : i = 0
    · subst entry
      rw [holding.entry d mem]
      exact List.mem_append_left _ before.start_mem
    · have found := Array.getElem?_eq_getElem lt
      have joined : dominatorsAt doms i = joinParents doms i g.nodes[i] := by
        rw [← settled found entry, dominatorsAt_set, settled found entry,
          if_pos ⟨rfl, holding.size ▸ lt⟩]
      rw [joined] at mem
      rcases contains_joinParents.1 mem with ⟨-, all⟩ | rfl
      · exact List.mem_append_left _ (ih edge.lt (all p ((rooted.parents found p).2 edge)))
      · exact List.mem_append_right _ (List.mem_singleton_self _)

end

def widest (g : Graph) : Array NodeSet :=
  (Array.replicate g.nodes.size (NodeSet.below g.nodes.size)).setIfInBounds 0 (.single 0)

section

variable {g : Graph}

lemma dominatorsAt_widest (lt : i < g.nodes.size) :
    dominatorsAt g.widest i = if i = 0 then .single 0 else .below g.nodes.size := by
  have pos : 0 < g.nodes.size := lt_of_le_of_lt (Nat.zero_le i) lt
  rw [widest, dominatorsAt_set]
  by_cases zero : i = 0
  · rw [if_pos ⟨zero.symm, by simpa using pos⟩, if_pos zero]
  · rw [if_neg fun h => zero h.1.symm, if_neg zero, dominatorsAt,
      Array.getElem?_eq_getElem (by simpa using lt), Array.getElem_replicate, Option.getD_some]

/-- The sets that the passes start with hold all dominators. -/
lemma widest_holding (rooted : g.Rooted) : g.Holding g.widest := by
  have outside {i d} (ge : ¬ i < g.nodes.size) : ¬ (dominatorsAt g.widest i).contains d := by
    have absent : g.widest[i]? = none := by
      refine Array.getElem?_eq_none ?_
      simpa [widest] using Nat.le_of_not_lt ge
    simp [dominatorsAt, absent, contains, empty]
  refine ⟨by simp [widest], fun i d mem => ?_, fun d mem => ?_, fun i lt d dom => ?_⟩
  · by_cases lt : i < g.nodes.size
    · rw [dominatorsAt_widest lt] at mem
      split at mem
      · rw [contains_single, beq_iff_eq] at mem
        omega
      · rw [contains_below] at mem
        exact of_decide_eq_true mem
    · exact absurd mem (outside lt)
  · by_cases pos : 0 < g.nodes.size
    · rw [dominatorsAt_widest pos, if_pos rfl, contains_single] at mem
      exact eq_of_beq mem
    · exact absurd mem (outside pos)
  · rw [dominatorsAt_widest lt]
    split
    · rename_i zero
      subst zero
      rw [dom.entry, contains_single, beq_self_eq_true]
    · obtain ⟨path, along⟩ := rooted.reached i lt
      rw [contains_below]
      exact decide_eq_true (along.lt_of_mem lt (dom path along))

lemma total_widest (g : Graph) : g.total g.widest ≤ g.nodes.size * g.nodes.size := by
  have each : ∀ x ∈ (List.range g.nodes.size).map fun i =>
      (dominatorsAt g.widest i).size g.nodes.size, x ≤ g.nodes.size := by
    intro x mem
    obtain ⟨i, -, rfl⟩ := List.mem_map.1 mem
    exact size_le _ _
  simpa [total] using List.sum_le_card_nsmul _ _ each

end

section

variable {g : Graph}

lemma mem_drop_zipIdx : (n, i) ∈ g.nodes.toList.zipIdx.drop 1 ↔ g.nodes[i]? = some n ∧ i ≠ 0 := by
  simp only [List.mem_iff_getElem?, List.getElem?_drop, List.getElem?_zipIdx, Option.map_eq_some_iff,
    Prod.mk.injEq, Array.getElem?_toList, zero_add]
  constructor
  · rintro ⟨k, m, found, rfl, rfl⟩
    exact ⟨found, by omega⟩
  · rintro ⟨found, other⟩
    obtain ⟨k, rfl⟩ := Nat.exists_eq_add_one_of_ne_zero other
    exact ⟨k, n, by rwa [add_comm], rfl, by omega⟩

lemma dominatorSets_settled (rooted : g.Rooted) : g.Holding g.dominatorSets ∧
    dominatorPass (g.nodes.toList.zipIdx.drop 1) g.dominatorSets = g.dominatorSets ∧
    ∀ more, dominatorPasses (g.nodes.toList.zipIdx.drop 1)
      (g.nodes.size * g.nodes.size + 1 + more) g.widest = g.dominatorSets :=
  dominatorPasses_settled rooted (fun _ mem => mem_drop_zipIdx.1 mem) (widest_holding rooted)
    (Nat.lt_succ_of_le (total_widest g))

/-- The sets that the passes end with are those of the dominators. -/
lemma mem_dominatorSets (rooted : g.Rooted) (lt : i < g.nodes.size) :
    (dominatorsAt g.dominatorSets i).contains d ↔ g.Dominates d i := by
  obtain ⟨holding, settled, -⟩ := dominatorSets_settled rooted
  have unchanged := (holding.pass rooted fun _ mem => mem_drop_zipIdx.1 mem).2.2 settled
  refine ⟨fun mem => ?_, holding.holds i lt d⟩
  refine dominates_of_settled rooted holding (fun found other => ?_) lt mem
  exact unchanged _ (mem_drop_zipIdx.2 ⟨found, other⟩)

/-- The passes over the nodes end, and the dominators of a node are then the nodes that lie on every
path from the entry to it. -/
theorem withDominators_exact (rooted : g.Rooted) :
    (∀ more, dominatorPasses (g.nodes.toList.zipIdx.drop 1)
        (g.nodes.size * g.nodes.size + 1 + more) g.widest = g.dominatorSets) ∧
      dominatorPass (g.nodes.toList.zipIdx.drop 1) g.dominatorSets = g.dominatorSets ∧
      ∀ {i : Nat} {n : Node}, g.withDominators.nodes[i]? = some n →
        ∀ d, n.dominators.contains d ↔ ∀ path, g.Path 0 path i → d ∈ path := by
  obtain ⟨-, settled, stable⟩ := dominatorSets_settled rooted
  refine ⟨stable, settled, fun {i n} found d => ?_⟩
  have lt : i < g.nodes.size := by
    obtain ⟨m, found, -⟩ := withDominators_node found
    exact (Array.getElem?_eq_some_iff.1 found).1
  have dominators : n.dominators = dominatorsAt g.dominatorSets i := by
    simp only [withDominators, Array.getElem?_mapIdx] at found
    obtain ⟨m, -, rfl⟩ := Option.map_eq_some_iff.1 found
    rfl
  rw [dominators]
  exact mem_dominatorSets rooted lt

def knot : Graph :=
  ⟨#[{ (default : Node) with link := .branch 2 1, parents := [3] },
     { (default : Node) with link := .branch 1 2, parents := [0, 1] },
     { (default : Node) with link := .branch 3 3, parents := [0, 1] },
     { (default : Node) with link := .select [0, 4], parents := [2, 2] },
     { (default : Node) with link := .exit 0, parents := [3] }]⟩

lemma knot_edge : knot.Edge p i ↔ p < 5 ∧ i ∈ (knot.nodes.getD p default).link.targets := by
  constructor
  · rintro ⟨n, found, mem⟩
    refine ⟨(getElem?_eq_some_iff.1 found).1, ?_⟩
    rwa [Array.getD_eq_getD_getElem?, found]
  · rintro ⟨lt, mem⟩
    have found : knot.nodes[p]? = some knot.nodes[p] := Array.getElem?_eq_getElem lt
    refine ⟨_, found, ?_⟩
    rwa [Array.getD_eq_getD_getElem?, found] at mem

lemma knot_rooted : knot.Rooted := by
  have edge {p i} (lt : p < 5) (mem : i ∈ (knot.nodes.getD p default).link.targets) :
      knot.Edge p i :=
    knot_edge.2 ⟨lt, mem⟩
  have first : knot.Path 0 [0, 2] 2 := .step .here (edge (by decide) (by decide))
  have second : knot.Path 0 [0, 2, 3] 3 := .step first (edge (by decide) (by decide))
  refine ⟨fun i lt => ?_, fun {i n} found p => ?_⟩
  · match i, lt with
    | 0, _ => exact ⟨_, .here⟩
    | 1, _ => exact ⟨_, .step .here (edge (by decide) (by decide))⟩
    | 2, _ => exact ⟨_, first⟩
    | 3, _ => exact ⟨_, second⟩
    | 4, _ => exact ⟨_, .step second (edge (by decide) (by decide))⟩
  · have lt : i < 5 := (getElem?_eq_some_iff.1 found).1
    have node : n = knot.nodes.getD i default := by
      rw [Array.getD_eq_getD_getElem?, found, Option.getD_some]
    have inverse : ∀ i < 5, (∀ p ∈ (knot.nodes.getD i default).parents, p < 5) ∧
        ∀ p < 5, p ∈ (knot.nodes.getD i default).parents ↔
          i ∈ (knot.nodes.getD p default).link.targets := by decide
    obtain ⟨bound, same⟩ := inverse i lt
    rw [knot_edge, node]
    exact ⟨fun mem => ⟨bound p mem, (same p (bound p mem)).1 mem⟩, fun h => (same p h.1).2 h.2⟩

/-- Every path to the last node passes the third one, but not every path passes the second one. -/
theorem withDominators_exact_knot :
    knot.Rooted ∧ (∀ path, knot.Path 0 path 4 → 2 ∈ path) ∧
      ¬ ∀ path, knot.Path 0 path 4 → 1 ∈ path := by
  obtain ⟨n, found, third, second⟩ : ∃ n, knot.withDominators.nodes[4]? = some n ∧
      n.dominators.contains 2 = true ∧ n.dominators.contains 1 = false :=
    ⟨_, rfl, by decide +kernel, by decide +kernel⟩
  have exact := (withDominators_exact knot_rooted).2.2 found
  refine ⟨knot_rooted, (exact 2).1 third, fun all => ?_⟩
  rw [(exact 1).2 all] at second
  cases second

end

end Graph

end Decompiler.Flow
