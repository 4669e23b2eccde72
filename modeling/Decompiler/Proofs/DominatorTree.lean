import Decompiler.Proofs.GraphShape

/-!
# The tree of dominators

The dominators of a node form a chain, so the one with the most dominators is the closest one, and
the links to the closest dominators are a tree.
-/

namespace Decompiler.Flow.Graph

open List

variable {g : Graph} {d e i : Nat}

structure Closest (g : Graph) (d i : Nat) : Prop where
  dominates : g.Dominates d i
  strict : d ≠ i
  last : ∀ e, g.Dominates e i → e ≠ i → g.Dominates e d

lemma entry_dominates (i : Nat) : g.Dominates 0 i :=
  fun _ along => along.start_mem

section

variable (rooted : g.Rooted)

include rooted

lemma Rooted.antisymm (lt : d < g.nodes.size) (h : g.Dominates d e) (h' : g.Dominates e d) :
    d = e := by
  obtain ⟨path, along⟩ := rooted.reached d lt
  exact h.antisymm h' along

lemma Rooted.lt_of_dominates (lt : i < g.nodes.size) (h : g.Dominates d i) : d < g.nodes.size := by
  obtain ⟨path, along⟩ := rooted.reached i lt
  exact along.lt_of_mem lt (h path along)

lemma Closest.unique (lt : i < g.nodes.size) (h : g.Closest d i) (h' : g.Closest e i) : d = e := by
  refine rooted.antisymm (rooted.lt_of_dominates lt h.dominates) ?_ ?_
  · exact h'.last d h.dominates h.strict
  · exact h.last e h'.dominates h'.strict

end

def rank (g : Graph) (i : Nat) : Nat :=
  (dominatorsAt g.dominatorSets i).size g.nodes.size

lemma rank_lt (rooted : g.Rooted) (lt : i < g.nodes.size) (h : g.Dominates d i) (ne : d ≠ i) :
    g.rank d < g.rank i := by
  have ltd := rooted.lt_of_dominates lt h
  refine NodeSet.size_lt_of_subset ?_ ?_ ?_
  · intro e mem
    rw [mem_dominatorSets rooted ltd] at mem
    exact (mem_dominatorSets rooted lt).2 (mem.trans h)
  · intro same
    have self := (mem_dominatorSets rooted lt).2 (.refl : g.Dominates i i)
    rw [← same, mem_dominatorSets rooted ltd] at self
    exact ne (rooted.antisymm ltd h self)
  · intro e mem
    exact rooted.lt_of_dominates lt ((mem_dominatorSets rooted lt).1 mem)

lemma rank_pos (rooted : g.Rooted) (lt : i < g.nodes.size) : 0 < g.rank i := by
  refine length_pos_of_mem (mem_filter.2 ⟨mem_range.2 lt, ?_⟩)
  exact (mem_dominatorSets rooted lt).2 .refl

lemma rank_le (g : Graph) (i : Nat) : g.rank i ≤ g.nodes.size :=
  NodeSet.size_le _ _

def heavier (weight : Nat → Nat) (i : Nat) (best : Option Nat) (d : Nat) : Option Nat :=
  if d == i then best
  else
    match best with
    | none => some d
    | some b => if weight b < weight d then some d else some b

section

lemma heavier_some (ne : d ≠ i) : ∃ b, heavier weight i best d = some b ∧ (best = some b ∨ b = d) ∧
    weight d ≤ weight b ∧ ∀ c, best = some c → weight c ≤ weight b := by
  unfold heavier
  rw [if_neg fun h => ne (eq_of_beq h)]
  cases best with
  | none => exact ⟨d, rfl, .inr rfl, le_rfl, by simp⟩
  | some c =>
    by_cases lt : weight c < weight d
    · refine ⟨d, if_pos lt, .inr rfl, le_rfl, ?_⟩
      rintro _ ⟨⟩
      exact lt.le
    · refine ⟨c, if_neg lt, .inl rfl, Nat.le_of_not_lt lt, ?_⟩
      rintro _ ⟨⟩
      exact le_rfl

/-- The heaviest node is found, except for the node itself. -/
lemma foldl_heavier (l : List Nat) (best : Option Nat) :
    (∀ b, l.foldl (heavier weight i) best = some b → best = some b ∨ b ∈ l ∧ b ≠ i) ∧
      ∀ d, best = some d ∨ d ∈ l ∧ d ≠ i →
        ∃ b, l.foldl (heavier weight i) best = some b ∧ weight d ≤ weight b := by
  induction l generalizing best with
  | nil =>
    refine ⟨fun b h => .inl h, ?_⟩
    rintro d (h | ⟨h, -⟩)
    · exact ⟨d, h, le_rfl⟩
    · exact absurd h not_mem_nil
  | cons x l ih =>
    rw [foldl_cons]
    by_cases skip : x = i
    · subst skip
      have same : heavier weight x best x = best := if_pos (beq_self_eq_true x)
      rw [same]
      obtain ⟨candidate, heaviest⟩ := ih best
      refine ⟨fun b h => (candidate b h).imp_right fun ⟨mem, ne⟩ => ⟨.tail _ mem, ne⟩, ?_⟩
      rintro d (h | ⟨h, ne⟩)
      · exact heaviest d (.inl h)
      · exact heaviest d (.inr ⟨(mem_cons.1 h).resolve_left ne, ne⟩)
    · obtain ⟨b, kept, origin, atLeast, atLeast'⟩ := @heavier_some x i weight best skip
      rw [kept]
      obtain ⟨candidate, heaviest⟩ := ih (some b)
      refine ⟨fun b' h => ?_, ?_⟩
      · rcases candidate b' h with same | ⟨mem, ne⟩
        · cases same
          rcases origin with h | rfl
          · exact .inl h
          · exact .inr ⟨.head _, skip⟩
        · exact .inr ⟨.tail _ mem, ne⟩
      · obtain ⟨b', found, le⟩ := heaviest b (.inl rfl)
        rintro d (h | ⟨h, ne⟩)
        · exact ⟨b', found, (atLeast' d h).trans le⟩
        · rcases mem_cons.1 h with rfl | mem
          · exact ⟨b', found, atLeast.trans le⟩
          · exact heaviest d (.inr ⟨mem, ne⟩)

end

lemma lastDominator?_closest (rooted : g.Rooted) (lt : i < g.nodes.size) (other : i ≠ 0) :
    ∃ d, lastDominator? g.dominatorSets i = some d ∧ g.Closest d i := by
  have size := (dominatorSets_settled rooted).1.size
  have member {d : Nat} : d ∈ (dominatorsAt g.dominatorSets i).toList g.dominatorSets.size ↔
      g.Dominates d i := by
    rw [NodeSet.toList, mem_filter, mem_range, mem_dominatorSets rooted lt, size]
    exact ⟨And.right, fun h => ⟨rooted.lt_of_dominates lt h, h⟩⟩
  obtain ⟨candidate, heaviest⟩ := @foldl_heavier i
    (fun d => (dominatorsAt g.dominatorSets d).size g.dominatorSets.size)
    ((dominatorsAt g.dominatorSets i).toList g.dominatorSets.size) none
  obtain ⟨d, found, -⟩ := heaviest 0 (.inr ⟨member.2 (entry_dominates i), other.symm⟩)
  obtain ⟨mem, ne⟩ := (candidate d found).resolve_left (by simp)
  have dom := member.1 mem
  refine ⟨d, found, dom, ne, ?_⟩
  intro e dom' ne'
  obtain ⟨path, along⟩ := rooted.reached i lt
  rcases dom'.chain dom along with h | h
  · exact h
  · -- Otherwise the other one would have more dominators.
    by_cases same : d = e
    · exact same ▸ .refl
    · obtain ⟨b, found', le⟩ := heaviest e (.inr ⟨member.2 dom', ne'⟩)
      cases found.symm.trans found'
      have lt := rank_lt rooted (rooted.lt_of_dominates lt dom') h same
      rw [size] at le
      exact absurd le (not_le.2 lt)

def idom? (g : Graph) (i : Nat) : Option Nat :=
  g.nodes[i]?.bind (·.immediateDominator)

def children (g : Graph) (i : Nat) : List Nat :=
  (g.nodes.getD i default).immediatelyDominates

structure DominatorTree (g : Graph) : Prop extends g.Rooted where
  closest : ∀ i < g.nodes.size, i ≠ 0 → ∃ d, g.idom? i = some d ∧ g.Closest d i
  entry : g.idom? 0 = none
  children : ∀ i < g.nodes.size, g.children i =
    (List.range g.nodes.size).filter fun j => g.idom? j == some i

lemma Alike.dominates (h : Alike g g') (dom : g.Dominates d i) : g'.Dominates d i :=
  fun path along => dom path (h.symm.path along)

lemma Alike.closest (h : Alike g g') (closest : g.Closest d i) : g'.Closest d i where
  dominates := h.dominates closest.dominates
  strict := closest.strict
  last e dom ne := h.dominates (closest.last e (h.symm.dominates dom) ne)

lemma withDominators_idom (g : Graph) (lt : i < g.nodes.size) :
    g.withDominators.idom? i = if i = 0 then none else lastDominator? g.dominatorSets i := by
  simp only [idom?, withDominators, Array.getElem?_mapIdx]
  simp [lt]

lemma withDominators_tree (rooted : g.Rooted) : g.withDominators.DominatorTree := by
  have size : g.withDominators.nodes.size = g.nodes.size := by simp [withDominators]
  refine { withDominators_alike.rooted rooted with closest := ?_, entry := ?_, children := ?_ }
  · intro i lt other
    rw [size] at lt
    obtain ⟨d, found, closest⟩ := lastDominator?_closest rooted lt other
    refine ⟨d, ?_, withDominators_alike.closest closest⟩
    rw [withDominators_idom g lt, if_neg other, found]
  · by_cases lt : 0 < g.nodes.size
    · rw [withDominators_idom g lt, if_pos rfl]
    · rw [idom?, Array.getElem?_eq_none (size ▸ Nat.le_of_not_lt lt)]
      rfl
  · intro i lt
    rw [size] at lt
    have node : g.withDominators.children i = (range g.nodes.size).filter fun j =>
        (((range g.nodes.size).map fun i =>
          if i == 0 then none else lastDominator? g.dominatorSets i).toArray[j]?).join == some i := by
      simp [children, withDominators, Array.getD_eq_getD_getElem?, lt]
    rw [node, size]
    refine filter_congr fun j mem => ?_
    have lt := mem_range.1 mem
    rw [withDominators_idom g lt]
    simp [lt]

/-- The graph of a body knows its tree of dominators. -/
lemma ofBody_tree (h : (ofBody rodata body).run console = (.ok g, console')) : g.DominatorTree := by
  obtain ⟨rooted, -⟩ := ofBody_rooted h
  obtain ⟨blocks, console1, -, h⟩ := run_bind_ok h
  obtain ⟨d, console2, -, h⟩ := run_bind_ok h
  obtain ⟨g1, console3, -, h⟩ := run_bind_ok h
  cases h
  exact withDominators_tree (withDominators_alike.symm.rooted rooted)

def treeFrom (g : Graph) : Nat → Nat → List Nat
  | 0, _ => []
  | depth + 1, i => i :: (g.children i).flatMap (g.treeFrom depth)

section

variable (tree : g.DominatorTree)

include tree

lemma DominatorTree.mem_children (lt : i < g.nodes.size) :
    j ∈ g.children i ↔ j < g.nodes.size ∧ g.idom? j = some i := by
  rw [tree.children i lt, mem_filter, mem_range, beq_iff_eq]

lemma DominatorTree.closest_idom (lt : j < g.nodes.size) (idom : g.idom? j = some i) :
    g.Closest i j := by
  have other : j ≠ 0 := by
    rintro rfl
    rw [tree.entry] at idom
    cases idom
  obtain ⟨d, idom', closest⟩ := tree.closest j lt other
  cases idom.symm.trans idom'
  exact closest

section

variable (lt : i < g.nodes.size)

include lt

lemma DominatorTree.child_closest (h : j ∈ g.children i) : j < g.nodes.size ∧ g.Closest i j := by
  obtain ⟨ltj, idom⟩ := (tree.mem_children lt).1 h
  exact ⟨ltj, tree.closest_idom ltj idom⟩

lemma DominatorTree.rank_child (h : j ∈ g.children i) : g.rank i < g.rank j := by
  obtain ⟨ltj, closest⟩ := tree.child_closest lt h
  exact rank_lt tree.toRooted ltj closest.dominates closest.strict

lemma dominates_of_mem_treeFrom (mem : j ∈ g.treeFrom depth i) :
    j < g.nodes.size ∧ g.Dominates i j := by
  induction depth generalizing i with
  | zero => exact absurd mem not_mem_nil
  | succ depth ih =>
    rcases mem_cons.1 mem with rfl | mem
    · exact ⟨lt, .refl⟩
    · obtain ⟨c, child, mem⟩ := mem_flatMap.1 mem
      obtain ⟨ltc, closest⟩ := tree.child_closest lt child
      obtain ⟨ltj, dom⟩ := ih ltc mem
      exact ⟨ltj, closest.dominates.trans dom⟩

lemma mem_treeFrom_child (enough : g.nodes.size < depth + g.rank i)
    (mem : d ∈ g.treeFrom depth i) (child : j ∈ g.children d) : j ∈ g.treeFrom depth i := by
  induction depth generalizing i with
  | zero => exact absurd mem not_mem_nil
  | succ depth ih =>
    refine mem_cons_of_mem _ (mem_flatMap.2 ?_)
    rcases mem_cons.1 mem with rfl | mem
    · refine ⟨j, child, ?_⟩
      have more := tree.rank_child lt child
      have bound := g.rank_le j
      obtain ⟨k, rfl⟩ : ∃ k, depth = k + 1 := ⟨depth - 1, by omega⟩
      exact mem_cons_self
    · obtain ⟨c, between, mem⟩ := mem_flatMap.1 mem
      have more := tree.rank_child lt between
      exact ⟨c, between, ih (tree.child_closest lt between).1 (by omega) mem⟩

lemma mem_treeFrom (enough : g.nodes.size < depth + g.rank i) :
    j ∈ g.treeFrom depth i ↔ j < g.nodes.size ∧ g.Dominates i j := by
  refine ⟨dominates_of_mem_treeFrom tree lt, ?_⟩
  rintro ⟨ltj, dom⟩
  -- The node is found below its closest dominator, which has fewer dominators.
  induction r : g.rank j using Nat.strongRecOn generalizing j with
  | _ r ih =>
    by_cases same : i = j
    · subst same
      have bound := g.rank_le i
      obtain ⟨k, rfl⟩ : ∃ k, depth = k + 1 := ⟨depth - 1, by omega⟩
      exact mem_cons_self
    · have other : j ≠ 0 := by
        rintro rfl
        exact same dom.entry
      obtain ⟨d, idom, closest⟩ := tree.closest j ltj other
      have ltd := tree.lt_of_dominates ltj closest.dominates
      have fewer := rank_lt tree.toRooted ltj closest.dominates closest.strict
      have mem := ih (g.rank d) (r ▸ fewer) ltd (closest.last i dom same) rfl
      exact mem_treeFrom_child tree lt enough mem ((tree.mem_children ltd).2 ⟨ltj, idom⟩)

/-- No node is met twice in the tree. -/
lemma treeFrom_nodup : (g.treeFrom depth i).Nodup := by
  induction depth generalizing i with
  | zero => exact nodup_nil
  | succ depth ih =>
    refine nodup_cons.2 ⟨?_, nodup_flatMap.2 ⟨?_, ?_⟩⟩
    · intro mem
      obtain ⟨c, child, mem⟩ := mem_flatMap.1 mem
      obtain ⟨ltc, closest⟩ := tree.child_closest lt child
      have back := (dominates_of_mem_treeFrom tree ltc mem).2
      exact closest.strict (tree.antisymm lt closest.dominates back)
    · intro c child
      exact ih (tree.child_closest lt child).1
    · have distinct : (g.children i).Nodup := by
        rw [tree.children i lt]
        exact nodup_range.filter _
      refine distinct.imp_of_mem ?_
      intro c c' child child' ne j mem mem'
      obtain ⟨ltc, closest⟩ := tree.child_closest lt child
      obtain ⟨ltc', closest'⟩ := tree.child_closest lt child'
      obtain ⟨ltj, dom⟩ := dominates_of_mem_treeFrom tree ltc mem
      obtain ⟨-, dom'⟩ := dominates_of_mem_treeFrom tree ltc' mem'
      obtain ⟨path, along⟩ := tree.reached j ltj
      -- One child would dominate the other one and so their common dominator.
      rcases dom.chain dom' along with h | h
      · have back := closest'.last c h ne
        exact closest.strict (tree.antisymm lt closest.dominates back)
      · have back := closest.last c' h ne.symm
        exact closest'.strict (tree.antisymm lt closest'.dominates back)

end

/-- All nodes are met in the tree. -/
lemma treeFrom_perm (some_node : 0 < g.nodes.size) (enough : g.nodes.size ≤ depth) :
    (g.treeFrom depth 0).Perm (range g.nodes.size) := by
  refine (perm_ext_iff_of_nodup (treeFrom_nodup tree some_node) nodup_range).2 ?_
  intro j
  have self := rank_pos tree.toRooted some_node
  rw [mem_treeFrom tree some_node (by omega), mem_range]
  exact ⟨And.left, fun lt => ⟨lt, entry_dominates j⟩⟩

end

end Decompiler.Flow.Graph
