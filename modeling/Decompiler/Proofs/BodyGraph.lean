import Decompiler.Flow.Build
import Decompiler.Proofs.Cutter
import Decompiler.Proofs.FlowGraph

/-!
# The flow graph of a body

The graph of a body is connected, and each of its nodes but the first follows an earlier one in the
order in which code is written.
-/

namespace Decompiler.Flow

open Asm

lemma Numbered.append {blocks b} (h : Numbered blocks) (index : b.index = blocks.length) :
    Numbered (blocks ++ [b]) := by
  intro k b' found
  rcases lt_or_ge k blocks.length with lt | ge
  · exact h k b' (by rwa [List.getElem?_append_left lt] at found)
  · rw [List.getElem?_append_right ge, List.getElem?_singleton] at found
    obtain ⟨zero, same⟩ := Option.ite_none_right_eq_some.1 found
    cases same
    omega

namespace Cutter

variable {c c' : Cutter} {i slot : Instruction} {items : List Item}

lemma numbered_cut (h : Numbered c.blocks.reverse) : Numbered c.cut.blocks.reverse := by
  unfold cut
  split
  · exact h
  · rw [List.reverse_cons]
    exact h.append (List.length_reverse).symm

lemma numbered_setLabel (h : Numbered c.blocks.reverse) (set : c.setLabel name = .ok c') :
    Numbered c'.blocks.reverse := by
  rcases setLabel_cases set with rfl | ⟨same, -⟩
  · exact h
  · rwa [same]

lemma Takes.numbered (takes : Takes c i slot c') (h : Numbered c.blocks.reverse) :
    Numbered c'.blocks.reverse := by
  cases takes with
  | call => exact h
  | jump => exact numbered_cut h
  | likely => exact numbered_cut (numbered_cut (numbered_cut h))

lemma Reads.numbered (reads : Reads c items c') (h : Numbered c.blocks.reverse) :
    Numbered c'.blocks.reverse := by
  induction reads with
  | done => exact h
  | label set _ ih => exact ih (numbered_setLabel (numbered_cut h) set)
  | plain _ _ ih => exact ih h
  | slot _ takes _ ih | labelled _ takes _ ih => exact ih (takes.numbered h)

end Cutter

/-- The blocks of a body are numbered as they stand. -/
lemma blocks_numbered {mentioned body blocks console console'}
    (h : (Flow.blocks mentioned body).run console = (.ok blocks, console')) : Numbered blocks := by
  obtain ⟨_, c, reads, rfl⟩ := blocks_finished h
  have numbered : Numbered c.blocks.reverse :=
    reads.numbered fun _ _ found => by simp at found
  unfold Cutter.finished
  split
  · exact numbered
  · exact Cutter.numbered_cut numbered

namespace NodeSet

lemma contains_single (i j : Nat) : (single i).contains j = (j == i) := by
  simp [contains, single, Nat.one_shiftLeft, Nat.testBit_two_pow, beq_eq_decide, eq_comm]

@[simp]
lemma contains_insert (s : NodeSet) (i j : Nat) :
    (s.insert i).contains j = (s.contains j || j == i) := by
  rw [insert, contains_union, contains_single]

lemma contains_foldl_insert (s : NodeSet) (is : List Nat) (j : Nat) :
    (is.foldl insert s).contains j = (s.contains j || is.contains j) := by
  induction is generalizing s with
  | nil => simp
  | cons i is ih => rw [List.foldl_cons, ih, contains_insert, List.contains_cons, Bool.or_assoc]

end NodeSet

inductive Node.Leads (n : Node) (k : Nat) : Nat → Prop where
  | marked :
    n.emitGoto →
    Leads n k (k + 1)
  | fall :
    n.link = .branch t f →
    Leads n k (k + 1)
  | select :
    n.link = .select cases →
    Leads n k (k + 1)
  | next :
    n.link = .next s →
    n.emitGoto = false →
    Leads n k s
  | branch :
    n.link = .branch t f →
    n.emitGoto = false →
    Leads n k t

structure Graph.Covered (g : Graph) : Prop where
  falls : ∀ {k : Nat} {n : Node} {t f}, g.nodes[k]? = some n → n.link = .branch t f → f = k + 1
  /-- Each node but the first follows an earlier one. -/
  led : ∀ {i}, 0 < i → i < g.nodes.size → ∃ k n, k < i ∧ g.nodes[k]? = some n ∧ n.Leads k i

namespace Graph

/-- The edges that lead on without a jump: to the node behind a marked node, a branch or a selection,
and forward from a node that is not marked. -/
inductive Direct (g : Graph) : Nat → Nat → Prop where
  | marked :
    g.nodes[i]? = some n →
    n.emitGoto →
    i + 1 < g.nodes.size →
    Direct g i (i + 1)
  | fall :
    g.nodes[i]? = some n →
    n.link = .branch t f →
    i + 1 < g.nodes.size →
    Direct g i (i + 1)
  | select :
    g.nodes[i]? = some n →
    n.link = .select cases →
    i + 1 < g.nodes.size →
    Direct g i (i + 1)
  | next :
    g.nodes[i]? = some n →
    n.link = .next s →
    n.emitGoto = false →
    g.isLoopEdge i s = false →
    Direct g i s
  | branch :
    g.nodes[i]? = some n →
    n.link = .branch t f →
    n.emitGoto = false →
    g.isLoopEdge i t = false →
    Direct g i t

variable {g g' : Graph} {i : Nat} {n : Node}

lemma Direct.lt (h : g.Direct i j) (ordered : ∀ {i j : Nat} {a b : Node}, g.nodes[i]? = some a →
    g.nodes[j]? = some b → i ≤ j → a.block.index ≤ b.block.index) : i < j := by
  -- A jump that does not go back goes to a later block, and blocks stand in order.
  have later {i t : Nat} {n : Node} (found : g.nodes[i]? = some n)
      (forward : g.isLoopEdge i t = false) : i < t := by
    by_contra le
    have within := (getElem?_eq_some_iff.1 found).1
    have target := Array.getElem?_eq_getElem (lt_of_le_of_lt (Nat.le_of_not_lt le) within)
    have := ordered target found (Nat.le_of_not_lt le)
    simp only [isLoopEdge, blockIndex, found, target, decide_eq_false_iff_not] at forward
    omega
  cases h with
  | marked | fall | select => exact Nat.lt_succ_self i
  | next found _ _ forward | branch found _ _ forward => exact later found forward

lemma Direct.leads (h : g.Direct i j) : ∃ n, g.nodes[i]? = some n ∧ n.Leads i j := by
  cases h with
  | marked found marked => exact ⟨_, found, .marked marked⟩
  | fall found link => exact ⟨_, found, .fall link⟩
  | select found link => exact ⟨_, found, .select link⟩
  | next found link free => exact ⟨_, found, .next link free⟩
  | branch found link free => exact ⟨_, found, .branch link free⟩

lemma direct_iff (found : g.nodes[i]? = some n) : g.Direct i j ↔
    (j = i + 1 ∧ i + 1 < g.nodes.size ∧
      (n.emitGoto ∨ (∃ t f, n.link = .branch t f) ∨ ∃ cases, n.link = .select cases)) ∨
    (n.emitGoto = false ∧ g.isLoopEdge i j = false ∧
      (n.link = .next j ∨ ∃ f, n.link = .branch j f)) := by
  have only {m : Node} (found' : g.nodes[i]? = some m) : m = n :=
    Option.some.inj (found'.symm.trans found)
  constructor
  · intro direct
    cases direct with
    | marked found' marked lt => exact .inl ⟨rfl, lt, .inl (only found' ▸ marked)⟩
    | fall found' link lt => exact .inl ⟨rfl, lt, .inr (.inl ⟨_, _, only found' ▸ link⟩)⟩
    | select found' link lt => exact .inl ⟨rfl, lt, .inr (.inr ⟨_, only found' ▸ link⟩)⟩
    | next found' link free forward =>
      exact .inr ⟨only found' ▸ free, forward, .inl (only found' ▸ link)⟩
    | branch found' link free forward =>
      exact .inr ⟨only found' ▸ free, forward, .inr ⟨_, only found' ▸ link⟩⟩
  · rintro (⟨rfl, lt, marked | ⟨t, f, link⟩ | ⟨cases, link⟩⟩ | ⟨free, forward, link | ⟨f, link⟩⟩)
    · exact .marked found marked lt
    · exact .fall found link lt
    · exact .select found link lt
    · exact .next found link free forward
    · exact .branch found link free forward

/-- The nodes that a node leads to, and where its branch falls through. -/
lemma leadsTo_spec (found : g.nodes[i]? = some n) (h : g.leadsTo i n = .ok is) :
    (∀ j, j ∈ is ↔ g.Direct i j) ∧ ∀ t f, n.link = .branch t f → f = i + 1 := by
  have jump {t j : Nat} (loop : g.isLoop i = g.isLoopEdge i t) :
      j ∈ (if !n.emitGoto && !g.isLoop i then [t] else []) ↔
        n.emitGoto = false ∧ g.isLoopEdge i j = false ∧ t = j := by
    rw [loop]
    by_cases same : t = j
    · cases n.emitGoto <;> cases back : g.isLoopEdge i j <;> simp [same, back]
    · cases n.emitGoto <;> cases g.isLoopEdge i t <;> simp [same, Ne.symm same]
  simp only [direct_iff found]
  unfold leadsTo at h
  cases link : n.link with
  | next s =>
    simp only [link] at h
    cases h
    refine ⟨fun j => ?_, nofun⟩
    rw [List.mem_append, jump (by simp only [isLoop, found, link])]
    by_cases lt : i + 1 < g.nodes.size <;> cases n.emitGoto <;> simp [lt]
  | branch t f =>
    simp only [link] at h
    obtain ⟨_, e, h⟩ := bind_ok h
    cases h
    obtain ⟨lt, rfl⟩ : i + 1 < g.nodes.size ∧ f = i + 1 := by
      by_contra other
      simp [expect, other] at e
    refine ⟨fun j => ?_, fun _ _ same => (Link.branch.inj same).2.symm⟩
    rw [List.mem_cons, jump (by simp only [isLoop, found, link])]
    cases n.emitGoto <;> simp [lt]
  | exit copy =>
    simp only [link] at h
    cases h
    refine ⟨fun j => ?_, nofun⟩
    by_cases lt : i + 1 < g.nodes.size <;> cases n.emitGoto <;> simp [lt]
  | select cases =>
    simp only [link] at h
    obtain ⟨_, e, h⟩ := bind_ok h
    cases h
    have lt : i + 1 < g.nodes.size := by
      by_contra other
      simp [expect, other] at e
    exact ⟨fun j => by simp [lt], nofun⟩

lemma foldlM_leadsTo {nodes : List (Node × Nat)}
    (h : nodes.foldlM (fun s (n, i) => do return (← g.leadsTo i n).foldl NodeSet.insert s) s =
      Except.ok s') :
    (∀ e ∈ nodes, ∃ is, g.leadsTo e.2 e.1 = .ok is) ∧
      ∀ {i}, s'.contains i ↔ s.contains i ∨
        ∃ e ∈ nodes, ∃ is, g.leadsTo e.2 e.1 = .ok is ∧ i ∈ is := by
  induction nodes generalizing s with
  | nil =>
    cases h
    exact ⟨List.forall_mem_nil _, by simp⟩
  | cons e nodes ih =>
    obtain ⟨s1, step, h⟩ := bind_ok h
    obtain ⟨is, leads, step⟩ := bind_ok step
    cases step
    obtain ⟨all, contains⟩ := ih h
    refine ⟨List.forall_mem_cons.2 ⟨⟨is, leads⟩, all⟩, fun {i} => ?_⟩
    rw [contains, NodeSet.contains_foldl_insert, Bool.or_eq_true, List.exists_mem_cons_iff, leads,
      or_assoc]
    simp

lemma mem_zipIdx_nodes : e ∈ g.nodes.toList.zipIdx ↔ g.nodes[e.2]? = some e.1 := by
  rw [List.mem_zipIdx_iff_getElem?, Array.getElem?_toList]

lemma reached_direct (h : g.reached = .ok s) :
    (∀ j, s.contains j ↔ j = 0 ∨ ∃ i, g.Direct i j) ∧
      ∀ {i : Nat} {n : Node} {t f}, g.nodes[i]? = some n → n.link = .branch t f → f = i + 1 := by
  obtain ⟨leads, contains⟩ := foldlM_leadsTo h
  refine ⟨fun j => contains.trans (or_congr ?_ ?_), fun {i n _ _} found link => ?_⟩
  · rw [NodeSet.contains_single, beq_iff_eq]
  · constructor
    · rintro ⟨e, mem, is, run, mem'⟩
      exact ⟨e.2, ((leadsTo_spec (mem_zipIdx_nodes.1 mem) run).1 j).1 mem'⟩
    · rintro ⟨i, direct⟩
      obtain ⟨n, found, -⟩ := direct.leads
      obtain ⟨is, run⟩ := leads (n, i) (mem_zipIdx_nodes.2 found)
      exact ⟨(n, i), mem_zipIdx_nodes.2 found, is, run, ((leadsTo_spec found run).1 j).2 direct⟩
  · obtain ⟨is, run⟩ := leads (n, i) (mem_zipIdx_nodes.2 found)
    exact (leadsTo_spec found run).2 _ _ link

lemma covered_of_reached (conn : g.Connected) (h : g.reached = .ok s)
    (all : ∀ i < g.nodes.size, s.contains i) : g.Covered := by
  obtain ⟨contains, falls⟩ := reached_direct h
  refine ⟨falls, fun {i} pos lt => ?_⟩
  obtain ⟨k, direct⟩ := ((contains i).1 (all i lt)).resolve_left (ne_of_gt pos)
  obtain ⟨n, found, leads⟩ := direct.leads
  exact ⟨k, n, direct.lt conn.ordered, found, leads⟩

def Alike (g g' : Graph) : Prop :=
  ∀ i : Nat, g'.nodes[i]?.map (fun n => (n.block, n.link, n.parents)) =
    g.nodes[i]?.map fun n => (n.block, n.link, n.parents)

namespace Alike

lemma trans (h : Alike g g') (h' : Alike g' g'') : Alike g g'' :=
  fun i => (h' i).trans (h i)

lemma symm (h : Alike g g') : Alike g' g :=
  fun i => (h i).symm

lemma node (h : Alike g g') (found : g.nodes[i]? = some n) :
    ∃ n', g'.nodes[i]? = some n' ∧ n'.block = n.block ∧ n'.link = n.link ∧
      n'.parents = n.parents := by
  have same := h i
  rw [found] at same
  obtain ⟨n', found', eq⟩ := Option.map_eq_some_iff.1 same
  exact ⟨n', found', congrArg (·.1) eq, congrArg (·.2.1) eq, congrArg (·.2.2) eq⟩

lemma connected (h : Alike g g') (conn : g.Connected) : g'.Connected where
  links found t mem := by
    obtain ⟨n, e, -, link, -⟩ := h.symm.node found
    obtain ⟨m, hm, parent⟩ := conn.links e t (link ▸ mem)
    obtain ⟨m', hm', -, -, parents⟩ := h.node hm
    exact ⟨m', hm', parents ▸ parent⟩
  ordered found found' le := by
    obtain ⟨n, e, block, -⟩ := h.symm.node found
    obtain ⟨n', e', block', -⟩ := h.symm.node found'
    exact block ▸ block' ▸ conn.ordered e e' le
  copies found copy := by
    obtain ⟨n, e, -, link, parents⟩ := h.symm.node found
    obtain ⟨i, p, only, hp, next⟩ := conn.copies e (link ▸ copy)
    obtain ⟨p', hp', -, link', -⟩ := h.node hp
    exact ⟨i, p', parents ▸ only, hp', link'.trans next⟩
  copiesLast found found' le copy := by
    obtain ⟨n, e, -, link, -⟩ := h.symm.node found
    obtain ⟨n', e', -, link', -⟩ := h.symm.node found'
    exact link' ▸ conn.copiesLast e e' le (link ▸ copy)

end Alike

lemma markBefore_alike (h : g.markBefore i = .ok g') : Alike g g' := by
  unfold markBefore at h
  split at h
  · cases h
  case h_2 k =>
    split at h
    · cases h
    case h_2 n _ found =>
      cases h
      intro j
      rw [Array.getElem?_setIfInBounds]
      split
      case isTrue same =>
        split <;> simp_all
      case isFalse => rfl
    · cases h
      exact fun _ => rfl

lemma foldlM_markBefore_alike {is : List Nat} (h : is.foldlM markBefore g = .ok g') :
    Alike g g' := by
  induction is generalizing g with
  | nil =>
    cases h
    exact fun _ => rfl
  | cons i is ih =>
    obtain ⟨g1, step, h⟩ := bind_ok h
    exact (markBefore_alike step).trans (ih h)

lemma ensureFallthroughFrom_alike (h : ensureFallthroughFrom rounds last g = .ok g') :
    Alike g g' ∧ ∃ s, g'.reached = .ok s ∧ ∀ i < g'.nodes.size, s.contains i := by
  induction rounds generalizing g last with
  | zero => cases h
  | succ rounds ih =>
    obtain ⟨s, reached, h⟩ := bind_ok h
    by_cases cycle : s == last
    · simp only [cycle, if_true] at h
      cases h
    · simp only [cycle, Bool.false_eq_true, if_false] at h
      split at h
      case h_1 none =>
        cases h
        refine ⟨fun _ => rfl, s, reached, fun i lt => ?_⟩
        simpa using List.filter_eq_nil_iff.1 none i (List.mem_range.2 lt)
      case h_2 =>
        obtain ⟨g1, marked, h⟩ := bind_ok h
        exact (ih h).imp_left (foldlM_markBefore_alike marked).trans

lemma withDominators_node :
    g.withDominators.nodes[i]? = some n → ∃ m, g.nodes[i]? = some m ∧ n.emitGoto = m.emitGoto ∧
      n.block = m.block ∧ n.link = m.link ∧ n.parents = m.parents := by
  intro h
  simp only [withDominators, Array.getElem?_mapIdx] at h
  obtain ⟨m, hm, rfl⟩ := Option.map_eq_some_iff.1 h
  exact ⟨m, hm, rfl, rfl, rfl, rfl⟩

lemma withDominators_alike : Alike g g.withDominators := by
  intro i
  simp only [withDominators, Array.getElem?_mapIdx, Option.map_map]
  rfl

lemma Covered.withDominators (h : g.Covered) : g.withDominators.Covered where
  falls found link := by
    obtain ⟨m, hm, -, -, same, -⟩ := withDominators_node found
    exact h.falls hm (same ▸ link)
  led pos lt := by
    obtain ⟨k, m, before, hm, leads⟩ := h.led pos (by simpa [Graph.withDominators] using lt)
    obtain ⟨n, hn, -⟩ := withDominators_alike.node hm
    obtain ⟨m', hm', goto, -, link, -⟩ := withDominators_node hn
    cases hm.symm.trans hm'
    refine ⟨k, n, before, hn, ?_⟩
    cases leads with
    | marked marked => exact .marked (goto ▸ marked)
    | fall fall => exact .fall (link.trans fall)
    | select select => exact .select (link.trans select)
    | next next unmarked => exact .next (link.trans next) (goto.trans unmarked)
    | branch branch unmarked => exact .branch (link.trans branch) (goto.trans unmarked)

/-- The graph of a body is connected, and all of its code is reached. -/
lemma ofBody_connected_covered (h : (ofBody rodata body).run console = (.ok g, console')) :
    g.Connected ∧ g.Covered := by
  obtain ⟨blocks, console1, e, h⟩ := run_bind_ok h
  obtain ⟨d, console2, reachable, h⟩ := run_bind_ok h
  obtain ⟨g1, console3, marked, h⟩ := run_bind_ok h
  cases h
  obtain ⟨conn, plain⟩ := reachableNodes_connected (blocks_numbered e) (lift_ok reachable)
  have conn := ofDraft_connected (copyReturns_connected conn plain)
  obtain ⟨alike, s, reached, all⟩ := ensureFallthroughFrom_alike (lift_ok marked)
  have conn := alike.connected conn
  exact ⟨withDominators_alike.connected conn, (covered_of_reached conn reached all).withDominators⟩

end Graph

end Decompiler.Flow
