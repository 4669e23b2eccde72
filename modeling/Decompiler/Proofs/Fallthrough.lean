import Decompiler.Proofs.BodyGraph

/-!
# Marking nodes until all code is reached

A node that no code leads to directly is reached by marking the node in front of it. That may cut
off other nodes, since a marked node no longer leads to where it jumps.

Main statement: `ensureFallthrough_reaches`.
-/

namespace Decompiler.Flow.Graph

open List

open Relation (ReflTransGen)

structure InOrder (g : Graph) : Prop where
  entry : 0 < g.nodes.size
  ordered : ∀ {i j : Nat} {a b : Node}, g.nodes[i]? = some a → g.nodes[j]? = some b → i ≤ j →
    a.block.index ≤ b.block.index
  falls : ∀ {i : Nat} {n : Node} {t f}, g.nodes[i]? = some n → n.link = .branch t f →
    f = i + 1 ∧ i + 1 < g.nodes.size

def SelectsInside (g : Graph) : Prop :=
  ∀ {i : Nat} {n : Node} {cases}, g.nodes[i]? = some n → n.link = .select cases →
    i + 1 < g.nodes.size

def Raised (g g' : Graph) : Prop :=
  g'.nodes.size = g.nodes.size ∧ ∀ {i : Nat} {n : Node}, g.nodes[i]? = some n →
    ∃ mark, g'.nodes[i]? = some { n with emitGoto := mark } ∧ (n.emitGoto → mark) ∧
      ∀ {t f}, n.link = .branch t f → mark = n.emitGoto

def missing (g : Graph) (reached : NodeSet) : List Nat :=
  (List.range g.nodes.size).filter fun i => !reached.contains i

def Round (g g' : Graph) : Prop :=
  ∃ reached, g.reached = .ok reached ∧ g.missing reached ≠ [] ∧
    (g.missing reached).foldlM markBefore g = .ok g'

section

variable {g : Graph} {i : Nat} {n : Node}

lemma InOrder.lt_of_direct (h : g.InOrder) (direct : g.Direct i j) : i < j :=
  direct.lt h.ordered

lemma leadsTo_total (h : g.InOrder) (inside : g.SelectsInside) (found : g.nodes[i]? = some n) :
    ∃ is, g.leadsTo i n = .ok is := by
  unfold leadsTo
  cases link : n.link with
  | next | exit => exact ⟨_, rfl⟩
  | branch t f =>
    obtain ⟨rfl, lt⟩ := h.falls found link
    simp only [lt, decide_true, beq_self_eq_true]
    exact ⟨_, rfl⟩
  | select cases =>
    simp only [inside found link, decide_true]
    exact ⟨_, rfl⟩

lemma reached_spec (h : g.InOrder) (inside : g.SelectsInside) :
    ∃ s, g.reached = .ok s ∧ ∀ j, s.contains j ↔ j = 0 ∨ ∃ i, g.Direct i j := by
  have collect (nodes : List (Node × Nat)) (all : ∀ e ∈ nodes, ∃ is, g.leadsTo e.2 e.1 = .ok is)
      (s : NodeSet) : ∃ s', nodes.foldlM
        (fun s e => do return (← g.leadsTo e.2 e.1).foldl NodeSet.insert s) s = Except.ok s' := by
    induction nodes generalizing s with
    | nil => exact ⟨s, rfl⟩
    | cons e nodes ih =>
      obtain ⟨⟨is, leads⟩, all⟩ := forall_mem_cons.1 all
      obtain ⟨s', run⟩ := ih all (is.foldl NodeSet.insert s)
      refine ⟨s', ?_⟩
      rw [foldlM_cons, leads]
      exact run
  obtain ⟨s, run⟩ := collect _ (fun e mem => leadsTo_total h inside (mem_zipIdx_nodes.1 mem)) (.single 0)
  exact ⟨s, run, (reached_direct run).1⟩

end

section

variable {g g' : Graph} {i : Nat} {n : Node}

namespace Raised

lemma refl : Raised g g :=
  ⟨rfl, fun {_ n} found => ⟨n.emitGoto, found, id, fun _ => rfl⟩⟩

lemma trans (first : Raised g g') (second : Raised g' g'') : Raised g g'' := by
  refine ⟨second.1.trans first.1, fun {i n} found => ?_⟩
  obtain ⟨mark, found', up, same⟩ := first.2 found
  obtain ⟨mark', found'', up', same'⟩ := second.2 found'
  exact ⟨mark', found'', fun marked => up' (up marked), fun link => (same' link).trans (same link)⟩

lemma back (h : Raised g g') (found : g'.nodes[i]? = some n) :
    ∃ m, g.nodes[i]? = some m ∧ n.block = m.block ∧ n.link = m.link := by
  have lt : i < g.nodes.size := h.1 ▸ (getElem?_eq_some_iff.1 found).1
  obtain ⟨mark, found', -⟩ := h.2 (Array.getElem?_eq_getElem lt)
  cases found.symm.trans found'
  exact ⟨_, Array.getElem?_eq_getElem lt, rfl, rfl⟩

lemma inOrder (h : Raised g g') (order : g.InOrder) : g'.InOrder where
  entry := h.1 ▸ order.entry
  ordered found found' le := by
    obtain ⟨m, hm, block, -⟩ := h.back found
    obtain ⟨m', hm', block', -⟩ := h.back found'
    exact block ▸ block' ▸ order.ordered hm hm' le
  falls found link := by
    obtain ⟨m, hm, -, same⟩ := h.back found
    exact h.1 ▸ order.falls hm (same ▸ link)

lemma selectsInside (h : Raised g g') (inside : g.SelectsInside) : g'.SelectsInside := by
  intro i n cases found link
  obtain ⟨m, hm, -, same⟩ := h.back found
  exact h.1 ▸ inside hm (same ▸ link)

end Raised

lemma not_direct_fall (found : g.nodes[k]? = some n) (lt : k + 1 < g.nodes.size)
    (missed : ¬ g.Direct k (k + 1)) : n.emitGoto = false ∧ ∀ t f, n.link ≠ .branch t f := by
  refine ⟨Bool.eq_false_iff.2 fun marked => missed (.marked found marked lt), fun t f link => ?_⟩
  exact missed (.fall found link lt)

lemma markBefore_spec (found : g.nodes[k]? = some n) (plain : ∀ t f, n.link ≠ .branch t f) :
    ∃ g', g.markBefore (k + 1) = .ok g' ∧ Raised g g' ∧
      g'.nodes[k]? = some { n with emitGoto := true } := by
  have mark : g.markBefore (k + 1) =
      .ok ⟨g.nodes.setIfInBounds k { n with emitGoto := true }⟩ := by
    unfold markBefore
    simp only [found]
    split
    case h_1 t f _ _ _ _ e => exact absurd (congrArg Node.link (Option.some.inj e)) (plain t f)
    case h_2 _ e => cases e; rfl
    case h_3 e => cases e
  have lt := (getElem?_eq_some_iff.1 found).1
  refine ⟨_, mark, ⟨Array.size_setIfInBounds, fun {i m} found' => ?_⟩, ?_⟩
  · by_cases same : k = i
    · subst same
      cases found.symm.trans found'
      refine ⟨true, ?_, fun _ => rfl, fun link => absurd link (plain _ _)⟩
      rw [Array.getElem?_setIfInBounds_self_of_lt lt]
    · refine ⟨m.emitGoto, ?_, id, fun _ => rfl⟩
      rw [Array.getElem?_setIfInBounds_ne same]
      exact found'
  · rw [Array.getElem?_setIfInBounds_self_of_lt lt]

lemma foldlM_markBefore {is : List Nat} (all : ∀ i ∈ is, ∃ k n, i = k + 1 ∧
      g.nodes[k]? = some n ∧ ∀ t f, n.link ≠ .branch t f) :
    ∃ g', is.foldlM markBefore g = .ok g' ∧ Raised g g' ∧
      ∀ k, k + 1 ∈ is → ∃ n, g'.nodes[k]? = some n ∧ n.emitGoto := by
  induction is generalizing g with
  | nil => exact ⟨g, rfl, .refl, nofun⟩
  | cons i is ih =>
    obtain ⟨⟨k, n, rfl, found, plain⟩, others⟩ := forall_mem_cons.1 all
    obtain ⟨g1, mark, raised, marked⟩ := markBefore_spec found plain
    have all' : ∀ i ∈ is, ∃ k n, i = k + 1 ∧ g1.nodes[k]? = some n ∧ ∀ t f, n.link ≠ .branch t f := by
      intro i mem
      obtain ⟨k, n, eq, found, plain⟩ := others i mem
      obtain ⟨_, found', -⟩ := raised.2 found
      exact ⟨k, _, eq, found', plain⟩
    obtain ⟨g', run, raised', marks⟩ := ih all'
    refine ⟨g', by rw [foldlM_cons, mark]; exact run, raised.trans raised', fun k' mem => ?_⟩
    rcases mem_cons.1 mem with same | mem
    · cases Nat.succ.inj same
      obtain ⟨mark, found', up, -⟩ := raised'.2 marked
      exact ⟨_, found', up rfl⟩
    · exact marks k' mem

def unmarked (g : Graph) : Finset Nat :=
  (Finset.range (g.nodes.size - 1)).filter fun k => !g.nodes[k]?.any Node.emitGoto

lemma mem_unmarked : k ∈ g.unmarked ↔
    k < g.nodes.size - 1 ∧ ∀ n, g.nodes[k]? = some n → n.emitGoto = false := by
  rw [unmarked, Finset.mem_filter]
  cases g.nodes[k]? <;> simp

lemma Raised.card_unmarked_lt (raised : Raised g g') (old : k ∈ g.unmarked)
    (found : g'.nodes[k]? = some n) (new : n.emitGoto) : g'.unmarked.card < g.unmarked.card := by
  refine Finset.card_lt_card (Finset.ssubset_iff_of_subset (fun j mem => ?_) |>.2 ⟨k, old, fun mem => ?_⟩)
  · obtain ⟨lt, free⟩ := mem_unmarked.1 mem
    refine mem_unmarked.2 ⟨raised.1 ▸ lt, fun m found => ?_⟩
    obtain ⟨mark, found', up, -⟩ := raised.2 found
    by_contra marked
    have := free _ found'
    simp [up (by simpa using marked)] at this
  · rw [(mem_unmarked.1 mem).2 n found] at new
    cases new

lemma round_spec (h : g.InOrder) (inside : g.SelectsInside)
    (contains : ∀ j, s.contains j ↔ j = 0 ∨ ∃ i, g.Direct i j) (nonempty : g.missing s ≠ []) :
    ∃ g', (g.missing s).foldlM markBefore g = .ok g' ∧ Raised g g' ∧
      g'.unmarked.card < g.unmarked.card ∧
      ∃ s', g'.reached = .ok s' ∧ ∃ j, s'.contains j ∧ s.contains j = false := by
  have missed {j : Nat} (mem : j ∈ g.missing s) : ∃ k n, j = k + 1 ∧ k + 1 < g.nodes.size ∧
      g.nodes[k]? = some n ∧ n.emitGoto = false ∧ ∀ t f, n.link ≠ .branch t f := by
    obtain ⟨mem, out⟩ := mem_filter.1 mem
    rw [mem_range] at mem
    have out : ¬ (j = 0 ∨ ∃ i, g.Direct i j) := by simpa [← contains] using out
    obtain ⟨k, rfl⟩ := Nat.exists_eq_succ_of_ne_zero fun zero => out (.inl zero)
    have found := Array.getElem?_eq_getElem (Nat.lt_of_succ_lt mem)
    exact ⟨k, _, rfl, mem, found, not_direct_fall found mem fun direct => out (.inr ⟨k, direct⟩)⟩
  obtain ⟨g', run, raised, marks⟩ := @foldlM_markBefore g (g.missing s) fun j mem => by
    obtain ⟨k, n, eq, -, found, -, plain⟩ := missed mem
    exact ⟨k, n, eq, found, plain⟩
  obtain ⟨s', reached', contains'⟩ := reached_spec (raised.inOrder h) (raised.selectsInside inside)
  obtain ⟨j, mem⟩ := exists_mem_of_ne_nil _ nonempty
  obtain ⟨k, n, rfl, lt, found, free, -⟩ := missed mem
  obtain ⟨m, found', marked⟩ := marks k mem
  refine ⟨g', run, raised, raised.card_unmarked_lt (mem_unmarked.2 ⟨by omega, ?_⟩) found' marked,
    s', reached', k + 1, (contains' _).2 (.inr ⟨k, .marked found' marked (raised.1 ▸ lt)⟩), ?_⟩
  · intro n' found''
    cases found.symm.trans found''
    exact free
  · simpa using (mem_filter.1 mem).2

end

section

variable {g : Graph}

lemma InOrder.reaches (h : g.InOrder) (contains : ∀ j, s.contains j ↔ j = 0 ∨ ∃ i, g.Direct i j)
    (none : g.missing s = []) (lt : i < g.nodes.size) : ReflTransGen g.Direct 0 i := by
  induction i using Nat.strongRecOn with
  | ind i ih =>
    have here : s.contains i := by
      simpa using filter_eq_nil_iff.1 none i (mem_range.2 lt)
    rcases (contains i).1 here with rfl | ⟨k, direct⟩
    · exact .refl
    · have before := h.lt_of_direct direct
      exact (ih k before (before.trans lt)).tail direct

lemma ensureFallthroughFrom_succ (reached : g.reached = .ok s) (other : s ≠ last) :
    ensureFallthroughFrom (rounds + 1) last g =
      match g.missing s with
      | [] => .ok g
      | missing => missing.foldlM markBefore g >>= ensureFallthroughFrom rounds s := by
  rw [ensureFallthroughFrom, reached]
  change (if (s == last) then _ else _) = _
  rw [beq_false_of_ne other]
  rfl

/-- Every round marks another node, and in the end all code is reached. -/
lemma rounds_end (h : g.InOrder) (inside : g.SelectsInside)
    (news : ∀ s, g.reached = .ok s → ∃ j, s.contains j ∧ last.contains j = false) :
    ∃ (gs : List Graph) (g' : Graph), gs.length ≤ g.unmarked.card + 1 ∧
      (∀ rounds, g.unmarked.card < rounds → ensureFallthroughFrom rounds last g = .ok g') ∧
      gs.head? = some g ∧ gs.getLast? = some g' ∧ gs.IsChain (fun a b => Round a b ∧ Raised a b) ∧
      ∀ i < g'.nodes.size, ReflTransGen g'.Direct 0 i := by
  induction left : g.unmarked.card using Nat.strongRecOn generalizing g last with
  | ind card ih =>
    subst left
    obtain ⟨s, reached, contains⟩ := reached_spec h inside
    have other : s ≠ last := by
      rintro rfl
      obtain ⟨j, new, old⟩ := news s reached
      rw [old] at new
      cases new
    cases none : g.missing s with
    | nil =>
      refine ⟨[g], g, Nat.le_add_left 1 _, fun rounds enough => ?_, rfl, rfl, .singleton g,
        fun i lt => h.reaches contains none lt⟩
      obtain ⟨rounds, rfl⟩ := Nat.exists_eq_succ_of_ne_zero (Nat.ne_zero_of_lt enough)
      rw [ensureFallthroughFrom_succ reached other, none]
    | cons first others =>
      have nonempty : g.missing s ≠ [] := by rw [none]; exact cons_ne_nil _ _
      obtain ⟨g1, run, raised, less, s1, reached1, more⟩ := round_spec h inside contains nonempty
      obtain ⟨gs, g', length, run', head, tail, chain, direct⟩ := @ih _ less g1 s
        (raised.inOrder h) (raised.selectsInside inside) (fun s' reached' => by
          cases reached1.symm.trans reached'
          exact more) rfl
      refine ⟨g :: gs, g', Nat.succ_le_succ (length.trans less), fun rounds enough => ?_, rfl, ?_, ?_,
        direct⟩
      · obtain ⟨rounds, rfl⟩ := Nat.exists_eq_succ_of_ne_zero (Nat.ne_zero_of_lt enough)
        rw [ensureFallthroughFrom_succ reached other, none]
        rw [none] at run
        change foldlM markBefore g (first :: others) >>= _ = _
        rw [run]
        exact run' rounds (by omega)
      · rw [getLast?_cons, tail]
        rfl
      · refine isChain_cons.2 ⟨fun g2 mem => ?_, chain⟩
        cases head.symm.trans mem
        exact ⟨⟨s, reached, nonempty, run⟩, raised⟩

/-- Marking nodes ends without a failure after one round for each node at most. In each round marks
are set and never taken away, and branches keep theirs. After that every node is reached from the
entry along direct edges. -/
theorem ensureFallthrough_reaches (h : g.InOrder) (inside : g.SelectsInside) :
    ∃ (gs : List Graph) (g' : Graph), g.ensureFallthrough = .ok g' ∧
      ensureFallthroughFrom g.nodes.size .empty g = .ok g' ∧ gs.length ≤ g.nodes.size ∧
      gs.head? = some g ∧ gs.getLast? = some g' ∧ gs.IsChain (fun a b => Round a b ∧ Raised a b) ∧
      ∀ i < g'.nodes.size, ReflTransGen g'.Direct 0 i := by
  have card : g.unmarked.card < g.nodes.size := by
    have le : g.unmarked.card ≤ (Finset.range (g.nodes.size - 1)).card := Finset.card_filter_le _ _
    rw [Finset.card_range] at le
    have := h.entry
    omega
  obtain ⟨gs, g', length, run, rest⟩ := @rounds_end g .empty h inside fun s reached => by
    obtain ⟨s', reached', contains⟩ := reached_spec h inside
    cases reached.symm.trans reached'
    exact ⟨0, (contains 0).2 (.inl rfl), by simp [NodeSet.contains, NodeSet.empty]⟩
  exact ⟨gs, g', run _ (by omega), run _ card, by omega, rest⟩

def switchLoop : Graph :=
  let node (index : Nat) (link : Link) : Node :=
    { block := ⟨index, none, "", []⟩, emitGoto := link matches .select _, link }
  ⟨#[node 0 (.select [1, 2]), node 1 (.next 3), node 2 (.next 1), node 3 (.exit 0)]⟩

lemma switchLoop_node (found : switchLoop.nodes[i]? = some n) :
    n.block.index = i ∧ (∀ t f, n.link ≠ .branch t f) ∧ ∀ cases, n.link = .select cases → i = 0 := by
  match i with
  | 0 =>
    cases found
    exact ⟨rfl, nofun, fun _ _ => rfl⟩
  | 1 | 2 | 3 =>
    cases found
    exact ⟨rfl, nofun, nofun⟩
  | k + 4 => cases (Array.getElem?_eq_none (Nat.le_add_left 4 k)).symm.trans found

/-- The second node is cut off when the first one is marked, and then the return is. -/
theorem ensureFallthrough_reaches_switchLoop :
    switchLoop.InOrder ∧ switchLoop.SelectsInside ∧
      (switchLoop.ensureFallthrough.toOption.map fun g => g.nodes.map Node.emitGoto) =
        some #[true, true, true, false] ∧
      ∃ (gs : List Graph) (g' : Graph), switchLoop.ensureFallthrough = .ok g' ∧
        ensureFallthroughFrom 4 .empty switchLoop = .ok g' ∧ gs.length ≤ 4 ∧
        gs.head? = some switchLoop ∧ gs.getLast? = some g' ∧
        gs.IsChain (fun a b => Round a b ∧ Raised a b) ∧
        ∀ i < g'.nodes.size, ReflTransGen g'.Direct 0 i := by
  have order : switchLoop.InOrder := by
    refine ⟨by decide, fun {i j a b} found found' le => ?_, fun {i n t f} found link => ?_⟩
    · rwa [(switchLoop_node found).1, (switchLoop_node found').1]
    · exact absurd link ((switchLoop_node found).2.1 t f)
  have inside : switchLoop.SelectsInside := by
    intro i n cases found link
    rw [(switchLoop_node found).2.2 cases link]
    decide
  exact ⟨order, inside, by decide +kernel, ensureFallthrough_reaches order inside⟩

end

end Decompiler.Flow.Graph
