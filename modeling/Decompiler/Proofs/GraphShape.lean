import Decompiler.Proofs.Dominance
import Decompiler.Proofs.Spanning

/-!
# The shape of a flow graph

The nodes of a flow graph stand in the order of their blocks and are all reached from the first one,
and each of them knows the nodes that go to it. Copies of a return keep the blocks that are passed
on the way from the entry to a return.

Main statement: `ofBody_wellFormed`.
-/

namespace Decompiler.Flow

open Asm Flow.Graph List Draft
open Relation (ReflTransGen)

namespace Graph

section

variable {d : Draft} {i : Nat} {n : Node}

lemma position_inj (distinct : (d.map Prod.fst).Nodup) (h : (k, n) ∈ d) (h' : (l, m) ∈ d)
    (same : d.position k = d.position l) : k = l := by
  obtain ⟨i, hi⟩ := mem_iff_getElem?.1 h
  obtain ⟨j, hj⟩ := mem_iff_getElem?.1 h'
  rw [position_eq distinct hi, position_eq distinct hj] at same
  subst same
  cases hi.symm.trans hj
  rfl

lemma position_zero (spanned : d.Spanned) : d.position 0 = 0 := by
  obtain ⟨n, rest, rfl, -⟩ := spanned.first
  exact idxOf_cons_self

section

variable (distinct : (d.map Prod.fst).Nodup)

include distinct

lemma blockIndex_position (h : (k, n) ∈ d) :
    (ofDraft d).blockIndex (d.position k) = n.block.index := by
  rw [blockIndex, ofDraft_found distinct h]
  rfl

lemma ofDraft_edge :
    (ofDraft d).Edge i j ↔ ∃ k l, d.Edge k l ∧ i = d.position k ∧ j = d.position l := by
  constructor
  · rintro ⟨n, found, target⟩
    obtain ⟨k, m, at_i, rfl, rfl⟩ := ofDraft_back distinct found
    rw [renumber, Link.targets_map] at target
    obtain ⟨l, old, rfl⟩ := mem_map.1 target
    exact ⟨k, l, (edge_iff distinct).2 ⟨m, mem_of_getElem? at_i, old⟩, rfl, rfl⟩
  · rintro ⟨k, l, edge, rfl, rfl⟩
    obtain ⟨n, mem, target⟩ := (edge_iff distinct).1 edge
    refine ⟨_, ofDraft_found distinct mem, ?_⟩
    rw [renumber, Link.targets_map]
    exact mem_map_of_mem target

lemma ofDraft_path (spanned : d.Spanned)
    (h : ReflTransGen d.Edge 0 k) : ∃ path, (ofDraft d).Path 0 path (d.position k) := by
  induction h with
  | refl =>
    rw [position_zero spanned]
    exact ⟨_, .here⟩
  | tail _ edge ih =>
    obtain ⟨path, along⟩ := ih
    exact ⟨_, along.step ((ofDraft_edge distinct).2 ⟨_, _, edge, rfl, rfl⟩)⟩

end

lemma ofDraft_rooted (conn : d.Connected) (spanned : d.Spanned) : (ofDraft d).Rooted := by
  have lookup {k n} : (k, n) ∈ d ↔ d.lookup k = some n := mem_iff_lookup conn.distinct
  refine ⟨fun i lt => ?_, fun {i n} found p => ?_⟩
  · obtain ⟨k, m, at_i, eq, -⟩ := ofDraft_back conn.distinct (Array.getElem?_eq_getElem lt)
    rw [eq]
    exact ofDraft_path conn.distinct spanned (spanned.reached (mem_of_getElem? at_i))
  · obtain ⟨k, m, at_i, rfl, rfl⟩ := ofDraft_back conn.distinct found
    have mem := mem_of_getElem? at_i
    rw [ofDraft_edge conn.distinct]
    constructor
    · intro parent
      obtain ⟨q, old, rfl⟩ := mem_map.1 parent
      exact ⟨q, k, spanned.backed (lookup.1 mem) q old, rfl, rfl⟩
    · rintro ⟨q, l, edge, rfl, same⟩
      obtain ⟨n, goes, target⟩ := (edge_iff conn.distinct).1 edge
      obtain ⟨m', mem', parent⟩ := conn.links goes l target
      obtain rfl := position_inj conn.distinct mem mem' same
      cases (lookup.1 mem).symm.trans (lookup.1 mem')
      exact mem_map_of_mem parent

end

def Returns (g : Graph) (passed : List Nat) : Prop :=
  ∃ path i n, g.Path 0 path i ∧ g.nodes[i]? = some n ∧ n.isExit ∧ passed = path.map g.blockIndex

structure Matched (g g' : Graph) (R : Nat → Nat → Prop) : Prop where
  entry : R 0 0
  edge : ∀ {i j i'}, R i j → g.Edge i i' → ∃ j', R i' j' ∧ g'.Edge j j'
  block : ∀ {i j}, R i j → g'.blockIndex j = g.blockIndex i
  exits : ∀ {i j n}, R i j → g.nodes[i]? = some n → n.isExit → ∃ m, g'.nodes[j]? = some m ∧ m.isExit

namespace Matched

variable {g g' : Graph} {i : Nat} {nodes : List Nat}

lemma path (h : Matched g g' R) (along : g.Path 0 nodes i) :
    ∃ nodes' j, g'.Path 0 nodes' j ∧ R i j ∧ nodes'.map g'.blockIndex = nodes.map g.blockIndex := by
  induction along with
  | here => exact ⟨[0], 0, .here, h.entry, by simp [h.block h.entry]⟩
  | step _ edge ih =>
    obtain ⟨nodes', j, along', partner, same⟩ := ih
    obtain ⟨j', partner', edge'⟩ := h.edge partner edge
    refine ⟨nodes' ++ [j'], j', along'.step edge', partner', ?_⟩
    rw [map_append, map_append, same, map_singleton, map_singleton,
      h.block partner']

lemma returns (h : Matched g g' R) (ret : g.Returns passed) : g'.Returns passed := by
  obtain ⟨nodes, i, n, along, found, exits, rfl⟩ := ret
  obtain ⟨nodes', j, along', partner, same⟩ := h.path along
  obtain ⟨m, found', exits'⟩ := h.exits partner found exits
  exact ⟨nodes', j, m, along', found', exits', same.symm⟩

end Matched

namespace Alike

variable {g g' : Graph} {i : Nat} {nodes : List Nat}

lemma edge (h : Alike g g') (edge : g.Edge i j) : g'.Edge i j := by
  obtain ⟨n, found, target⟩ := edge
  obtain ⟨n', found', -, link, -⟩ := h.node found
  exact ⟨n', found', link ▸ target⟩

lemma path (h : Alike g g') (along : g.Path 0 nodes i) : g'.Path 0 nodes i := by
  induction along with
  | here => exact .here
  | step _ edge ih => exact ih.step (h.edge edge)

lemma rooted (h : Alike g g') (rooted : g.Rooted) : g'.Rooted := by
  refine ⟨fun i lt => ?_, fun {i n} found p => ?_⟩
  · obtain ⟨n, found, -⟩ := h.symm.node (Array.getElem?_eq_getElem lt)
    obtain ⟨path, along⟩ := rooted.reached i (getElem?_eq_some_iff.1 found).1
    exact ⟨path, h.path along⟩
  · obtain ⟨m, found', -, -, parents⟩ := h.symm.node found
    rw [← parents, rooted.parents found' p]
    exact ⟨h.edge, h.symm.edge⟩

lemma matched (h : Alike g g') : Matched g g' Eq where
  entry := rfl
  edge := by
    rintro i _ i' rfl edge
    exact ⟨i', rfl, h.edge edge⟩
  block := by
    rintro i _ rfl
    unfold blockIndex
    cases found : g.nodes[i]? with
    | none =>
      have same := h i
      rw [found] at same
      rw [Option.map_eq_none_iff.1 same]
    | some n =>
      obtain ⟨n', found', block, -⟩ := h.node found
      rw [found']
      exact congrArg Block.index block
  exits := by
    rintro i _ n rfl found exits
    obtain ⟨n', found', -, link, -⟩ := h.node found
    refine ⟨n', found', ?_⟩
    rwa [Node.isExit, link]

end Alike

/-- Nodes of a draft that stand for those of another one do so in the graphs of both, too. -/
lemma matched_ofDraft {d d' : Draft} {R : Nat × Node → Nat × Node → Prop} (spanned : d.Spanned)
    (spanned' : d'.Spanned) (distinct : (d.map Prod.fst).Nodup) (distinct' : (d'.map Prod.fst).Nodup)
    (entry : ∃ n m, (0, n) ∈ d ∧ (0, m) ∈ d' ∧ R (0, n) (0, m))
    (edge : ∀ {e e' j}, R e e' → d.Edge e.1 j →
      ∃ n, (j, n) ∈ d ∧ ∃ f' ∈ d', R (j, n) f' ∧ d'.Edge e'.1 f'.1)
    (same : ∀ {e e'}, R e e' → e ∈ d → e' ∈ d' →
      e'.2.block = e.2.block ∧ e'.2.isExit = e.2.isExit) :
    ∃ R, (ofDraft d).Matched (ofDraft d') R := by
  have isExit (d : Draft) (n : Node) : (d.renumber n).isExit = n.isExit := by
    unfold renumber Node.isExit
    cases n.link <;> rfl
  refine ⟨fun i j => ∃ e ∈ d, ∃ e' ∈ d', R e e' ∧ i = d.position e.1 ∧ j = d'.position e'.1,
    ?_, ?_, ?_, ?_⟩
  · obtain ⟨n, m, old, mem, stands⟩ := entry
    exact ⟨_, old, _, mem, stands, (position_zero spanned).symm, (position_zero spanned').symm⟩
  · rintro i j i' ⟨e, mem, e', -, stands, rfl, rfl⟩ numbered
    obtain ⟨k, l, goes, same, rfl⟩ := (ofDraft_edge distinct).1 numbered
    obtain ⟨_, from_d, -⟩ := (edge_iff distinct).1 goes
    obtain rfl := position_inj distinct mem from_d same
    obtain ⟨n, old, f', kept, stands', goes'⟩ := edge stands goes
    exact ⟨_, ⟨_, old, f', kept, stands', rfl, rfl⟩,
      (ofDraft_edge distinct').2 ⟨_, _, goes', rfl, rfl⟩⟩
  · rintro i j ⟨e, mem, e', mem', stands, rfl, rfl⟩
    rw [blockIndex_position distinct mem, blockIndex_position distinct' mem',
      (same stands mem mem').1]
  · rintro i j n ⟨e, mem, e', mem', stands, rfl, rfl⟩ found exits
    cases found.symm.trans (ofDraft_found distinct mem)
    refine ⟨_, ofDraft_found distinct' mem', ?_⟩
    rwa [isExit, (same stands mem mem').2, ← isExit d]

end Graph

namespace Returning

variable {d : Draft}

def StandsFor (fresh last : Nat) (exit : Node) (d : Draft) (e e' : Nat × Node) : Prop :=
  Relinked fresh last exit (earlyReturns d) e e' ∨
    e = (last, exit) ∧ ∃ p, (p, e') ∈ returnCopies fresh exit (earlyReturns d)

lemma StandsFor.same (h : StandsFor fresh last exit d e e') (ret : Returning fresh last exit d)
    (mem : e ∈ d) : e'.2.block = e.2.block ∧ e'.2.isExit = e.2.isExit := by
  rcases h with relinked | ⟨rfl, p, copy⟩
  · cases relinked with
    | early copy =>
      obtain ⟨-, n, old, link⟩ := earlyReturns_next ret.final (mem_returnCopies copy).1
      cases ret.eq_of_mem old mem
      exact ⟨rfl, by rw [Node.isExit, Node.isExit, link]⟩
    | other => exact ⟨rfl, rfl⟩
  · obtain ⟨-, -, block, isCopy, -⟩ := mem_returnCopies copy
    refine ⟨block, ?_⟩
    rw [ret.returns, Node.isExit]
    unfold Link.isCopy at isCopy
    split at isCopy
    case h_1 link => rw [link]
    case h_2 => cases isCopy

lemma standsFor_of_mem (ret : Returning fresh last exit d) (old : (j, n) ∈ d)
    (mem : (j, m) ∈ copyReturns fresh d) : StandsFor fresh last exit d (j, n) (j, m) := by
  rcases withCopies_cases (ret.mem_iff.1 mem).1 with ⟨⟨k, n'⟩, old', relinked⟩ | ⟨p, copy⟩
  · obtain rfl : j = k := by cases relinked <;> rfl
    cases ret.eq_of_mem old old'
    exact .inl relinked
  · have lt := (ret.plain _ old).1
    obtain ⟨-, le, -⟩ := mem_returnCopies copy
    omega

lemma target_old (ret : Returning fresh last exit d) (edge : d.Edge i j)
    (edge' : (copyReturns fresh d).Edge i j) :
    ∃ n m, (j, n) ∈ d ∧ (j, m) ∈ copyReturns fresh d ∧ StandsFor fresh last exit d (j, n) (j, m) := by
  obtain ⟨_, from_d, target⟩ := ret.edge_iff.1 edge
  obtain ⟨n, old, -⟩ := ret.conn.links from_d j target
  obtain ⟨_, from_copied, target'⟩ := ret.edge_iff_copied.1 edge'
  obtain ⟨m, mem, -⟩ := ret.connected.links from_copied j target'
  exact ⟨n, m, old, mem, ret.standsFor_of_mem old mem⟩

/-- Every edge is still there after the return has been copied. -/
lemma StandsFor.forth (h : StandsFor fresh last exit d e e') (ret : Returning fresh last exit d)
    (edge : d.Edge e.1 j) : ∃ n, (j, n) ∈ d ∧ ∃ f' ∈ copyReturns fresh d,
      StandsFor fresh last exit d (j, n) f' ∧ (copyReturns fresh d).Edge e'.1 f'.1 := by
  rcases h with relinked | ⟨rfl, -⟩
  · cases relinked with
    | early copy =>
      have early := (mem_returnCopies copy).1
      obtain rfl := (ret.edge_early early).1 edge
      exact ⟨exit, mem_of_getLast? ret.final, _, ret.mem_copy copy, .inr ⟨rfl, _, copy⟩,
        (ret.edge_copy early).2 ⟨_, copy⟩⟩
    | other early =>
      have edge' := (ret.edge_other early).2 edge
      obtain ⟨n, m, old, mem, stands⟩ := ret.target_old edge edge'
      exact ⟨n, old, (j, m), mem, stands, edge'⟩
  · exact absurd rfl (ret.ne_last edge)

/-- No edge is new after the return has been copied. -/
lemma StandsFor.back (h : StandsFor fresh last exit d e e') (ret : Returning fresh last exit d)
    (edge : (copyReturns fresh d).Edge e'.1 j) : ∃ m, (j, m) ∈ copyReturns fresh d ∧
      ∃ f ∈ d, StandsFor fresh last exit d f (j, m) ∧ d.Edge e.1 f.1 := by
  rcases h with relinked | ⟨rfl, p, copy⟩
  · cases relinked with
    | early copy =>
      have early := (mem_returnCopies copy).1
      obtain ⟨m, copy⟩ := (ret.edge_copy early).1 edge
      exact ⟨m, ret.mem_copy copy, _, mem_of_getLast? ret.final, .inr ⟨rfl, _, copy⟩,
        (ret.edge_early early).2 rfl⟩
    | other early =>
      have edge' := (ret.edge_other early).1 edge
      obtain ⟨n, m, old, mem, stands⟩ := ret.target_old edge' edge
      exact ⟨m, mem, (j, n), old, stands, edge'⟩
  · -- A copy goes nowhere.
    obtain ⟨c, n⟩ := e'
    obtain ⟨m, mem, target⟩ := ret.edge_iff_copied.1 edge
    cases inj_on_of_nodup_map ret.connected.distinct mem (ret.mem_copy copy) rfl
    obtain ⟨-, -, -, -, none, -⟩ := mem_returnCopies copy
    simp [none] at target

lemma stands_zero (ret : Returning fresh last exit d) : ∃ n m, (0, n) ∈ d ∧
    (0, m) ∈ copyReturns fresh d ∧ StandsFor fresh last exit d (0, n) (0, m) := by
  obtain ⟨n, rest, eq, -⟩ := ret.spanned.first
  obtain ⟨m, rest', eq', -⟩ := ret.copied_spanned.first
  have old : (0, n) ∈ d := eq ▸ mem_cons_self
  have mem : (0, m) ∈ copyReturns fresh d := eq' ▸ mem_cons_self
  exact ⟨n, m, old, mem, ret.standsFor_of_mem old mem⟩

end Returning

lemma copyReturns_returns (conn : d.Connected)
    (plain : ∀ e ∈ d, e.1 < fresh ∧ e.2.link.isCopy = false) (spanned : d.Spanned) (passed : List Nat) :
    (ofDraft (copyReturns fresh d)).Returns passed ↔ (ofDraft d).Returns passed := by
  rcases copyReturns_cases conn plain spanned with same | ⟨last, exit, ret⟩
  · rw [same]
  · have distinct := ret.connected.distinct
    obtain ⟨n, m, old, mem, stands⟩ := ret.stands_zero
    obtain ⟨_, forth⟩ := matched_ofDraft spanned ret.copied_spanned conn.distinct distinct
      ⟨n, m, old, mem, stands⟩ (fun stands => stands.forth ret) fun stands old _ => stands.same ret old
    obtain ⟨_, back⟩ := matched_ofDraft (R := fun e' e => Returning.StandsFor fresh last exit d e e')
      ret.copied_spanned spanned distinct conn.distinct ⟨m, n, mem, old, stands⟩
      (fun stands => stands.back ret) fun stands _ old => (stands.same ret old).imp Eq.symm Eq.symm
    exact ⟨back.returns, forth.returns⟩

namespace Graph

/-- What holds of every flow graph. -/
structure WellFormed (g : Graph) : Prop extends g.Rooted where
  first : ∃ n, g.nodes[0]? = some n ∧ n.block.index = 0
  ordered : ∀ {i j : Nat} {a b : Node}, g.nodes[i]? = some a → g.nodes[j]? = some b → i ≤ j →
    a.block.index ≤ b.block.index
  inside : ∀ {i j}, g.Edge i j → j < g.nodes.size
  parented : ∀ {i : Nat} {n : Node}, g.nodes[i]? = some n → i ≠ 0 → n.parents ≠ []
  falls : ∀ {i : Nat} {n : Node} {t f}, g.nodes[i]? = some n → n.link = .branch t f →
    f = i + 1 ∧ i + 1 < g.nodes.size
  copies : ∀ {c : Nat} {m : Node}, g.nodes[c]? = some m → m.link.isCopy →
    ∃ i n, m.parents = [i] ∧ g.nodes[i]? = some n ∧ n.link = .next c

/-- A branch that is not taken goes on at the node behind it. -/
abbrev FallsOn (g : Graph) : Prop :=
  ∀ {k t f}, (g.nodes.getD k default).link = .branch t f → f = k + 1

variable {g : Graph} {rodata : Rodata} {body : List Item} {console console' : Console}

lemma Rooted.parented (rooted : g.Rooted) (found : g.nodes[i]? = some n) (ne : i ≠ 0) :
    n.parents ≠ [] := by
  obtain ⟨nodes, along⟩ := rooted.reached i (getElem?_eq_some_iff.1 found).1
  cases along with
  | here => exact absurd rfl ne
  | step _ edge => exact ne_nil_of_mem ((rooted.parents found _).2 edge)

lemma wellFormed_of (rooted : g.Rooted) (conn : g.Connected) (covered : g.Covered)
    (first : ∃ n, g.nodes[0]? = some n ∧ n.block.index = 0) : g.WellFormed := by
  have inside {i j} (edge : g.Edge i j) : j < g.nodes.size := by
    obtain ⟨n, found, target⟩ := edge
    obtain ⟨m, found', -⟩ := conn.links found j target
    exact (getElem?_eq_some_iff.1 found').1
  refine { rooted with
    first, ordered := conn.ordered, inside, parented := rooted.parented, copies := conn.copies
    falls := fun {i n t f} found link => ?_ }
  obtain rfl := covered.falls found link
  refine ⟨rfl, inside ⟨n, found, ?_⟩⟩
  rw [link]
  exact mem_cons_of_mem _ (mem_singleton_self _)

section

variable (h : (ofBody rodata body).run console = (.ok g, console'))

include h

lemma ofBody_parts :
    ∃ blocks d console1, (Flow.blocks rodata.mentioned body).run console = (.ok blocks, console1) ∧
      Numbered blocks ∧ reachableNodes blocks rodata = .ok d ∧
      Alike (ofDraft (copyReturns blocks.length d)) g := by
  obtain ⟨blocks, console1, cut, h⟩ := run_bind_ok h
  obtain ⟨d, console2, reachable, h⟩ := run_bind_ok h
  obtain ⟨g1, console3, marked, h⟩ := run_bind_ok h
  cases h
  exact ⟨blocks, d, console1, cut, blocks_numbered cut, lift_ok reachable,
    (ensureFallthroughFrom_alike (lift_ok marked)).1.trans withDominators_alike⟩

/-- All nodes are reached from the first one. -/
lemma ofBody_rooted : g.Rooted ∧ ∃ n, g.nodes[0]? = some n ∧ n.block.index = 0 := by
  obtain ⟨blocks, d, console1, -, numbered, reachable, alike⟩ := ofBody_parts h
  obtain ⟨conn0, plain⟩ := reachableNodes_connected numbered reachable
  have spanned0 := reachableNodes_spanned numbered reachable
  have connected := copyReturns_connected conn0 plain
  have spanned := copyReturns_spanned conn0 plain spanned0
  refine ⟨alike.rooted (ofDraft_rooted connected spanned), ?_⟩
  obtain ⟨n, rest, eq, zero⟩ := spanned.first
  have found := ofDraft_found connected.distinct (eq ▸ mem_cons_self : (0, n) ∈ _)
  rw [position_zero spanned] at found
  obtain ⟨m, found', block, -⟩ := alike.node found
  exact ⟨m, found', (congrArg Block.index block).trans zero⟩

lemma wellFormed_ofBody : g.WellFormed := by
  obtain ⟨conn, covered⟩ := ofBody_connected_covered h
  obtain ⟨rooted, first⟩ := ofBody_rooted h
  exact wellFormed_of rooted conn covered first

end

lemma reachableNodes_keys {blocks d} (numbered : Numbered blocks)
    (h : reachableNodes blocks rodata = .ok d) (mem : e ∈ d) : e.2.block.index = e.1 :=
  numbered _ _ (reachableNodes_block h mem).1

/-- Only copies of a return share a block. -/
lemma ofBody_own_block (h : (ofBody rodata body).run console = (.ok g, console')) {i j : Nat}
    (ha : g.nodes[i]? = some a) (hb : g.nodes[j]? = some b) (own : a.link.isCopy = false)
    (own' : b.link.isCopy = false) (same : a.block.index = b.block.index) : i = j := by
  obtain ⟨blocks, d, console1, -, numbered, reachable, alike⟩ := ofBody_parts h
  obtain ⟨conn, plain⟩ := reachableNodes_connected numbered reachable
  have distinct := (copyReturns_connected conn plain).distinct
  have keys {e : Nat × Node} (mem : e ∈ copyReturns blocks.length d)
      (own : e.2.link.isCopy = false) : e.2.block.index = e.1 := by
    rcases copyReturns_cases conn plain (reachableNodes_spanned numbered reachable) with
      none | ⟨last, exit, ret⟩
    · exact reachableNodes_keys numbered reachable (none ▸ mem)
    · rcases mem_withCopies.1 (ret.mem_iff.1 mem).1 with ⟨e0, old, rfl⟩ | ⟨k, copy⟩
      · obtain ⟨key, block, -⟩ := relink_same blocks.length last exit (earlyReturns d) e0
        rw [key, block, reachableNodes_keys numbered reachable old]
      · rw [(mem_returnCopies copy).2.2.2.1] at own
        cases own
  -- A node of the graph stands at the place of the number of its block.
  have place {i : Nat} {a : Node} (ha : g.nodes[i]? = some a) (own : a.link.isCopy = false) :
      i = (copyReturns blocks.length d).position a.block.index := by
    obtain ⟨a', ha', block, link, -⟩ := alike.symm.node ha
    obtain ⟨k, m, found, rfl, rfl⟩ := ofDraft_back distinct ha'
    have key : m.block.index = k :=
      keys (mem_of_getElem? found) (by rwa [← link, renumber, Link.isCopy_map] at own)
    rw [← block, renumber, key]
  rw [place ha own, place hb own', same]

/-- The graph of a body is well formed, and the blocks on the way from its entry to a return are
those from before returns were copied. -/
theorem ofBody_wellFormed (h : (ofBody rodata body).run console = (.ok g, console')) :
    g.WellFormed ∧ ∃ blocks d console₁,
      (Flow.blocks rodata.mentioned body).run console = (.ok blocks, console₁) ∧
      reachableNodes blocks rodata = .ok d ∧ ∀ passed,
        ((ofDraft (copyReturns blocks.length d)).Returns passed ↔ (ofDraft d).Returns passed) ∧
        (g.Returns passed ↔ (ofDraft d).Returns passed) := by
  obtain ⟨conn, covered⟩ := ofBody_connected_covered h
  obtain ⟨rooted, first⟩ := ofBody_rooted h
  obtain ⟨blocks, d, console₁, cut, numbered, reachable, alike⟩ := ofBody_parts h
  obtain ⟨conn₀, plain⟩ := reachableNodes_connected numbered reachable
  refine ⟨wellFormed_of rooted conn covered first, blocks, d, console₁, cut, reachable,
    fun passed => ?_⟩
  have same := copyReturns_returns conn₀ plain (reachableNodes_spanned numbered reachable) passed
  exact ⟨same, Iff.trans ⟨alike.symm.matched.returns, alike.matched.returns⟩ same⟩

/-- The graph of a body satisfies `P`. -/
def makes (rodata : Rodata) (body : List Item) (P : Graph → Bool) : Bool :=
  match (ofBody rodata body).run {} with
  | (.ok g, _) => P g
  | (.error _, _) => false

lemma exists_of_makes (h : makes rodata body P) :
    ∃ g console, (ofBody rodata body).run {} = (.ok g, console) ∧ P g := by
  unfold makes at h
  split at h
  · exact ⟨_, _, by assumption, h⟩
  · cases h

def twoWays : List Item :=
  [inLine 1 "beqz" ["a0", .target "L1"],
   inLine 2 "nop" [],
   inLine 3 "b" [.target "L2"],
   inLine 4 "nop" [],
   .label "L1",
   inLine 6 "sw" ["a1", .memoryAt (.literal 4) "a2"],
   .label "L2",
   inLine 8 "jr" ["ra"],
   inLine 9 "nop" []]

theorem ofBody_wellFormed_twoWays :
    ∃ g console, (ofBody {} twoWays).run {} = (.ok g, console) ∧
      (∃ n, g.nodes[4]? = some n ∧ n.link = .exit 1 ∧ n.parents = [1]) ∧ g.WellFormed ∧
      ∃ blocks d console₁,
        (Flow.blocks ({} : Rodata).mentioned twoWays).run {} = (.ok blocks, console₁) ∧
        reachableNodes blocks {} = .ok d ∧ ∀ passed,
          ((ofDraft (copyReturns blocks.length d)).Returns passed ↔ (ofDraft d).Returns passed) ∧
          (g.Returns passed ↔ (ofDraft d).Returns passed) := by
  have checked : makes {} twoWays fun g =>
      g.nodes[4]?.any fun n => n.link == .exit 1 && n.parents == [1] := by cbv
  obtain ⟨g, console, run, checked⟩ := exists_of_makes checked
  obtain ⟨n, found, copy⟩ := (Option.any_eq_true _ _).1 checked
  simp only [Bool.and_eq_true, beq_iff_eq] at copy
  exact ⟨g, console, run, ⟨n, found, copy⟩, ofBody_wellFormed run⟩

end Graph

end Decompiler.Flow
