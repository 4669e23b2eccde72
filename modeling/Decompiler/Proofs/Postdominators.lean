import Decompiler.Proofs.GraphShape
import Decompiler.Proofs.Search
import Decompiler.Structure.Postdominator

/-!
# Postdominators by paths

A branch and an end have some nodes in common on all paths between them, and one of these nodes
comes first. It is found by searches in the graph without branches that go back: a node lies on all
paths if the end cannot be reached without it.

Main statement: `immediatePostdominator_exact`.
-/

namespace Decompiler.Flow.Graph

open List

def withoutBackBranches (g : Graph) : Graph :=
  ⟨g.nodes.mapIdx fun i n => { n with
    link := match n.link with
      | .branch t f => if g.isLoopEdge i t then .next f else .branch t f
      | link => link }⟩

def Passed (g : Graph) (start stop n : Nat) : Prop :=
  n ≠ start ∧ ∀ path, g.Path start path stop → n ∈ path

def Meets (g : Graph) (start stop p : Nat) : Prop :=
  g.Passed start stop p ∧
    ∃ path, g.Path start path p ∧ ∀ q ∈ path, g.Passed start stop q → q = p

section

variable {g : Graph} {start stop : Nat}

lemma Path.exists_first {P : Nat → Prop} (along : g.Path start path stop) (some : ∃ q ∈ path, P q)
    (before : ¬ P start) :
    ∃ path' i p, g.Path start path' i ∧ g.Edge i p ∧ P p ∧ ∀ q ∈ path', ¬ P q := by
  induction along with
  | here =>
    obtain ⟨q, mem, holds⟩ := some
    rw [mem_singleton.1 mem] at holds
    exact absurd holds before
  | @step path i j along edge ih =>
    by_cases earlier : ∃ q ∈ path, P q
    · exact ih earlier
    · push Not at earlier
      obtain ⟨q, mem, holds⟩ := some
      rcases mem_append.1 mem with mem | mem
      · exact absurd holds (earlier q mem)
      · exact ⟨path, i, j, along, edge, mem_singleton.1 mem ▸ holds, earlier⟩

lemma Meets.unique (hp : g.Meets start stop p) (hq : g.Meets start stop q)
    (along : g.Path start path stop) : q = p := by
  obtain ⟨passP, toP, alongP, onlyP⟩ := hp
  obtain ⟨passQ, toQ, alongQ, onlyQ⟩ := hq
  by_contra ne
  obtain ⟨front, behind, rfl, -, second, fresh⟩ := along.split (passP.2 path along)
  by_cases later : q ∈ behind
  · obtain ⟨front', behind', eq, first', second', -⟩ := second.split (mem_cons_of_mem p later)
    rcases mem_append.1 (passP.2 _ (alongQ.append second')) with mem | mem
    · exact ne (onlyQ p mem passP).symm
    · obtain ⟨x, front', rfl⟩ := exists_cons_of_ne_nil first'.ne_nil
      exact fresh ((cons.inj eq).2 ▸ mem_append_right _ mem)
  · rcases mem_append.1 (passQ.2 _ (alongP.append second)) with mem | mem
    · exact ne (onlyP q mem passQ)
    · exact later mem

end

end Decompiler.Flow.Graph

namespace Decompiler.Structure

open Decompiler.Flow

section

variable {g : Graph} {start stop m n : Nat} {seen : NodeSet} {stack found : List Nat}

lemma mem_forward : j ∈ forward g i ↔ g.withoutBackBranches.Edge i j := by
  have node : g.withoutBackBranches.nodes[i]? = g.nodes[i]?.map _ := Array.getElem?_mapIdx
  unfold forward Graph.Edge
  rw [node]
  cases here : g.nodes[i]? with
  | none => simp
  | some n =>
    simp only [Option.map_some, Option.some.injEq, exists_eq_left']
    cases link : n.link with
    | branch t f =>
      have loop : g.isLoop i = g.isLoopEdge i t := by
        rw [Graph.isLoop, here]
        simp only [link]
      rw [loop]
      cases back : g.isLoopEdge i t <;> simp [Link.targets, back]
    | next s | exit copy | select cases => simp [Link.targets]

lemma forward_outside (le : g.nodes.size ≤ n) : forward g n = [] := by
  rw [forward, Array.getElem?_eq_none le]

lemma enough_steps_forward (seen : NodeSet) :
    unseenEdges (forward g) g.nodes.size seen + [start].length < searchBound g := by
  have targets (m : Nat) :
      (forward g m).length ≤ ((g.nodes[m]?.map (·.link.targets)).getD []).length := by
    unfold forward
    cases g.nodes[m]? with
    | none => exact Nat.zero_le _
    | some n =>
      cases link : n.link with
      | branch t f =>
        simp only [Option.map_some, Option.getD_some, link, Link.targets]
        split
        · exact Nat.le_succ _
        · exact le_refl _
      | next s | exit copy | select cases => simp [link]
  have nodes : g.nodes.toList.map (·.link.targets) =
      (List.range g.nodes.size).map fun m => (g.nodes[m]?.map (·.link.targets)).getD [] := by
    refine List.ext_getElem (by simp) fun k lt lt' => ?_
    have lt : k < g.nodes.size := by simpa using lt
    simp [lt]
  have all : unseenEdges (forward g) g.nodes.size seen ≤ _ := unseenEdges_le _ targets seen
  rw [searchBound, List.flatMap_def, nodes, List.length_flatten, List.map_map, List.length_singleton]
  exact add_lt_add_of_le_of_lt all (by decide)

lemma mem_searchFrom (enough : unseenEdges (forward g) g.nodes.size seen + stack.length < fuel) :
    m ∈ (searchFrom g fuel seen stack found).2 ↔ m ∈ found ∨ Found (forward g) seen stack m := by
  refine search_induction (motive := fun fuel seen stack => ∀ found,
    m ∈ (searchFrom g fuel seen stack found).2 ↔ m ∈ found ∨ Found (forward g) seen stack m)
    (fun _ => forward_outside) ?_ ?_ ?_ enough found
  · intro _ _ found
    simp [searchFrom, found_nil]
  · intro _ _ _ _ old ih found
    rw [searchFrom, if_pos old, ih, found_seen old]
  · intro _ _ n _ new ih found
    rw [searchFrom, if_neg (Bool.eq_false_iff.1 new), ih _ (List.length_reverse.le), found_new new,
      List.mem_cons, or_assoc, or_left_comm]

/-- A search finds what a path leads to. -/
lemma found_iff_path : Found (forward g) seen [start] m ↔
    ∃ path, g.withoutBackBranches.Path start path m ∧ ∀ k ∈ path, seen.contains k = false := by
  constructor
  · intro h
    induction h with
    | @top k mem new =>
      obtain rfl := List.mem_singleton.1 mem
      exact ⟨[k], .here, fun _ mem => List.mem_singleton.1 mem ▸ new⟩
    | on _ behind new ih =>
      obtain ⟨path, along, apart⟩ := ih
      refine ⟨_, along.step (mem_forward.1 behind), fun k mem => ?_⟩
      rcases List.mem_append.1 mem with mem | mem
      · exact apart k mem
      · exact List.mem_singleton.1 mem ▸ new
  · rintro ⟨path, along, apart⟩
    induction along with
    | here => exact .top (List.mem_singleton_self _) (apart _ (List.mem_singleton_self _))
    | step along edge ih =>
      exact .on (ih fun k mem => apart k (List.mem_append_left _ mem)) (mem_forward.2 edge)
        (apart _ (List.mem_append_right _ (List.mem_singleton_self _)))

lemma mem_reachable : m ∈ reachable g start ↔ ∃ path, g.withoutBackBranches.Path start path m := by
  rw [reachable, List.mem_reverse, mem_searchFrom (enough_steps_forward _),
    found_iff_path]
  simp [NodeSet.contains, NodeSet.empty]

lemma mem_reachableWithout : m ∈ reachableWithout g start n ↔
    ∃ path, g.withoutBackBranches.Path start path m ∧ n ∉ path := by
  rw [reachableWithout, mem_searchFrom (enough_steps_forward _),
    found_iff_path]
  simp only [List.not_mem_nil, false_or, NodeSet.contains_single_ne]
  refine exists_congr fun path => and_congr_right fun _ => ?_
  exact ⟨fun apart mem => apart n mem rfl, fun apart k mem same => apart (same ▸ mem)⟩

inductive Searched (g : Graph) : Searches → Prop where
  | none :
    Searched g Table.empty
  | ask {searches} (start stop without : Nat) :
    Searched g searches →
    Searched g (isReachableWithout g start stop without searches).2

variable {searches : Searches}

lemma Searched.kept (h : Searched g searches) (found : searches.get? (start, n) = some nodes) :
    nodes = reachableWithout g start n := by
  induction h with
  | none => cases found
  | @ask searches start' stop' without' _ ih =>
    unfold isReachableWithout at found
    split at found
    · exact ih found
    · rw [Table.get?_insert] at found
      split at found
      case isTrue same =>
        obtain ⟨rfl, rfl⟩ := Prod.mk.inj (eq_of_beq same)
        exact (Option.some.inj found).symm
      case isFalse => exact ih found

lemma Searched.answer (h : Searched g searches) :
    (isReachableWithout g start stop n searches).1 = (reachableWithout g start n).contains stop := by
  unfold isReachableWithout
  split
  case h_1 nodes found => rw [h.kept found]
  case h_2 => rfl

variable (g start stop) in
def passes (n : Nat) : Bool :=
  n != start && !(reachableWithout g start n).contains stop

lemma passes_iff : passes g start stop n ↔ g.withoutBackBranches.Passed start stop n := by
  have reached : (!(reachableWithout g start n).contains stop) ↔
      ¬ ∃ path, g.withoutBackBranches.Path start path stop ∧ n ∉ path := by
    rw [← mem_reachableWithout, ← List.contains_iff_mem, Bool.not_eq_true', Bool.eq_false_iff]
  rw [passes, Bool.and_eq_true, bne_iff_ne, reached]
  push Not
  exact Iff.rfl

lemma Searched.isPassed (h : Searched g searches) :
    (isPassed g start stop n searches).1 = passes g start stop n ∧
      Searched g (isPassed g start stop n searches).2 := by
  unfold Structure.isPassed passes
  by_cases same : n = start
  · simp [same, h]
  · rw [if_neg (by simpa using same)]
    exact ⟨by simp [same, h.answer], h.ask start stop n⟩

variable (g start stop) in
def behind (n : Nat) : List Nat :=
  if passes g start stop n then [] else forward g n

/-- The search finds the postdominators that can still be reached. -/
lemma postdominatorsFrom_spec (last : passes g start stop stop)
    (enough : unseenEdges (forward g) g.nodes.size seen + stack.length < fuel)
    (old : ∀ n ∈ found, seen.contains n) (nodup : found.Nodup) (searched : Searched g searches) :
    ∃ result searches', (postdominatorsFrom g start stop fuel seen stack found).run searches =
        .ok (result, searches') ∧ Searched g searches' ∧ result.Nodup ∧
      ∀ m, m ∈ result ↔ m ∈ found ∨ Found (behind g start stop) seen stack m ∧
        passes g start stop m := by
  refine search_induction (motive := fun fuel seen stack => ∀ found searches,
    (∀ n ∈ found, seen.contains n) → found.Nodup → Searched g searches →
    ∃ result searches', (postdominatorsFrom g start stop fuel seen stack found).run searches =
        .ok (result, searches') ∧ Searched g searches' ∧ result.Nodup ∧
      ∀ m, m ∈ result ↔ m ∈ found ∨ Found (behind g start stop) seen stack m ∧
        passes g start stop m)
    (fun _ => forward_outside) ?_ ?_ ?_ enough found searches old nodup searched
  · intro _ _ found searches _ nodup searched
    exact ⟨found.reverse, searches, rfl, searched, List.nodup_reverse.2 nodup, fun m => by
      simp [found_nil]⟩
  · intro _ _ _ _ seenBefore ih found searches old nodup searched
    rw [postdominatorsFrom, if_pos seenBefore]
    simpa only [found_seen seenBefore] using ih found searches old nodup searched
  · intro fuel seen n stack new ih found searches old nodup searched
    have seenBefore := Bool.eq_false_iff.1 new
    obtain ⟨answer, searched'⟩ := @Searched.isPassed g start stop n searches searched
    have old' : ∀ m ∈ found, (seen.insert n).contains m := fun m mem => by
      rw [NodeSet.contains_insert, old m mem, Bool.true_or]
    rw [postdominatorsFrom, if_neg seenBefore]
    change ∃ result searches', (if (isPassed g start stop n searches).1 then
        postdominatorsFrom g start stop fuel (seen.insert n) stack (n :: found)
      else if (n == stop) then throw (Failure.broken "")
      else postdominatorsFrom g start stop fuel (seen.insert n) ((forward g n).reverse ++ stack)
        found).run (isPassed g start stop n searches).2 = _ ∧ _
    rw [answer]
    simp only [found_new new]
    cases passed : passes g start stop n with
    | true =>
      have none : behind g start stop n = [] := by rw [behind, passed, if_pos rfl]
      have fresh : n ∉ found := fun mem => seenBefore (old n mem)
      obtain ⟨result, searches', run, searched, distinct, spec⟩ := ih [] (Nat.zero_le _) (n :: found) _
        (List.forall_mem_cons.2 ⟨by simp, old'⟩) (List.nodup_cons.2 ⟨fresh, nodup⟩) searched'
      refine ⟨result, searches', by rw [← run]; rfl, searched, distinct, fun m => ?_⟩
      rw [spec, none, List.mem_cons]
      constructor
      · rintro ((rfl | mem) | ⟨reached, pass⟩)
        · exact .inr ⟨.inl rfl, passed⟩
        · exact .inl mem
        · exact .inr ⟨.inr reached, pass⟩
      · rintro (mem | ⟨rfl | reached, pass⟩)
        · exact .inl (.inr mem)
        · exact .inl (.inl rfl)
        · exact .inr ⟨reached, pass⟩
    | false =>
      have on : behind g start stop n = forward g n := by
        rw [behind, passed, if_neg Bool.false_ne_true]
      have ne : ¬ (n == stop) := by
        intro same
        rw [eq_of_beq same, last] at passed
        cases passed
      obtain ⟨result, searches', run, searched, distinct, spec⟩ := ih (forward g n).reverse
        List.length_reverse.le found _ old' nodup searched'
      refine ⟨result, searches', by rw [if_neg Bool.false_ne_true, if_neg ne, run], searched,
        distinct, fun m => ?_⟩
      rw [spec, on]
      refine or_congr_right (and_congr_left fun pass => (or_iff_right ?_).symm)
      rintro rfl
      rw [passed] at pass
      cases pass

end

section

variable {g : Graph} {start stop last m p : Nat}

lemma meets_of_found (reached : Found (behind g start stop) .empty [start] p)
    (pass : passes g start stop p) : g.withoutBackBranches.Meets start stop p := by
  refine ⟨passes_iff.1 pass, ?_⟩
  clear pass
  induction reached with
  | @top k mem =>
    obtain rfl := List.mem_singleton.1 mem
    exact ⟨[k], .here, fun q mem _ => List.mem_singleton.1 mem⟩
  | @on k p _ mem _ ih =>
    obtain ⟨path, along, only⟩ := ih
    unfold behind at mem
    split at mem
    · cases mem
    case isFalse open' =>
      refine ⟨_, along.step (mem_forward.1 mem), fun q mem pass => ?_⟩
      rcases List.mem_append.1 mem with mem | mem
      · rw [only q mem pass] at pass
        exact absurd (passes_iff.2 pass) open'
      · exact List.mem_singleton.1 mem

lemma exists_found (along : g.withoutBackBranches.Path start path stop)
    (last : passes g start stop stop) :
    ∃ p, Found (behind g start stop) .empty [start] p ∧ passes g start stop p := by
  have unseen (k : Nat) : NodeSet.empty.contains k = false := by
    simp [NodeSet.contains, NodeSet.empty]
  have before : ¬ g.withoutBackBranches.Passed start stop start := fun h => h.1 rfl
  obtain ⟨path', i, p, along', edge, pass, none⟩ :=
    along.exists_first ⟨stop, along.end_mem, passes_iff.1 last⟩ before
  have open' {k : Nat} (mem : k ∈ path') : behind g start stop k = forward g k :=
    if_neg fun h => none k mem (passes_iff.1 h)
  have reached : Found (behind g start stop) .empty [start] i := by
    clear edge pass
    induction along' with
    | here => exact .top (List.mem_singleton_self _) (unseen _)
    | @step path' i j along' edge ih =>
      have earlier {k : Nat} (mem : k ∈ path') : k ∈ path' ++ [j] := List.mem_append_left _ mem
      refine .on (ih (fun k mem => none k (earlier mem)) fun mem => open' (earlier mem)) ?_ (unseen _)
      rw [open' (earlier along'.end_mem)]
      exact mem_forward.2 edge
  refine ⟨p, .on reached ?_ (unseen _), passes_iff.2 pass⟩
  rw [open' along'.end_mem]
  exact mem_forward.2 edge

/-- The end of the paths from a branch: the one that is asked for, or if that one is not reached, a
node of the highest block that is. -/
structure EndsAt (g : Graph) (start : Nat) (stop : Option Nat) (last : Nat) : Prop where
  reached : ∃ path, g.withoutBackBranches.Path start path last
  given : ∀ e, stop = some e → (∃ path, g.withoutBackBranches.Path start path e) → last = e
  highest : (∀ e, stop = some e → ¬ ∃ path, g.withoutBackBranches.Path start path e) →
    ∀ m path, g.withoutBackBranches.Path start path m → g.blockIndex m ≤ g.blockIndex last

lemma lastBlock_spec (mem : m ∈ nodes) :
    ∃ last, lastBlock g nodes = some last ∧ last ∈ nodes ∧
      ∀ k ∈ nodes, g.blockIndex k ≤ g.blockIndex last := by
  have step (ns : List Nat) (best : Nat) :
      let last := ns.foldl (fun best m => if g.blockIndex best < g.blockIndex m then m else best) best
      (last = best ∨ last ∈ ns) ∧ g.blockIndex best ≤ g.blockIndex last ∧
        ∀ k ∈ ns, g.blockIndex k ≤ g.blockIndex last := by
    induction ns generalizing best with
    | nil => exact ⟨.inl rfl, le_refl _, nofun⟩
    | cons n ns ih =>
      rw [List.foldl_cons]
      split
      case isTrue lt =>
        obtain ⟨mem, le, all⟩ := ih n
        refine ⟨.inr (List.mem_cons.2 mem), lt.le.trans le, List.forall_mem_cons.2 ⟨le, all⟩⟩
      case isFalse ge =>
        obtain ⟨mem, le, all⟩ := ih best
        refine ⟨mem.imp_right (List.mem_cons_of_mem _), le, List.forall_mem_cons.2 ⟨?_, all⟩⟩
        exact (Nat.le_of_not_lt ge).trans le
  cases nodes with
  | nil => cases mem
  | cons n ns =>
    obtain ⟨mem, le, all⟩ := step ns n
    exact ⟨_, rfl, List.mem_cons.2 mem, List.forall_mem_cons.2 ⟨le, all⟩⟩

lemma lastOnPaths_endsAt (g : Graph) (start : Nat) (stop : Option Nat) :
    ∃ last, lastOnPaths g start stop = some last ∧ EndsAt g start stop last := by
  obtain ⟨last, eq, mem, highest⟩ :=
    lastBlock_spec (mem_reachable.2 ⟨[start], Graph.Path.here⟩)
  have fallback (unreached : ∀ e, stop = some e → ¬ ∃ path, g.withoutBackBranches.Path start path e) :
      EndsAt g start stop last :=
    ⟨mem_reachable.1 mem, fun e same reached => absurd reached (unreached e same),
      fun _ m path along => highest m (mem_reachable.2 ⟨path, along⟩)⟩
  unfold lastOnPaths
  cases stop with
  | none => exact ⟨last, eq, fallback nofun⟩
  | some e =>
    by_cases reached : e ∈ reachable g start
    · refine ⟨e, by simp [reached], mem_reachable.1 reached, ?_, ?_⟩
      · rintro _ ⟨⟩ _
        rfl
      · exact fun none => absurd (mem_reachable.1 reached) (none e rfl)
    · refine ⟨last, by simp [reached, eq], fallback ?_⟩
      rintro _ ⟨⟩ path
      exact reached (mem_reachable.2 path)

/-- The node that is found is the first one on all paths. -/
lemma immediatePostdominator_meets {stop} (ends : lastOnPaths g start stop = some last)
    (along : g.withoutBackBranches.Path start path last) (other : last ≠ start) :
    ∃ p, g.withoutBackBranches.Meets start last p ∧ ∀ searches, Searched g searches →
      ∃ searches', (immediatePostdominator g start stop).run searches = .ok (p, searches') ∧
        Searched g searches' := by
  have passLast : passes g start last last :=
    passes_iff.2 ⟨other, fun _ along => along.end_mem⟩
  obtain ⟨p, reached, pass⟩ := exists_found along passLast
  have meets := meets_of_found reached pass
  refine ⟨p, meets, fun searches searched => ?_⟩
  obtain ⟨result, searches', run, searched', nodup, spec⟩ := postdominatorsFrom_spec passLast
    (enough_steps_forward .empty) (fun _ mem => (List.not_mem_nil mem).elim)
    List.nodup_nil searched
  have only : ∀ m, m ∈ result ↔ m = p := by
    intro m
    rw [spec]
    constructor
    · rintro (mem | ⟨reached, pass⟩)
      · exact (List.not_mem_nil mem).elim
      · exact meets.unique (meets_of_found reached pass) along
    · rintro rfl
      exact .inr ⟨reached, pass⟩
  obtain rfl : result = [p] := by
    refine List.perm_singleton.1 ((List.perm_ext_iff_of_nodup nodup (List.nodup_singleton p)).2 ?_)
    simpa using only
  refine ⟨searches', ?_, searched'⟩
  unfold immediatePostdominator
  rw [ends]
  rw [StateT.run_bind, run]
  rfl

variable {rodata : Asm.Rodata} {body : List Asm.Item} {console console' : Console} {n : Node}
  {t f : Nat}

lemma blockIndex_lt_of_falls (made : (Graph.ofBody rodata body).run console = (.ok g, console'))
    (found : g.nodes[start]? = some n) (link : n.link = .branch t f) :
    g.blockIndex start < g.blockIndex f := by
  have wf := Graph.wellFormed_ofBody made
  obtain ⟨rfl, lt⟩ := wf.falls found link
  obtain ⟨m, found'⟩ : ∃ m, g.nodes[start + 1]? = some m := ⟨_, Array.getElem?_eq_getElem lt⟩
  have edge : g.Edge start (start + 1) := ⟨n, found, by simp [link, Link.targets]⟩
  have own : m.link.isCopy = false := by
    by_contra copy
    obtain ⟨i, n', parents, here, next⟩ := wf.copies found' (Bool.not_eq_false _ ▸ copy)
    have parent := (wf.parents found' start).2 edge
    rw [parents, List.mem_singleton] at parent
    subst parent
    cases found.symm.trans here
    rw [link] at next
    cases next
  rw [Graph.blockIndex, Graph.blockIndex, found, found']
  refine lt_of_le_of_ne (wf.ordered found found' (Nat.le_succ _)) fun same => ?_
  have := Graph.ofBody_own_block made found found' (by rw [link]; rfl) own same
  omega

/-- Whatever end is asked for and whatever was searched before, a branch of the graph of a body has
one node that all paths pass first, and that node is found. -/
theorem immediatePostdominator_exact
    (made : (Graph.ofBody rodata body).run console = (.ok g, console'))
    (found : g.nodes[start]? = some n) (link : n.link = .branch t f) {stop : Option Nat}
    (other : stop ≠ some start) :
    ∃ last p, lastOnPaths g start stop = some last ∧ EndsAt g start stop last ∧
      g.withoutBackBranches.Meets start last p ∧
      (∀ q, g.withoutBackBranches.Meets start last q → q = p) ∧
      ∀ searches, Searched g searches →
        ∃ searches', (immediatePostdominator g start stop).run searches = .ok (p, searches') ∧
          Searched g searches' := by
  obtain ⟨last, eq, ends⟩ := lastOnPaths_endsAt g start stop
  obtain ⟨path, along⟩ := ends.reached
  have different : last ≠ start := by
    rintro rfl
    by_cases reached : ∃ e, stop = some e ∧ ∃ path, g.withoutBackBranches.Path last path e
    · obtain ⟨e, rfl, path⟩ := reached
      exact other (congrArg some (ends.given e rfl path).symm)
    · have fall : g.withoutBackBranches.Edge last f := by
        rw [← mem_forward, forward, found]
        simp only [link]
        split <;> simp
      have highest := ends.highest (fun e same path => reached ⟨e, same, path⟩) f _
        (Graph.Path.here.step fall)
      have := blockIndex_lt_of_falls made found link
      omega
  obtain ⟨p, meets, finds⟩ := immediatePostdominator_meets eq along different
  exact ⟨last, p, eq, ends, meets, fun q h => meets.unique h along, finds⟩

/-- One way goes to a copy of the return, so the branch and the return only have the node between
them in common, also when the paths to that copy have been searched before. -/
theorem immediatePostdominator_exact_twoWays :
    ∃ g console, (Graph.ofBody {} Graph.twoWays).run {} = (.ok g, console) ∧
      (∃ n, g.nodes[0]? = some n ∧ n.link = .branch 2 1) ∧ some 3 ≠ some 0 ∧
      Searched g (isReachableWithout g 0 4 2 Table.empty).2 ∧
      (∃ searches, (immediatePostdominator g 0 (some 3)).run Table.empty = .ok (2, searches)) ∧
      ∃ last p, lastOnPaths g 0 (some 3) = some last ∧ EndsAt g 0 (some 3) last ∧
        g.withoutBackBranches.Meets 0 last p ∧
        (∀ q, g.withoutBackBranches.Meets 0 last q → q = p) ∧
        ∀ searches, Searched g searches →
          ∃ searches', (immediatePostdominator g 0 (some 3)).run searches = .ok (p, searches') ∧
            Searched g searches' := by
  have checked : Graph.makes {} Graph.twoWays fun g =>
      (g.nodes[0]?.any fun n => n.link == .branch 2 1) &&
        ((immediatePostdominator g 0 (some 3)).run Table.empty).toOption.any (·.1 == 2) := by cbv
  obtain ⟨g, console, run, checked⟩ := Graph.exists_of_makes checked
  obtain ⟨branch, meets⟩ := Bool.and_eq_true_iff.1 checked
  obtain ⟨n, found, link⟩ := (Option.any_eq_true _ _).1 branch
  have link := eq_of_beq link
  have other : some 3 ≠ some 0 := by decide
  obtain ⟨⟨p, searches⟩, run', two⟩ := (Option.any_eq_true _ _).1 meets
  obtain rfl : p = 2 := eq_of_beq two
  refine ⟨g, console, run, ⟨n, found, link⟩, other, .ask 0 4 2 .none, ⟨searches, ?_⟩,
    immediatePostdominator_exact run found link other⟩
  rcases answer : (immediatePostdominator g 0 (some 3)).run Table.empty with _ | r
  · rw [answer] at run'
    cases run'
  · rw [answer] at run'
    exact congrArg Except.ok (Option.some.inj run')

end

end Decompiler.Structure
