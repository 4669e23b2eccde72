import Decompiler.Eval.Function
import Decompiler.Proofs.GraphShape

/-!
# Spreading marks along the edges of a graph

A block has a return value of its own if it sets one, or if one comes from a parent and no call is in
between. The marks are spread by passes over the nodes until a pass changes nothing.

Main statement: `spread_exact`.
-/

namespace Decompiler.Eval

open Decompiler.Flow List

def spreadTo (g : Graph) (calls marks : Array Bool) (n : Nat) : Array Bool :=
  if marks.getD n false || calls.getD n false then marks
  else if (parentsOf g n).any fun p => marks.getD p false then marks.setIfInBounds n true
  else marks

/-- One pass over the nodes in some order. -/
def spreadAlong (g : Graph) (calls : Array Bool) (order : List Nat) (marks : Array Bool) : Array Bool :=
  order.foldl (spreadTo g calls) marks

/-- A mark reaches a node along a path whose nodes behind the first make no calls and have no mark at
the start. -/
def Reached (g : Graph) (calls marks : Array Bool) (n : Nat) : Prop :=
  ∃ start path, marks.getD start false ∧ g.Path start path n ∧
    ∀ i ∈ path.tail, calls.getD i false = false ∧ marks.getD i false = false

section

variable {g : Graph} {calls marks m : Array Bool} {order : List Nat}

lemma getD_setIfInBounds : (m.setIfInBounds n true).getD k false = true ↔
    m.getD k false = true ∨ k = n ∧ n < m.size := by
  simp only [Array.getD_eq_getD_getElem?, Array.getElem?_setIfInBounds]
  split
  case isTrue same =>
    subst same
    split <;> simp_all
  case isFalse other => simp [Ne.symm other]

/-- One step marks a node if a parent is marked and no call is in it. -/
lemma spreadTo_iff : (spreadTo g calls m n).getD k false = true ↔ m.getD k false = true ∨
    (k = n ∧ n < m.size) ∧ calls.getD n false = false ∧
      ∃ p ∈ parentsOf g n, m.getD p false = true := by
  unfold spreadTo
  split
  case isTrue skip =>
    refine ⟨.inl, fun h => h.elim id ?_⟩
    rintro ⟨⟨rfl, -⟩, free, -⟩
    simpa [free] using skip
  case isFalse seen =>
    simp only [Bool.or_eq_true, not_or, Bool.not_eq_true] at seen
    split
    case isTrue marked =>
      rw [getD_setIfInBounds, and_iff_left (a := k = n ∧ _) ⟨seen.2, any_eq_true.1 marked⟩]
    case isFalse none =>
      refine ⟨.inl, fun h => h.elim id ?_⟩
      rintro ⟨-, -, parent⟩
      exact absurd (any_eq_true.2 parent) none

@[simp] lemma spreadTo_size : (spreadTo g calls m n).size = m.size := by
  unfold spreadTo
  split <;> (try split) <;> simp

@[simp] lemma spreadAlong_size : (spreadAlong g calls order m).size = m.size := by
  induction order generalizing m with
  | nil => rfl
  | cons n order ih => exact ih.trans spreadTo_size

lemma spreadAlong_keeps (h : m.getD k false = true) :
    (spreadAlong g calls order m).getD k false = true := by
  induction order generalizing m with
  | nil => exact h
  | cons n order ih => exact ih (spreadTo_iff.2 (.inl h))

/-- A pass leads only to nodes that a mark reaches. -/
lemma spreadAlong_reached (parents : ∀ n p, p ∈ parentsOf g' n → g.Edge p n)
    (sound : ∀ k, m.getD k false → Reached g calls marks k)
    (h : (spreadAlong g' calls order m).getD k false) : Reached g calls marks k := by
  induction order generalizing m with
  | nil => exact sound k h
  | cons n order ih =>
    refine ih (fun k marked => ?_) h
    rcases spreadTo_iff.1 marked with old | ⟨⟨rfl, -⟩, free, p, parent, marked⟩
    · exact sound k old
    · by_cases first : marks.getD k false = true
      · exact ⟨k, [k], first, .here, by simp⟩
      · obtain ⟨start, path, first', along, clear⟩ := sound p marked
        refine ⟨start, path ++ [k], first', along.step (parents k p parent), ?_⟩
        rw [tail_append_of_ne_nil along.ne_nil]
        refine forall_mem_append.2 ⟨clear, forall_mem_singleton.2 ⟨free, ?_⟩⟩
        exact Bool.not_eq_true _ ▸ first

lemma spreadAlong_fixed (fixed : spreadAlong g calls order m = m) (mem : n ∈ order)
    (lt : n < m.size) (free : calls.getD n false = false) (parent : p ∈ parentsOf g n)
    (marked : m.getD p false = true) : m.getD n false = true := by
  obtain ⟨before, behind, rfl⟩ := append_of_mem mem
  have split : spreadAlong g calls (before ++ n :: behind) m =
      spreadAlong g calls behind (spreadTo g calls (spreadAlong g calls before m) n) :=
    foldl_append
  rw [← fixed, split]
  refine spreadAlong_keeps (spreadTo_iff.2 (.inr ⟨⟨rfl, ?_⟩, free, p, parent, ?_⟩))
  · simpa using lt
  · exact spreadAlong_keeps marked

/-- A pass that changes nothing has left no node out. -/
lemma marked_of_reached (parents : ∀ n p, g.Edge p n → p ∈ parentsOf g' n)
    (all : ∀ n < m.size, n ∈ order) (fixed : spreadAlong g' calls order m = m)
    (first : ∀ k, marks.getD k false → m.getD k false) (lt : n < m.size)
    (h : Reached g calls marks n) (inside : ∀ i j, g.Edge i j → i < m.size) :
    m.getD n false = true := by
  obtain ⟨start, path, marked, along, clear⟩ := h
  induction along with
  | here => exact first _ marked
  | @step path i j along edge ih =>
    rw [tail_append_of_ne_nil along.ne_nil] at clear
    obtain ⟨clear, free⟩ := forall_mem_append.1 clear
    have before := ih (inside i j edge) clear
    exact spreadAlong_fixed fixed (all j lt) lt (forall_mem_singleton.1 free).1
      (parents j i edge) before

def marked (m : Array Bool) : Finset Nat :=
  (Finset.range m.size).filter fun i => m.getD i false

lemma mem_marked : k ∈ marked m ↔ m.getD k false = true := by
  refine Finset.mem_filter.trans (and_iff_right_of_imp fun h => Finset.mem_range.2 ?_)
  by_contra outside
  simp [Array.getD_eq_getD_getElem?, Array.getElem?_eq_none (Nat.le_of_not_lt outside)] at h

lemma card_marked_le (m : Array Bool) : (marked m).card ≤ m.size :=
  (Finset.card_filter_le _ _).trans (Finset.card_range _).le

lemma eq_of_marked (size : m.size = marks.size) (same : marked m = marked marks) : m = marks := by
  refine Array.ext size fun i lt lt' => ?_
  have iff := (mem_marked.symm.trans (Finset.ext_iff.1 same i)).trans mem_marked
  simp only [Array.getD_eq_getD_getElem?, Array.getElem?_eq_getElem lt,
    Array.getElem?_eq_getElem lt', Option.getD_some] at iff
  exact Bool.eq_iff_iff.2 iff

lemma spreadAlong_grows (changes : spreadAlong g calls order m ≠ m) :
    (marked m).card < (marked (spreadAlong g calls order m)).card := by
  refine Finset.card_lt_card ((Finset.ssubset_iff_subset_ne).2 ⟨fun k mem => ?_, fun same => ?_⟩)
  · exact mem_marked.2 (spreadAlong_keeps (mem_marked.1 mem))
  · exact changes (eq_of_marked spreadAlong_size same.symm)

lemma iterate_size : ((spreadAlong g calls order)^[k] m).size = m.size := by
  induction k generalizing m with
  | zero => rfl
  | succ k ih => exact ih.trans spreadAlong_size

/-- Each pass but the last one marks a node, so there are no more passes than nodes. -/
lemma passes_end (g : Graph) (calls : Array Bool) (order : List Nat) (m : Array Bool) :
    ∃ k ≤ m.size, spreadAlong g calls order ((spreadAlong g calls order)^[k] m) =
      (spreadAlong g calls order)^[k] m := by
  by_contra! changes
  have grows (k) (le : k ≤ m.size + 1) : k ≤ (marked ((spreadAlong g calls order)^[k] m)).card := by
    induction k with
    | zero => exact Nat.zero_le _
    | succ k ih =>
      rw [Function.iterate_succ_apply']
      exact (ih (by omega)).trans_lt (spreadAlong_grows (changes k (by omega)))
  have most := card_marked_le ((spreadAlong g calls order)^[m.size + 1] m)
  rw [iterate_size] at most
  exact Nat.not_succ_le_self _ ((grows _ (le_refl _)).trans most)

lemma iterate_keeps (h : m.getD n false = true) :
    ((spreadAlong g calls order)^[k] m).getD n false = true := by
  induction k generalizing m with
  | zero => exact h
  | succ k ih => exact ih (spreadAlong_keeps h)

lemma spread_eq : spread g calls marks =
    (spreadAlong g calls (range g.nodes.size))^[g.nodes.size] marks := by
  change Nat.repeat (spreadAlong g calls (range g.nodes.size)) _ _ = _
  generalize spreadAlong g calls (range g.nodes.size) = pass
  induction g.nodes.size with
  | zero => rfl
  | succ n ih => rw [Function.iterate_succ_apply', ← ih, Nat.repeat]

/-- Whatever the order of the nodes and of their parents is, passes end with the nodes that are
reached. -/
lemma passes_exact (parents : ∀ n p, p ∈ parentsOf g n ↔ g.Edge p n)
    (same : ∀ n, (parentsOf g' n).Perm (parentsOf g n))
    (all : order.Perm (range g.nodes.size)) (sized : marks.size = g.nodes.size)
    (fixed : spreadAlong g' calls order ((spreadAlong g' calls order)^[k] marks) =
      (spreadAlong g' calls order)^[k] marks) (lt : n < g.nodes.size) :
    ((spreadAlong g' calls order)^[k] marks).getD n false = true ↔ Reached g calls marks n := by
  have parents' (n p) : p ∈ parentsOf g' n ↔ g.Edge p n := (same n).mem_iff.trans (parents n p)
  constructor
  · have sound (k) : ∀ n, ((spreadAlong g' calls order)^[k] marks).getD n false →
        Reached g calls marks n := by
      induction k with
      | zero => exact fun n first => ⟨n, [n], first, .here, by simp⟩
      | succ k ih =>
        rw [Function.iterate_succ_apply']
        exact fun n h => spreadAlong_reached (fun n p => (parents' n p).1) ih h
    exact sound k n
  · intro reached
    refine marked_of_reached (fun n p => (parents' n p).2) ?_ fixed (fun _ => iterate_keeps) ?_
      reached fun i j edge => ?_
    all_goals rw [iterate_size, sized]
    · exact fun n lt => all.mem_iff.2 (mem_range.2 lt)
    · exact lt
    · exact edge.lt

end

/-- Marks are spread by passes over the nodes, of which there are no more than nodes. In the end those
nodes are marked that a mark reaches, whatever the order of the nodes and of their parents is. -/
theorem spread_exact {g : Graph} (wf : g.WellFormed) {calls marks : Array Bool}
    (sized : marks.size = g.nodes.size) :
    (∀ n < g.nodes.size, (spread g calls marks).getD n false = true ↔
      marks.getD n false = true ∨ Reached g calls marks n) ∧
    ∀ (g' : Graph) (order : List Nat), (∀ n, (parentsOf g' n).Perm (parentsOf g n)) →
      order.Perm (range g.nodes.size) →
      (∃ k ≤ g.nodes.size, spreadAlong g' calls order ((spreadAlong g' calls order)^[k] marks) =
        (spreadAlong g' calls order)^[k] marks) ∧
      ∀ k, spreadAlong g' calls order ((spreadAlong g' calls order)^[k] marks) =
          (spreadAlong g' calls order)^[k] marks →
        (spreadAlong g' calls order)^[k] marks = spread g calls marks := by
  have parents (n p) : p ∈ parentsOf g n ↔ g.Edge p n := by
    unfold parentsOf
    split
    case h_1 found => exact wf.parents found p
    case h_2 none =>
      refine ⟨nofun, fun edge => ?_⟩
      exact absurd (wf.inside edge) (Nat.not_lt.2 (Array.getElem?_eq_none_iff.1 none))
  obtain ⟨k, le, fixed⟩ := passes_end g calls (range g.nodes.size) marks
  have last : spread g calls marks = (spreadAlong g calls (range g.nodes.size))^[k] marks := by
    obtain ⟨more, total⟩ := Nat.exists_eq_add_of_le' (sized ▸ le)
    rw [spread_eq, total, Function.iterate_add_apply, ← total]
    exact Function.iterate_fixed fixed more
  have exact {n} (lt : n < g.nodes.size) :
      (spread g calls marks).getD n false = true ↔ Reached g calls marks n := by
    rw [last]
    exact passes_exact parents (fun _ => .refl _) (.refl _) sized fixed lt
  refine ⟨fun n lt => (exact lt).trans (or_iff_right_of_imp fun first => ?_).symm,
    fun g' order same all => ⟨sized ▸ passes_end g' calls order marks, fun k fixed' => ?_⟩⟩
  · exact ⟨n, [n], first, .here, by simp⟩
  · refine eq_of_marked (by rw [last, iterate_size, iterate_size]) (Finset.ext fun n => ?_)
    by_cases lt : n < g.nodes.size
    · rw [mem_marked, mem_marked, exact lt]
      exact passes_exact parents same all sized fixed' lt
    · have outside {m : Array Bool} (size : m.size = marks.size) : n ∉ marked m := fun mem =>
        lt (sized ▸ size ▸ Finset.mem_range.1 (Finset.mem_filter.1 mem).1)
      exact iff_of_false (outside iterate_size) (outside (last ▸ iterate_size))

/-- The entry sets a value, which reaches the last node; a call keeps it from the node between. -/
theorem spread_exact_twoWays :
    ∃ g console, (Graph.ofBody {} Graph.twoWays).run {} = (.ok g, console) ∧ g.nodes.size = 5 ∧
      spread g #[false, false, true] #[true, false, false, false, false] =
        #[true, true, false, false, true] ∧
      Reached g #[false, false, true] #[true, false, false, false, false] 4 := by
  have checked : Graph.makes {} Graph.twoWays fun g => g.nodes.size == 5 &&
      spread g #[false, false, true] #[true, false, false, false, false] ==
        #[true, true, false, false, true] := by cbv
  obtain ⟨g, console, run, checked⟩ := Graph.exists_of_makes checked
  simp only [Bool.and_eq_true, beq_iff_eq] at checked
  obtain ⟨size, marks⟩ := checked
  refine ⟨g, console, run, size, marks, ?_⟩
  have sized : #[true, false, false, false, false].size = g.nodes.size := size.symm
  have reached := ((spread_exact (Graph.wellFormed_ofBody run) sized).1 4 (by omega)).1 (by rw [marks]; rfl)
  exact reached.resolve_left (by decide)

end Decompiler.Eval
