import Decompiler.Proofs.BodyGraph

/-!
# Searches

A search takes a node from a stack, and unless it has seen it before, puts the nodes behind it on
the stack. What lies behind a node is a list that may depend on the kind of search.
-/

namespace Decompiler.Flow

open List

section

variable {next : Nat → List Nat} {seen : NodeSet} {stack : List Nat}

def unseenEdges (next : Nat → List Nat) (size : Nat) (seen : NodeSet) : Nat :=
  ((List.range size).map fun m => if seen.contains m then 0 else (next m).length).sum

lemma unseenEdges_insert (outside : size ≤ n → next n = []) (new : seen.contains n = false) :
    unseenEdges next size (seen.insert n) + (next n).length = unseenEdges next size seen := by
  by_cases lt : n < size
  · have mem : n ∈ range size := mem_range.2 lt
    rw [unseenEdges, unseenEdges, ← sum_map_erase _ mem, ← sum_map_erase _ mem]
    have others : ((range size).erase n).map (fun m =>
          if (seen.insert n).contains m then 0 else (next m).length) =
        ((range size).erase n).map fun m =>
          if seen.contains m then 0 else (next m).length := by
      refine map_congr_left fun m mem => ?_
      have ne := (nodup_range.mem_erase_iff.1 mem).1
      rw [NodeSet.contains_insert, beq_eq_false_iff_ne.2 ne, Bool.or_false]
    rw [others, NodeSet.contains_insert, new]
    simp only [beq_self_eq_true, Bool.or_true, if_true, Bool.false_eq_true, if_false]
    omega
  · rw [outside (Nat.le_of_not_lt lt)]
    refine congrArg sum (map_congr_left fun m mem => ?_)
    have ne : m ≠ n := by
      rintro rfl
      exact lt (mem_range.1 mem)
    rw [NodeSet.contains_insert, beq_eq_false_iff_ne.2 ne, Bool.or_false]

lemma unseenEdges_le (bound : Nat → Nat) (le : ∀ m, (next m).length ≤ bound m) (seen : NodeSet) :
    unseenEdges next size seen ≤ ((range size).map bound).sum := by
  refine sum_le_sum fun m _ => ?_
  split
  · exact Nat.zero_le _
  · exact le m

inductive Found (next : Nat → List Nat) (seen : NodeSet) (stack : List Nat) : Nat → Prop where
  | top {k} :
    k ∈ stack →
    seen.contains k = false →
    Found next seen stack k
  | on {k p} :
    Found next seen stack k →
    p ∈ next k →
    seen.contains p = false →
    Found next seen stack p

/-- The nodes that a search looks at: those on the stack, and those behind the nodes that it finds. -/
inductive Exposed (next : Nat → List Nat) (seen : NodeSet) (stack : List Nat) : Nat → Prop where
  | top {k} :
    k ∈ stack →
    Exposed next seen stack k
  | on {k p} :
    Exposed next seen stack k →
    seen.contains k = false →
    p ∈ next k →
    Exposed next seen stack p

lemma found_iff_exposed :
    Found next seen stack m ↔ Exposed next seen stack m ∧ seen.contains m = false := by
  constructor
  · intro h
    induction h with
    | top mem new => exact ⟨.top mem, new⟩
    | on _ behind new ih => exact ⟨.on ih.1 ih.2 behind, new⟩
  · rintro ⟨h, new⟩
    induction h with
    | top mem => exact .top mem new
    | on _ fresh behind ih => exact .on (ih fresh) behind new

lemma exposed_nil : ¬ Exposed next seen [] m := by
  intro h
  induction h with
  | top mem => exact absurd mem not_mem_nil
  | on _ _ _ ih => exact ih

lemma found_nil : ¬ Found next seen [] m :=
  fun h => exposed_nil (found_iff_exposed.1 h).1

lemma exposed_seen (old : seen.contains n) :
    Exposed next seen (n :: stack) m ↔ m = n ∨ Exposed next seen stack m := by
  constructor
  · intro h
    induction h with
    | top mem => exact (mem_cons.1 mem).imp_right .top
    | on _ new behind ih =>
      rcases ih with rfl | ih
      · rw [old] at new
        cases new
      · exact .inr (.on ih new behind)
  · rintro (rfl | h)
    · exact .top mem_cons_self
    · induction h with
      | top mem => exact .top (mem_cons_of_mem _ mem)
      | on _ new behind ih => exact .on ih new behind

lemma found_seen (old : seen.contains n) :
    Found next seen (n :: stack) m ↔ Found next seen stack m := by
  rw [found_iff_exposed, found_iff_exposed, exposed_seen old]
  refine and_congr_left fun new => or_iff_right ?_
  rintro rfl
  exact Bool.false_ne_true (new.symm.trans old)

lemma contains_insert_eq_false :
    (seen.insert n).contains m = false ↔ seen.contains m = false ∧ m ≠ n := by
  rw [NodeSet.contains_insert, Bool.or_eq_false_iff, beq_eq_false_iff_ne]

/-- What a search meets from a new node. -/
lemma exposed_new (new : seen.contains n = false) :
    Exposed next seen (n :: stack) m ↔
      m = n ∨ Exposed next (seen.insert n) ((next n).reverse ++ stack) m := by
  constructor
  · intro h
    induction h with
    | top mem => exact (mem_cons.1 mem).imp_right fun mem => .top (mem_append_right _ mem)
    | @on m p _ fresh behind ih =>
      refine .inr ?_
      by_cases same : m = n
      · subst same
        exact .top (mem_append_left _ (mem_reverse.2 behind))
      · exact .on (ih.resolve_left same) (contains_insert_eq_false.2 ⟨fresh, same⟩) behind
  · rintro (rfl | h)
    · exact .top mem_cons_self
    · induction h with
      | top mem =>
        rcases mem_append.1 mem with behind | mem
        · exact .on (.top mem_cons_self) new (mem_reverse.1 behind)
        · exact .top (mem_cons_of_mem _ mem)
      | on _ fresh behind ih => exact .on ih (contains_insert_eq_false.1 fresh).1 behind

lemma found_new (new : seen.contains n = false) :
    Found next seen (n :: stack) m ↔
      m = n ∨ Found next (seen.insert n) ((next n).reverse ++ stack) m := by
  rw [found_iff_exposed, found_iff_exposed, exposed_new new]
  by_cases same : m = n
  · simp [same, new]
  · simp [same]

/-- With enough steps, a search comes to its end: it passes over the nodes that it has seen, and
puts some of those behind the others on the stack. -/
lemma search_induction {motive : Nat → NodeSet → List Nat → Prop}
    (outside : ∀ n, size ≤ n → next n = []) (nil : ∀ fuel seen, motive (fuel + 1) seen [])
    (old : ∀ fuel seen n stack, seen.contains n → motive fuel seen stack →
      motive (fuel + 1) seen (n :: stack))
    (new : ∀ fuel seen n stack, seen.contains n = false →
      (∀ more, more.length ≤ (next n).length → motive fuel (seen.insert n) (more ++ stack)) →
      motive (fuel + 1) seen (n :: stack))
    (enough : unseenEdges next size seen + stack.length < fuel) : motive fuel seen stack := by
  induction fuel generalizing seen stack with
  | zero => exact absurd enough (Nat.not_lt_zero _)
  | succ fuel ih =>
    cases stack with
    | nil => exact nil fuel seen
    | cons n stack =>
      rw [length_cons] at enough
      cases known : seen.contains n with
      | true => exact old _ _ _ _ known (ih (by omega))
      | false =>
        have less := unseenEdges_insert (outside n) known
        refine new _ _ _ _ known fun more le => ih ?_
        rw [length_append]
        omega

end

lemma NodeSet.contains_single_ne : (single d).contains k = false ↔ d ≠ k := by
  rw [contains_single, beq_eq_false_iff_ne, ne_comm]

end Decompiler.Flow
