import Mathlib
import Decompiler.Flow.Graph

/-!
# Paths in a flow graph

A path starts at a node and follows edges. It is given by the nodes that it passes, with both of its
ends.
-/

namespace Decompiler.Flow.Graph

open List

def Edge (g : Graph) (i j : Nat) : Prop :=
  ∃ n, g.nodes[i]? = some n ∧ j ∈ n.link.targets

inductive Path (g : Graph) (start : Nat) : List Nat → Nat → Prop where
  | here :
    Path g start [start] start
  | step {path i j} :
    Path g start path i →
    g.Edge i j →
    Path g start (path ++ [j]) j

def Dominates (g : Graph) (d i : Nat) : Prop :=
  ∀ path, g.Path 0 path i → d ∈ path

variable {g : Graph} {path rest : List Nat}

lemma Edge.lt (h : g.Edge i j) : i < g.nodes.size := by
  obtain ⟨n, found, -⟩ := h
  exact (getElem?_eq_some_iff.1 found).1

namespace Path

section

variable (h : g.Path start path i)

include h

lemma start_mem : start ∈ path := by
  induction h with
  | here => exact mem_singleton_self _
  | step _ _ ih => exact mem_append_left _ ih

lemma end_mem : i ∈ path := by
  cases h with
  | here => exact mem_singleton_self _
  | step => exact mem_append_right _ (mem_singleton_self _)

lemma lt_of_mem (lt : i < g.nodes.size) (mem : d ∈ path) : d < g.nodes.size := by
  induction h with
  | here => exact mem_singleton.1 mem ▸ lt
  | step _ edge ih =>
    rcases mem_append.1 mem with mem | mem
    · exact ih edge.lt mem
    · exact mem_singleton.1 mem ▸ lt

lemma ne_nil : path ≠ [] :=
  ne_nil_of_mem h.end_mem

lemma append (h' : g.Path i rest j) : g.Path start (path ++ rest.tail) j := by
  induction h' with
  | here => simpa using h
  | step before edge ih =>
    rw [tail_append_of_ne_nil before.ne_nil, ← append_assoc]
    exact ih.step edge

end

lemma suffix {behind} (h : g.Path start (front ++ d :: behind) i) : g.Path d (d :: behind) i := by
  generalize whole : front ++ d :: behind = path at h
  induction h generalizing behind with
  | here =>
    obtain ⟨-, same⟩ := append_eq_singleton_iff.1 whole |>.resolve_right (by simp)
    obtain ⟨rfl, rfl⟩ := cons.inj same
    exact .here
  | @step path i j before edge ih =>
    rcases eq_nil_or_concat behind with rfl | ⟨behind, z, rfl⟩
    · obtain ⟨-, same⟩ := append_inj' whole rfl
      obtain rfl := singleton_inj.1 same
      exact .here
    · have whole : (front ++ d :: behind) ++ [z] = path ++ [j] := by simpa using whole
      obtain ⟨same, last⟩ := append_inj' whole rfl
      obtain rfl := singleton_inj.1 last
      rw [concat_eq_append]
      exact (ih same).step edge

/-- A path can be cut where it passes a node last. -/
lemma split (h : g.Path start path i) (mem : d ∈ path) :
    ∃ front behind, path = front ++ behind ∧ g.Path start front d ∧ g.Path d (d :: behind) i ∧
      d ∉ behind := by
  induction h with
  | here =>
    obtain rfl := mem_singleton.1 mem
    exact ⟨[d], [], rfl, .here, .here, not_mem_nil⟩
  | @step path i j before edge ih =>
    by_cases last : d = j
    · subst last
      exact ⟨path ++ [d], [], (append_nil _).symm, before.step edge, .here, not_mem_nil⟩
    · have earlier : d ∈ path := by
        rcases mem_append.1 mem with mem | mem
        · exact mem
        · exact absurd (mem_singleton.1 mem) last
      obtain ⟨front, behind, rfl, first, second, fresh⟩ := ih earlier
      refine ⟨front, behind ++ [j], append_assoc _ _ _, first, second.step edge, ?_⟩
      intro mem
      rcases mem_append.1 mem with mem | mem
      · exact fresh mem
      · exact last (mem_singleton.1 mem)

end Path

namespace Dominates

lemma refl : g.Dominates i i :=
  fun _ path => path.end_mem

lemma of_edge (h : g.Dominates d j) (edge : g.Edge i j) (ne : d ≠ j) : g.Dominates d i := by
  intro path along
  rcases mem_append.1 (h _ (along.step edge)) with mem | mem
  · exact mem
  · exact absurd (mem_singleton.1 mem) ne

lemma entry (h : g.Dominates d 0) : d = 0 :=
  mem_singleton.1 (h [0] .here)

lemma trans (h : g.Dominates d e) (h' : g.Dominates e i) : g.Dominates d i := by
  intro path along
  obtain ⟨front, behind, rfl, first, -, -⟩ := along.split (h' path along)
  exact mem_append_left _ (h front first)

lemma antisymm (h : g.Dominates d e) (h' : g.Dominates e d) (along : g.Path 0 path d) : d = e := by
  by_contra ne
  induction length : path.length using Nat.strongRecOn generalizing path with
  | _ n ih =>
    obtain ⟨front, behind, rfl, first, second, -⟩ := along.split (h' path along)
    obtain ⟨front', behind', rfl, first', -, -⟩ := first.split (h front first)
    have some_behind : behind ≠ [] := by
      rintro rfl
      exact ne (mem_singleton.1 second.end_mem)
    have shorter := length_pos_iff.2 some_behind
    refine ih front'.length ?_ first' rfl
    simp only [length_append] at length
    omega

/-- Of two dominators of a node, one dominates the other. -/
lemma chain (hd : g.Dominates d i) (he : g.Dominates e i) (along : g.Path 0 path i) :
    g.Dominates d e ∨ g.Dominates e d := by
  by_contra neither
  simp only [Dominates, not_or, not_forall] at neither
  obtain ⟨⟨toE, alongE, noD⟩, ⟨toD, alongD, noE⟩⟩ := neither
  obtain ⟨front, behind, rfl, -, second, fresh⟩ := along.split (hd path along)
  -- One of the two is passed last; from there on the path avoids the other one.
  by_cases later : e ∈ behind
  · obtain ⟨front', behind', eq, first', second', -⟩ := second.split (mem_cons_of_mem d later)
    rcases mem_append.1 (hd _ (alongE.append second')) with mem | mem
    · exact noD mem
    · obtain ⟨x, front', rfl⟩ := exists_cons_of_ne_nil first'.ne_nil
      exact fresh ((cons.inj eq).2 ▸ mem_append_right _ mem)
  · rcases mem_append.1 (he _ (alongD.append second)) with mem | mem
    · exact noE mem
    · exact later mem

end Dominates

end Decompiler.Flow.Graph
