import Decompiler.Proofs.UniqueLabels

/-!
# Labels for the entries of jump tables

An entry of a jump table has a label of its own, or it is covered by the default of its switch. The
labels of all switches are in one list, where they are told apart by the numbers of the switches.

Main statement: `ofGraph_dispatches`.
-/

namespace Decompiler.Structure

open Decompiler.Flow List Labels

section

variable {g : Graph} {labels : Labels}

lemma ofGraph_ok (nonempty : ∀ n ∈ g.nodes, ∀ cases, n.link = .select cases → cases ≠ []) :
    ∃ labels, ofGraph g = .ok labels := by
  have steps (several) (is : List Nat) (l : Labels) (inside : ∀ i ∈ is, i < g.nodes.size) :
      ∃ l', is.foldlM (step g several) l = .ok l' := by
    induction is generalizing l with
    | nil => exact ⟨l, rfl⟩
    | cons i is ih =>
      obtain ⟨lt, inside⟩ := forall_mem_cons.1 inside
      have mem : g.nodes.getD i default ∈ g.nodes := by simp [lt]
      have one : ∃ l1, step g several l i = .ok l1 := by
        unfold step
        split
        case h_1 cases link =>
          rw [isEmpty_eq_false_iff.2 (nonempty _ mem cases link)]
          exact ⟨_, rfl⟩
        all_goals exact ⟨_, rfl⟩
      obtain ⟨l1, one⟩ := one
      obtain ⟨l', others⟩ := ih l1 inside
      exact ⟨l', by rw [foldlM_cons, one]; exact others⟩
  exact steps _ _ _ fun i => mem_range.1

lemma switch_inj (h : ofGraph g = .ok labels) {i j n m cases cases'}
    (at_i : g.nodes[i]? = some n) (link : n.link = .select cases) (at_j : g.nodes[j]? = some m)
    (link' : m.link = .select cases') (same : labels.switch i = labels.switch j) : i = j := by
  obtain ⟨sel, several, -, inj, numbered⟩ := ofGraph_numbers h
  obtain ⟨k, at_k, number⟩ := numbered at_i link
  obtain ⟨l, at_l, number'⟩ := numbered at_j link'
  obtain rfl : k = l := inj (List.getElem?_eq_some_iff.1 at_k).1 (List.getElem?_eq_some_iff.1 at_l).1
    (number.symm.trans (same.trans number'))
  exact congrArg Prod.fst (Option.some.inj (at_k.symm.trans at_l))

/-- A case of a jump table is no copy of a return, so it is written with its labels. -/
lemma case_not_copy (wf : g.WellFormed) {i t : Nat} {n m : Node} {cases} (found : g.nodes[i]? = some n)
    (link : n.link = .select cases) (mem : t ∈ cases) (at_t : g.nodes[t]? = some m) :
    m.link.isCopy = false := by
  by_contra copy
  obtain ⟨j, n', parents, at_j, link'⟩ := wf.copies at_t (Bool.not_eq_false _ ▸ copy)
  have edge : g.Edge i t := ⟨n, found, by rwa [link]⟩
  have parent := (wf.parents at_t i).2 edge
  rw [parents] at parent
  obtain rfl := mem_singleton.1 parent
  cases at_j.symm.trans found
  cases link'.symm.trans link

end

/-- The labels of switches lead where the jump tables lead: each entry has one label with its index,
or none, and then the default of the switch stands at its target. All labels are distinct, and so are
the numbers of the switches. -/
theorem ofGraph_dispatches {g : Graph} (wf : g.WellFormed)
    (nonempty : ∀ n ∈ g.nodes, ∀ cases, n.link = .select cases → cases ≠ []) :
    ∃ labels, Labels.ofGraph g = .ok labels ∧
      (∀ (i : Nat) n cases, g.nodes[i]? = some n → n.link = .select cases →
        (∀ index t, cases[index]? = some t →
          (∃ m, g.nodes[t]? = some m ∧ m.link.isCopy = false) ∧
          (⟨labels.switch i, some index⟩ ∈ labels.casesOf t ∨
            (∀ u, ⟨labels.switch i, some index⟩ ∉ labels.casesOf u) ∧
              ⟨labels.switch i, none⟩ ∈ labels.casesOf t)) ∧
        (∀ index t, ⟨labels.switch i, some index⟩ ∈ labels.casesOf t → cases[index]? = some t) ∧
        ∀ (j : Nat) m cases', g.nodes[j]? = some m → m.link = .select cases' →
          labels.switch i = labels.switch j → i = j) ∧
      (∀ t, (labels.casesOf t).Nodup) ∧
      ∀ c t u, c ∈ labels.casesOf t → c ∈ labels.casesOf u → t = u := by
  obtain ⟨labels, h⟩ := ofGraph_ok nonempty
  have nodup := ofGraph_nodup h
  refine ⟨labels, h, fun i n cases found link => ⟨fun index t entry => ⟨?_, ?_⟩,
    fun index t mem => ?_, fun j m cases' => switch_inj h found link⟩, casesOf_nodup nodup,
    fun c t u here there => ?_⟩
  · have mem := mem_of_getElem? entry
    have lt := wf.inside ⟨n, found, show t ∈ n.link.targets by rwa [link]⟩
    exact ⟨_, Array.getElem?_eq_getElem lt, case_not_copy wf found link mem (Array.getElem?_eq_getElem lt)⟩
  · have own {u index?} : (⟨labels.switch i, index?⟩ : Case) ∈ labels.casesOf u ↔
        (u, ⟨labels.switch i, index?⟩) ∈ switchCases (labels.switch i) cases :=
      mem_casesOf.trans (switch_cases h found link rfl)
    by_cases explicit : ∃ u, (u, ⟨labels.switch i, some index⟩) ∈ switchCases (labels.switch i) cases
    · obtain ⟨u, mem⟩ := explicit
      cases entry.symm.trans (switchCases_index mem)
      exact .inl (own.2 mem)
    · have none (u) (mem) := explicit ⟨u, mem⟩
      obtain ⟨⟨u, mem⟩, only⟩ := switchCases_default (List.getElem?_eq_some_iff.1 entry).1 none
      cases entry.symm.trans (only u mem)
      exact .inr ⟨fun u mem => none u (own.1 mem), own.2 mem⟩
  · exact switchCases_index ((switch_cases h found link rfl).1 (mem_casesOf.1 mem))
  · exact congrArg Prod.fst (inj_on_of_nodup_map nodup (mem_casesOf.1 here) (mem_casesOf.1 there) rfl)

/-- The default of a switch covers the third entry of its table, which repeats the first one. -/
theorem ofGraph_dispatches_switchBack :
    ∃ g console labels n, (Graph.ofBody switchTable switchBack).run {} = (.ok g, console) ∧
      Labels.ofGraph g = .ok labels ∧ g.nodes[0]? = some n ∧ n.link = .select [1, 2, 1, 2] ∧
      (⟨labels.switch 0, some 2⟩ ∈ labels.casesOf 1 ∨
        (∀ u, ⟨labels.switch 0, some 2⟩ ∉ labels.casesOf u) ∧
          ⟨labels.switch 0, none⟩ ∈ labels.casesOf 1) := by
  have checked : Graph.makes switchTable switchBack fun g =>
      (g.nodes.all fun n => n.link != .select []) &&
        g.nodes[0]?.any fun n => n.link == .select [1, 2, 1, 2] := by cbv
  obtain ⟨g, console, run, checked⟩ := Graph.exists_of_makes checked
  obtain ⟨nonempty, first⟩ := Bool.and_eq_true_iff.1 checked
  obtain ⟨n, found, link⟩ := (Option.any_eq_true _ _).1 first
  obtain ⟨labels, labelled, each, -⟩ := ofGraph_dispatches (Graph.wellFormed_ofBody run)
    fun n mem cases link => by
    rintro rfl
    simpa [link] using Array.all_eq_true'.1 nonempty n mem
  have link := eq_of_beq link
  exact ⟨g, console, labels, n, run, labelled, found, link, ((each 0 n _ found link).1 2 1 rfl).2⟩

end Decompiler.Structure
