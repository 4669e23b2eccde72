import Mathlib
import Decompiler.Table

/-!
# Tables

What a table holds after a key has been given a value.
-/

namespace Decompiler

open List

lemma mem_iff_lookup [BEq κ] [LawfulBEq κ] {d : List (κ × β)}
    (distinct : (d.map Prod.fst).Nodup) {i n} : (i, n) ∈ d ↔ d.lookup i = some n := by
  induction d with
  | nil => simp
  | cons e d ih =>
    obtain ⟨j, m⟩ := e
    obtain ⟨notMem, distinct'⟩ := nodup_cons.1 distinct
    rw [mem_cons, ih distinct', lookup_cons]
    cases same : i == j with
    | true =>
      obtain rfl := eq_of_beq same
      have absent : d.lookup i ≠ some n := fun h =>
        notMem (mem_map.2 ⟨_, (ih distinct').2 h, rfl⟩)
      simp [absent, eq_comm]
    | false => simp [beq_eq_false_iff_ne.1 same]

namespace Table

variable {κ α : Type} [BEq κ] [LawfulBEq κ] {t : Table κ α}

lemma lookup_replace (entries : List (κ × α)) (k k' : κ) (a : α) :
    (entries.map fun (k', a') => if k' == k then (k', a) else (k', a')).lookup k' =
      if k' == k then (entries.lookup k').map fun _ => a else entries.lookup k' := by
  induction entries with
  | nil => simp
  | cons entry entries ih =>
    obtain ⟨k1, a1⟩ := entry
    have head : (if k1 == k then (k1, a) else (k1, a1)) = (k1, if k1 == k then a else a1) := by
      split <;> rfl
    change lookup k' ((if k1 == k then (k1, a) else (k1, a1)) :: _) = _
    rw [head]
    by_cases here : k' = k1
    · subst here
      by_cases same : k' = k
      · simp [lookup, same]
      · simp [lookup, beq_false_of_ne same]
    · simp only [lookup, beq_false_of_ne here]
      exact ih

/-- The key has the new value, all others have the old one. -/
lemma get?_insert (t : Table κ α) (k k' : κ) (a : α) :
    (t.insert k a).get? k' = if k' == k then some a else t.get? k' := by
  unfold insert
  split
  case isTrue inside =>
    unfold get?
    rw [lookup_replace]
    by_cases same : k' = k
    · subst same
      obtain ⟨b, found⟩ := Option.isSome_iff_exists.1 inside
      rw [get?] at found
      simp [found]
    · simp [same]
  case isFalse outside =>
    have none : t.entries.lookup k = none := by
      rwa [contains, Option.not_isSome_iff_eq_none] at outside
    unfold get?
    rw [lookup_append]
    by_cases same : k' = k
    · subst same
      simp [none]
    · simp [lookup, beq_false_of_ne same]

lemma mem_entries_iff (distinct : t.keys.Nodup) : (k, a) ∈ t.entries ↔ t.get? k = some a :=
  mem_iff_lookup distinct

lemma nodup_insert (distinct : t.keys.Nodup) : (t.insert k a).keys.Nodup := by
  unfold insert
  split
  case isTrue =>
    have same : (fun e : κ × α => (if e.1 == k then (e.1, a) else (e.1, e.2)).1) = Prod.fst := by
      funext e
      split <;> rfl
    rw [keys, map_map, Function.comp_def, same]
    exact distinct
  case isFalse outside =>
    have absent : k ∉ t.keys := by
      intro mem
      obtain ⟨⟨_, b⟩, entry, rfl⟩ := mem_map.1 mem
      rw [contains, (mem_entries_iff distinct).1 entry] at outside
      exact outside rfl
    rw [keys, map_append]
    apply distinct.append (nodup_singleton k)
    rintro k1 mem (_ | ⟨_, ⟨⟩⟩)
    exact absent mem

lemma mem_keys_of_get? (h : t.get? k = some a) : k ∈ t.keys := by
  obtain ⟨before, behind, eq, -⟩ := lookup_eq_some_iff.1 h
  rw [keys, eq]
  simp

end Table

end Decompiler
