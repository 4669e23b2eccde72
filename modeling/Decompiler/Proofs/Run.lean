import Mathlib

/-!
# Runs

A run is a sequence of steps, each of which goes on with some events or ends with a result. Two
runs are the same if they show the same events and end alike, however many steps they take for it.

* `Reaches.split`: of two runs from one start, one continues the other.
* `Simulates.sameRuns`: if every step of one run is answered by one or more steps of the other with
  the same events, then both runs are the same. Since steps are functions, it is enough to show
  this in one direction.
-/

namespace Decompiler.Run

open List

inductive Outcome (α ε ρ : Type) where
  | goOn (events : List ε) (next : α)
  | stop (result : ρ)
  deriving DecidableEq

variable {α β ε ρ : Type} {f : α → Outcome α ε ρ} {g : β → Outcome β ε ρ}

inductive Reaches (f : α → Outcome α ε ρ) : Nat → α → List ε → α → Prop where
  | refl {a} :
    Reaches f 0 a [] a
  | step {n a b c e es} :
    f a = .goOn e b →
    Reaches f n b es c →
    Reaches f (n + 1) a (e ++ es) c

def Ends (f : α → Outcome α ε ρ) (a : α) (es : List ε) (r : ρ) : Prop :=
  ∃ n b, Reaches f n a es b ∧ f b = .stop r

structure SameRuns (f : α → Outcome α ε ρ) (a : α) (g : β → Outcome β ε ρ) (b : β) : Prop where
  forth : ∀ {n es a'}, Reaches f n a es a' → ∃ k es' b', Reaches g k b es' b' ∧ es <+: es'
  back : ∀ {n es b'}, Reaches g n b es b' → ∃ k es' a', Reaches f k a es' a' ∧ es <+: es'
  ends : ∀ {es r}, Ends f a es r ↔ Ends g b es r

lemma Reaches.trans (st : Reaches f n a es b) (st' : Reaches f k b es' c) :
    Reaches f (n + k) a (es ++ es') c := by
  induction st with
  | refl => rw [Nat.zero_add]; exact st'
  | @step n a b _ e es h _ ih =>
    rw [Nat.add_right_comm, append_assoc]
    exact .step h (ih st')

lemma Reaches.single (h : f a = .goOn e b) : Reaches f 1 a e b := by
  rw [← append_nil e]
  exact .step h .refl

lemma Reaches.split (st : Reaches f n a es b) (st' : Reaches f k a es' c)
    (le : n ≤ k) : ∃ rest, Reaches f (k - n) b rest c ∧ es' = es ++ rest := by
  induction st generalizing k es' with
  | refl => exact ⟨es', st', rfl⟩
  | @step n a b d e es h _ ih =>
    cases st' with
    | refl => exact absurd le (by omega)
    | @step k _ b' _ e' es' h' st' =>
      rw [h] at h'
      cases h'
      obtain ⟨rest, st'', rfl⟩ := ih st' (by omega)
      refine ⟨rest, ?_, by rw [append_assoc]⟩
      rw [show k + 1 - (n + 1) = k - n by omega]
      exact st''

lemma Reaches.stopped (st : Reaches f n a es b) (h : f a = .stop r) : n = 0 ∧ es = [] ∧ b = a := by
  cases st with
  | refl => exact ⟨rfl, rfl, rfl⟩
  | step h' _ => rw [h] at h'; cases h'

lemma Reaches.le_of_stop (st : Reaches f n a es b) (h : f b = .stop r)
    (st' : Reaches f k a es' c) : k ≤ n := by
  rcases le_total n k with le | le
  · obtain ⟨rest, st'', -⟩ := st.split st' le
    have := (st''.stopped h).1
    omega
  · exact le

lemma Ends.unique (en : Ends f a es r) (en' : Ends f a es' r') : es = es' ∧ r = r' := by
  obtain ⟨n, b, st, h⟩ := en
  obtain ⟨k, c, st', h'⟩ := en'
  obtain ⟨rest, st'', rfl⟩ := st.split st' (st'.le_of_stop h' st)
  obtain ⟨-, rfl, rfl⟩ := st''.stopped h
  rw [h] at h'
  cases h'
  exact ⟨(append_nil es).symm, rfl⟩

lemma Reaches.of_eq (st : Reaches f (n + 1) a es b) (e : f a = f a') :
    Reaches f (n + 1) a' es b := by
  cases st with
  | step h rest => exact .step (e ▸ h) rest

lemma Ends.of_eq (en : Ends f a es r) (e : f a = f a') : Ends f a' es r := by
  obtain ⟨n, b, st, h⟩ := en
  cases n with
  | zero =>
    cases st
    exact ⟨0, a', .refl, e ▸ h⟩
  | succ n => exact ⟨n + 1, b, st.of_eq e, h⟩

def finish (f : α → Outcome α ε ρ) : Nat → α → Option (List ε × ρ)
  | 0, _ => none
  | n + 1, a =>
    match f a with
    | .stop r => some ([], r)
    | .goOn es b => (finish f n b).map fun (es', r) => (es ++ es', r)

lemma ends_of_finish (h : finish f n a = some (es, r)) : Ends f a es r := by
  induction n generalizing a es with
  | zero => cases h
  | succ n ih =>
    rw [finish] at h
    cases e : f a with
    | stop r' =>
      rw [e] at h
      cases h
      exact ⟨0, a, .refl, e⟩
    | goOn es1 b =>
      rw [e] at h
      obtain ⟨⟨es2, r'⟩, h', eq⟩ := Option.map_eq_some_iff.1 h
      cases eq
      obtain ⟨k, c, st, en⟩ := ih h'
      exact ⟨k + 1, c, .step e st, en⟩

lemma not_sameRuns (h : (finish f n a).isSome) (h' : (finish g k b).isSome)
    (ne : finish f n a ≠ finish g k b) : ¬ SameRuns f a g b := by
  obtain ⟨⟨es, r⟩, e⟩ := Option.isSome_iff_exists.1 h
  obtain ⟨⟨es', r'⟩, e'⟩ := Option.isSome_iff_exists.1 h'
  intro same
  obtain ⟨rfl, rfl⟩ := (same.ends.1 (ends_of_finish e)).unique (ends_of_finish e')
  exact ne (e.trans e'.symm)

def Answered (g : β → Outcome β ε ρ) (R : α → β → Prop) (b : β) : Outcome α ε ρ → Prop
  | .goOn es a' => ∃ n b', Reaches g (n + 1) b es b' ∧ R a' b'
  | .stop r => Ends g b [] r

def Simulates (f : α → Outcome α ε ρ) (g : β → Outcome β ε ρ) (R : α → β → Prop) : Prop :=
  ∀ {a b}, R a b → Answered g R b (f a)

variable {R : α → β → Prop}

lemma Answered.of_eq (h : Answered g R b o) (e : g b = g b') : Answered g R b' o := by
  cases o with
  | goOn es a' =>
    obtain ⟨n, c, st, h⟩ := h
    exact ⟨n, c, st.of_eq e, h⟩
  | stop r => exact Ends.of_eq h e

lemma Answered.single (e : g b = .goOn es b') (h : R a' b') : Answered g R b (.goOn es a') :=
  ⟨0, b', .single e, h⟩

lemma Answered.silent (e : g b = .goOn [] b') (h : Answered g R b' o) : Answered g R b o := by
  cases o with
  | goOn es a' | stop r =>
    obtain ⟨n, c, st, h⟩ := h
    exact ⟨n + 1, c, .step e st, h⟩

lemma Answered.stop (e : g b = .stop r) : Answered g R b (.stop r) :=
  ⟨0, b, .refl, e⟩

section

variable (sim : Simulates f g R)

include sim

lemma Simulates.goOn (h : R a b) (st : f a = .goOn es a') :
    ∃ n b', Reaches g (n + 1) b es b' ∧ R a' b' := by
  have := sim h
  rwa [st] at this

lemma Simulates.stop (h : R a b) (st : f a = .stop r) : Ends g b [] r := by
  have := sim h
  rwa [st] at this

lemma Simulates.reaches (h : R a b)
    (st : Reaches f n a es a') : ∃ k b', n ≤ k ∧ Reaches g k b es b' ∧ R a' b' := by
  induction st generalizing b with
  | refl => exact ⟨0, b, le_refl 0, .refl, h⟩
  | step h' _ ih =>
    obtain ⟨k, b1, st1, h1⟩ := sim.goOn h h'
    obtain ⟨l, b2, le, st2, h2⟩ := ih h1
    exact ⟨k + 1 + l, b2, by omega, st1.trans st2, h2⟩

lemma Simulates.ends (h : R a b) (en : Ends f a es r) : Ends g b es r := by
  obtain ⟨n, a', st, e⟩ := en
  obtain ⟨k, b', -, st', h'⟩ := sim.reaches h st
  obtain ⟨l, c, st'', e'⟩ := sim.stop h' e
  refine ⟨k + l, c, ?_, e'⟩
  rw [← append_nil es]
  exact st'.trans st''

/-- The other direction, since the steps are functions. -/
lemma Simulates.back (h : R a b) (st : Reaches g n b es b') :
    (∃ k es' a', Reaches f k a es' a' ∧ es <+: es') ∧ ∀ {r}, g b' = .stop r → Ends f a es r := by
  induction n using Nat.strongRecOn generalizing a b es with
  | ind n ih =>
    cases e : f a with
    | stop r =>
      obtain ⟨k, c, st', e'⟩ := sim.stop h e
      obtain ⟨rest, st'', eq⟩ := st.split st' (st'.le_of_stop e' st)
      obtain ⟨rfl, rfl⟩ := append_eq_nil_iff.1 eq.symm
      refine ⟨⟨0, [], a, .refl, prefix_rfl⟩, fun en => ?_⟩
      obtain ⟨-, -, rfl⟩ := st''.stopped en
      rw [en] at e'
      cases e'
      exact ⟨0, a, .refl, e⟩
    | goOn es1 a1 =>
      obtain ⟨k, b1, st1, h1⟩ := sim.goOn h e
      rcases lt_or_ge n (k + 1) with lt | le
      · obtain ⟨rest, -, rfl⟩ := st.split st1 lt.le
        exact ⟨⟨1, _, a1, .single e, prefix_append es rest⟩,
          fun en => absurd (st.le_of_stop en st1) (not_le.2 lt)⟩
      · obtain ⟨rest, st2, rfl⟩ := st1.split st le
        obtain ⟨⟨l, es', a', st', pre⟩, ends⟩ := ih (n - (k + 1)) (by omega) h1 st2
        refine ⟨⟨l + 1, _, a', .step e st', (prefix_append_right_inj es1).2 pre⟩, fun en => ?_⟩
        obtain ⟨l, a', st', e'⟩ := ends en
        exact ⟨l + 1, a', .step e st', e'⟩

theorem Simulates.sameRuns (h : R a b) : SameRuns f a g b where
  forth st := by
    obtain ⟨k, b', -, st', -⟩ := sim.reaches h st
    exact ⟨k, _, b', st', prefix_rfl⟩
  back st := (sim.back h st).1
  ends := by
    intro es r
    refine ⟨sim.ends h, ?_⟩
    rintro ⟨n, b', st, en⟩
    exact (sim.back h st).2 en

end

end Decompiler.Run
