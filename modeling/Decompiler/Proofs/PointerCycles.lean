import Decompiler.Infer.Declared
import Decompiler.Proofs.Merges

/-!
# Types that point to themselves

A pointer to a type can be made equal to that type, which then points to itself. As long as that is
not done, the types that point to each other form chains with an end.

Main statement: `built_acyclic`.
-/

namespace Decompiler

open Relation List

section

variable {α : Type} {R : α → α → Prop} {height : α → Nat}

lemma Acyclic.of_height (height : α → Nat) (lower : ∀ x y, R x y → height y < height x) : Acyclic R := by
  have way {x y : α} (way : TransGen R x y) : height y < height x := by
    induction way with
    | single step => exact lower _ _ step
    | tail _ step ih => exact (lower _ _ step).trans ih
  exact fun x loop => (way loop).false

lemma exists_level (lower : ∀ v w, R v w → height w < height v) (apart : ¬ ReflTransGen R y x)
    (le : height x ≤ height y) :
    ∃ level : α → Nat, (∀ v w, R v w → level w < level v) ∧ level x = level y ∧
      ∀ z, ¬ ReflTransGen R z x → level z = height z := by
  classical
  -- All from which `x` is reached is lifted together with it.
  let level z := height z + if ReflTransGen R z x then height y - height x else 0
  have kept (z) (out : ¬ ReflTransGen R z x) : level z = height z := by simp [level, out]
  refine ⟨level, ?_, ?_, kept⟩
  · intro v w step
    have less := lower v w step
    by_cases way : ReflTransGen R w x
    · simp only [level, if_pos way, if_pos (way.head step)]
      omega
    · rw [kept w way]
      exact less.trans_le (Nat.le_add_right _ _)
  · rw [kept y apart]
    simp only [level, if_pos ReflTransGen.refl]
    omega

end

namespace Infer.TypeStore

open TypeNode

variable {s s0 s' : TypeStore} {a b p q t u x y z : TypeId} {ms : List Merge}

inductive Compared (s : TypeStore) (a b : TypeId) : TypeId → TypeId → Prop
  | start :
    Compared s a b (s.root a) (s.root b)
  | targets {x y t u : TypeId} :
    Compared s a b x y →
    x ≠ y →
    (s.node x).target = some (.type t) →
    (s.node y).target = some (.type u) →
    Compared s a b (s.root t) (s.root u)

def Apart (s : TypeStore) (a b : TypeId) : Prop :=
  ∀ x y, s.Compared a b x y → x ≠ y → ¬ TransGen s.Points x y ∧ ¬ TransGen s.Points y x

lemma Compared.of_targets (ne : s.root a ≠ s.root b)
    (target : (s.node (s.root a)).target = some (.type t))
    (target' : (s.node (s.root b)).target = some (.type u)) (h : s.Compared t u x y) :
    s.Compared a b x y := by
  induction h with
  | start => exact .targets .start ne target target'
  | targets _ ne target target' ih => exact .targets ih ne target target'

section

variable (ok : s.Bounded old)

include ok

lemma Bounded.alone (new : old ≤ x) : ¬ TransGen s.Points x y ∧ ¬ TransGen s.Points y x := by
  constructor
  · intro way
    obtain ⟨z, step, -⟩ := TransGen.head'_iff.1 way
    exact absurd (ok.within step).1 (not_lt.2 new)
  · intro way
    obtain ⟨z, -, step⟩ := TransGen.tail'_iff.1 way
    exact absurd (ok.within step).2 (not_lt.2 new)

omit ok in
lemma Chain.apart (h : Chain s0 old a b ms) (ok : s0.Bounded old) (grows : Extends s s0)
    (wf : s.WellFormed) (lta : a < s.nodes.size) (ltb : b < s.nodes.size) (apart : s.Apart a b) :
    ∀ m ∈ ms, ¬ TransGen s0.Points (s0.root m.left) (s0.root m.right) ∧
      ¬ TransGen s0.Points (s0.root m.right) (s0.root m.left) := by
  have here {a b} (apart : s.Apart a b) (ne : s0.root a ≠ s0.root b) :
      ¬ TransGen s0.Points (s0.root a) (s0.root b) ∧
        ¬ TransGen s0.Points (s0.root b) (s0.root a) := by
    rw [grows.root, grows.root] at ne ⊢
    rw [grows.transGen, grows.transGen]
    exact apart _ _ .start ne
  induction h with
  | same _ => exact forall_mem_nil _
  | flat ne _ _ => exact forall_mem_singleton.2 (here apart ne)
  | deep ne _ behind chain ih =>
    refine forall_mem_cons.2 ⟨here apart ne, ?_⟩
    cases behind with
    | types left right =>
      rw [target?, grows.known wf lta] at left
      rw [target?, grows.known wf ltb] at right
      rw [grows.root, grows.root] at ne
      exact ih ok (wf.target_lt left) (wf.target_lt right) fun x y compared =>
        apart x y (compared.of_targets ne left right)
    | declaredRight _ _ node | declaredLeft _ _ node =>
      intro m mem
      exact ok.alone (chain.left_new ok le_rfl (Nat.lt_succ_self _) node m mem)

def Reached (s : TypeStore) (old : Nat) (a b z : TypeId) : Prop :=
  old ≤ z ∨ ReflTransGen s.Points (s.root a) z ∨ ReflTransGen s.Points (s.root b) z

lemma Behind.reached (h : Behind s old a b new p q) (reached : s.Reached new p q z) :
    old ≤ z ∨ TransGen s.Points (s.root a) z ∨ TransGen s.Points (s.root b) z := by
  have first {v t} (target : s.target? v = some (.type t))
      (way : ReflTransGen s.Points (s.root t) z) : TransGen s.Points (s.root v) z :=
    .head' ⟨ok.isRoot_root v, t, target, rfl⟩ way
  have fresh {c} (node : s.node old = .pointer (some (.declared c)))
      (way : ReflTransGen s.Points (s.root old) z) : old ≤ z := by
    rw [(root_of_fresh ok.toWellFormed node).1] at way
    rcases way.cases_head with same | ⟨_, step, -⟩
    · exact same.le
    · exact absurd (ok.within step).1 (lt_irrefl _)
  cases h with
  | types left right => exact reached.imp_right (Or.imp (first left) (first right))
  | declaredRight left _ node =>
    rcases reached with new | way | way
    · exact .inl (Nat.le_of_succ_le new)
    · exact .inl (fresh node way)
    · exact .inr (.inl (first left way))
  | declaredLeft _ right node =>
    rcases reached with new | way | way
    · exact .inl (Nat.le_of_succ_le new)
    · exact .inl (fresh node way)
    · exact .inr (.inr (first right way))

omit ok in
lemma Chain.reached (h : Chain s old a b ms) (ok : s.Bounded old) :
    ∀ m ∈ ms, s.Reached old a b (s.root m.left) ∧ s.Reached old a b (s.root m.right) := by
  induction h with
  | same _ => exact forall_mem_nil _
  | flat _ _ _ => exact forall_mem_singleton.2 ⟨.inr (.inl .refl), .inr (.inr .refl)⟩
  | deep _ _ behind _ ih =>
    refine forall_mem_cons.2 ⟨⟨.inr (.inl .refl), .inr (.inr .refl)⟩, fun m mem => ?_⟩
    have up {z} (reached) := (behind.reached ok (z := z) reached).imp_right
      (Or.imp TransGen.to_reflTransGen TransGen.to_reflTransGen)
    exact (ih (behind.bounded ok) m mem).imp up up

omit ok in
/-- Types that are made equal can be put on one level, and what they point to is still lower. -/
lemma Chain.level (h : Chain s old a b ms) (ok : s.Bounded old) (placed : s.Placed old a b)
    (acyclic : Acyclic s.Points)
    (apart : ∀ m ∈ ms, ¬ TransGen s.Points (s.root m.left) (s.root m.right) ∧
      ¬ TransGen s.Points (s.root m.right) (s.root m.left)) :
    ∃ level : TypeId → Nat, (∀ v w, s.Points v w → level w < level v) ∧
      ∀ m ∈ ms, level (s.root m.left) = level (s.root m.right) := by
  have reaches {v w} (ne : v ≠ w) (apart : ¬ TransGen s.Points v w) : ¬ ReflTransGen s.Points v w := by
    intro way
    rcases reflTransGen_iff_eq_or_transGen.1 way with same | way
    · exact ne same.symm
    · exact apart way
  have here {a b common} {ms} {height : TypeId → Nat} (ne : s.root a ≠ s.root b)
      (apart : ¬ TransGen s.Points (s.root a) (s.root b) ∧
        ¬ TransGen s.Points (s.root b) (s.root a))
      (lower : ∀ v w, s.Points v w → height w < height v)
      (rest : ∀ m ∈ ms, height (s.root m.left) = height (s.root m.right))
      (out : ∀ z, z = s.root a ∨ z = s.root b → ∀ m ∈ ms,
        ¬ ReflTransGen s.Points (s.root m.left) z ∧ ¬ ReflTransGen s.Points (s.root m.right) z) :
      ∃ level : TypeId → Nat, (∀ v w, s.Points v w → level w < level v) ∧
        ∀ m ∈ (⟨a, b, common⟩ :: ms : List Merge),
          level (s.root m.left) = level (s.root m.right) := by
    rcases le_total (height (s.root a)) (height (s.root b)) with le | le
    · obtain ⟨level, lower, same, kept⟩ := exists_level lower (reaches ne.symm apart.2) le
      refine ⟨level, lower, forall_mem_cons.2 ⟨same, fun m mem => ?_⟩⟩
      obtain ⟨left, right⟩ := out _ (.inl rfl) m mem
      rw [kept _ left, kept _ right, rest m mem]
    · obtain ⟨level, lower, same, kept⟩ := exists_level lower (reaches ne apart.1) le
      refine ⟨level, lower, forall_mem_cons.2 ⟨same.symm, fun m mem => ?_⟩⟩
      obtain ⟨left, right⟩ := out _ (.inr rfl) m mem
      rw [kept _ left, kept _ right, rest m mem]
  obtain ⟨height, -, lower⟩ := acyclic.height fun x y step => step.lt ok.toWellFormed
  induction h with
  | same _ => exact ⟨height, lower, forall_mem_nil _⟩
  | flat ne _ _ =>
    exact here ne (apart _ (.head _)) lower (forall_mem_nil _) fun _ _ => forall_mem_nil _
  | @deep old new a b p q common ms ne _ behind chain ih =>
    obtain ⟨level, lower, rest⟩ := ih (behind.bounded ok) (behind.placed ok) fun m mem =>
      apart m (.tail _ mem)
    have first := apart _ (.head _)
    -- What is behind the two types does not lead back to them.
    have out {z v} (hz : z = s.root a ∨ z = s.root b) (reached : s.Reached new p q v) :
        ¬ ReflTransGen s.Points v z := by
      have lt : z < old := by
        rcases hz with rfl | rfl
        · exact placed.rootLeft
        · exact placed.rootRight
      intro way
      rcases behind.reached ok reached with new | way' | way'
      · rcases reflTransGen_iff_eq_or_transGen.1 way with rfl | way
        · exact absurd lt (not_lt.2 new)
        · exact (ok.alone new).1 way
      · rcases hz with rfl | rfl
        · exact acyclic _ (way'.trans_left way)
        · exact first.1 (way'.trans_left way)
      · rcases hz with rfl | rfl
        · exact first.2 (way'.trans_left way)
        · exact acyclic _ (way'.trans_left way)
    refine here ne first lower rest fun z hz m mem => ?_
    exact (chain.reached (behind.bounded ok) m mem).imp (out hz) (out hz)

end

lemma points_mergeAll (wf : s.WellFormed) (h : s.Mergeable ms) (wf' : (s.mergeAll ms).WellFormed)
    (step : (s.mergeAll ms).Points x y) : ∃ x0 y0, s.Points x0 y0 ∧
      (x0 = x ∨ s.Merged ms x0 x) ∧ ReflTransGen (s.Merged ms) y0 y := by
  obtain ⟨top, t, target, rfl⟩ := step
  have origin : ∃ x0, s.IsRoot x0 ∧ (s.node x0).target = some (.type t) ∧
      (x0 = x ∨ s.Merged ms x0 x) := by
    rcases contents_mergeAll h x with same | ⟨m, mem, rfl, same⟩
    · refine ⟨x, ?_, (congrArg TypeNode.target same).symm.trans target, .inl rfl⟩
      cases parent : (s.node x).parent with
      | none => exact parent
      | some p => cases top.symm.trans (parent_mergeAll_of_parent wf h parent)
    · have target : m.common.target = some (.type t) :=
        (congrArg TypeNode.target same).symm.trans target
      rw [(meets_of_meet? (h m mem).2.2.2).target] at target
      cases left : (s.known m.left).target with
      | none =>
        rw [left] at target
        exact ⟨s.root m.right, wf.isRoot_root _, target, .inr ⟨m, mem, rfl, rfl⟩⟩
      | some v =>
        rw [left] at target
        exact ⟨s.root m.left, wf.isRoot_root _, left.trans target, .inl rfl⟩
  obtain ⟨x0, top0, target, merged⟩ := origin
  exact ⟨x0, s.root t, ⟨top0, t, target, rfl⟩, merged, root_mergeAll wf h wf' t⟩

lemma unifyFrom_acyclic (run : unifyFrom fuel s a b = .ok (true, s')) (wf : s.WellFormed)
    (lta : a < s.nodes.size) (ltb : b < s.nodes.size) (acyclic : Acyclic s.Points)
    (apart : s.Apart a b) : s'.WellFormed ∧ Acyclic s'.Points := by
  obtain ⟨s0, ms, wf0, grows, chain, rfl, -⟩ := unifyFrom_merges wf lta ltb run
  have ok := grows.bounded wf wf0
  have placed := grows.placed wf lta ltb
  have wf' := chain.wellFormed ok placed
  obtain ⟨level, lower, same⟩ := chain.level ok placed (grows.acyclic acyclic)
    (chain.apart ok grows wf lta ltb apart)
  have along {x y} (way : ReflTransGen (s0.Merged ms) x y) : level x = level y := by
    induction way with
    | refl => rfl
    | tail _ step ih =>
      obtain ⟨m, mem, rfl, rfl⟩ := step
      rw [ih, same m mem]
  refine ⟨wf', .of_height level fun x y step => ?_⟩
  obtain ⟨x0, y0, step, merged, way⟩ := points_mergeAll wf0 (chain.mergeable ok placed) wf' step
  have less := lower x0 y0 step
  rw [along way] at less
  rcases merged with rfl | merged
  · exact less
  · rwa [along (.single merged)] at less

section

variable {height : Nat → Nat} {fuel : Nat}

/-- The heights of the chains bound the fuel of a unification. -/
lemma unifyFrom_ends (wf : s.WellFormed) (lower : ∀ x y, s.Points x y → height y < height x)
    (enough : height (s.root a) < fuel) (enough' : height (s.root b) < fuel) :
    unifyFrom fuel s a b ≠ .error .endless := by
  induction fuel generalizing s a b height with
  | zero => exact absurd enough (Nat.not_lt_zero _)
  | succ fuel ih =>
    intro run
    obtain ⟨common, -, ⟨broken, -⟩ | ⟨s1, p, q, descends, run⟩⟩ := unifyFrom_fails run
    · exact broken rfl
    have enters := descends.enters wf
    have less {v} (next : s.Points (s.root a) v ∨ s.Points (s.root b) v) : height v < fuel := by
      rcases next with step | step
      all_goals
        have := lower _ _ step
        omega
    have lessq := less enters.next'
    -- A new type points to nothing, so it has no height.
    refine @ih s1 p q (fun z => if z < s.nodes.size then height z else 0) enters.wellFormed ?_ ?_ ?_
      run
    · intro x y step
      have step := (enters.points x y).1 step
      rw [if_pos (step.lt wf), if_pos step.lt_left]
      exact lower x y step
    · rw [enters.root]
      rcases or_assoc.2 enters.next with next | new
      · have := less next
        split <;> omega
      · rw [wf.root_of_le new, if_neg (not_lt.2 new)]
        omega
    · rw [enters.root]
      split <;> omega

end

end Infer.TypeStore

namespace Infer

open TypeStore

variable {s : TypeStore} {t : TypeId} {height : Nat → Nat} {fuel : Nat}

lemma declaredText_ends (c : C.CType) (types : Types) :
    ∃ text types', (declared (C.typeText c)).run types = (.ok text, types') := by
  have known (m) : ∃ text m', (C.typeText c).run m = (.ok text, m') := by
    have got : (get : C.Typing C.TypeMap).run m = (.ok m, m) := rfl
    unfold C.typeText
    rw [run_bind_of_ok got]
    repeat' split
    all_goals exact ⟨_, _, rfl⟩
  obtain ⟨text, m, run⟩ := known (types.context.getD {})
  refine ⟨text, { types with context := types.context.map fun _ => m }, ?_⟩
  have got : (get : Inference Types).run types = (.ok types, types) := rfl
  unfold declared
  rw [run_bind_of_ok got, StateT.run, run]
  rfl

lemma typeTextFrom_ends (types : Types) (wf : types.store.WellFormed)
    (lower : ∀ x y, types.store.Points x y → height y < height x)
    (enough : height (types.store.root t) < fuel) :
    ∃ text types', (typeTextFrom fuel t).run types = (.ok text, types') := by
  induction fuel generalizing t with
  | zero => exact absurd enough (Nat.not_lt_zero _)
  | succ fuel ih =>
    have found : (known t).run types = (.ok (types.store.known t), types) := rfl
    have got : (get : Inference Types).run types = (.ok types, types) := rfl
    rw [typeTextFrom, run_bind_of_ok found, run_bind_of_ok got]
    split
    · exact ⟨_, _, rfl⟩
    · split
      · split
        case h_1 u target =>
          have less := lower _ _ ⟨wf.isRoot_root t, u, target, rfl⟩
          obtain ⟨text, types', run⟩ := @ih u (by omega)
          rw [run_bind_of_ok run]
          exact ⟨_, _, rfl⟩
        case h_2 c _ => exact declaredText_ends _ types
        case h_3 => exact ⟨_, _, rfl⟩
      · split <;> exact ⟨_, _, rfl⟩

/-- A store that is built by adding types and making types equal. Of the types that are compared
when types are made equal none points to the other. -/
inductive Built : TypeStore → Prop
  | empty :
    Built {}
  | add {s : TypeStore} {n : TypeNode} :
    Built s →
    n.parent = none →
    (∀ u, n.target = some (.type u) → u < s.nodes.size) →
    Built (s.add n).2
  | unify {s s' : TypeStore} {a b : TypeId} {verdict : Bool} :
    Built s →
    a < s.nodes.size →
    b < s.nodes.size →
    s.unify a b = .ok (verdict, s') →
    (verdict = true → s.Apart a b) →
    Built s'

lemma add_acyclic (wf : s.WellFormed) (acyclic : Acyclic s.Points) (fresh : n.parent = none)
    (known : ∀ u, n.target = some (.type u) → u < s.nodes.size) : Acyclic (s.add n).2.Points := by
  have wf' := add_wellFormed wf fresh known
  have step {x y} (h : (s.add n).2.Points x y) :
      s.Points x y ∨ x = s.nodes.size ∧ y < s.nodes.size := by
    obtain ⟨top, t, target, rfl⟩ := h
    rw [node_add] at target
    rw [root_add wf wf' fresh]
    split at target
    case isTrue same => exact .inr ⟨same, wf.root_lt (known t target)⟩
    case isFalse => exact .inl ⟨(isRoot_add fresh).1 top, t, target, rfl⟩
  -- All that the new type points to is older.
  have down : Acyclic (· > · : TypeId → TypeId → Prop) := by
    intro x loop
    rw [transGen_eq_self] at loop
    exact lt_irrefl x loop
  refine acyclic.union (· < s.nodes.size) down (fun x y h new => ?_) fun x y h lt => ?_
  · rcases step h with old | ⟨rfl, lt⟩
    · exact absurd old.lt_left new
    · exact lt
  · rcases step h with old | ⟨rfl, -⟩
    · exact ⟨old, old.lt wf⟩
    · exact absurd lt (lt_irrefl _)

/-- Types that are built like this do not point to themselves. -/
lemma Built.acyclic (h : Built s) : s.WellFormed ∧ Acyclic s.Points := by
  induction h with
  | empty =>
    refine ⟨⟨?_, ?_, ?_⟩, ?_⟩
    · intro t loop
      obtain ⟨p, parent, -⟩ := TransGen.head'_iff.1 loop
      exact absurd parent.lt (Nat.not_lt_zero t)
    · intro t p parent
      exact absurd parent.lt (Nat.not_lt_zero t)
    · intro t u target
      cases target
    · intro t loop
      obtain ⟨u, step, -⟩ := TransGen.head'_iff.1 loop
      exact absurd step.lt_left (Nat.not_lt_zero t)
  | add _ fresh known ih =>
    obtain ⟨wf, acyclic⟩ := ih
    exact ⟨add_wellFormed wf fresh known, add_acyclic wf acyclic fresh known⟩
  | @unify s s' a b verdict _ lta ltb run apart ih =>
    obtain ⟨wf, acyclic⟩ := ih
    cases verdict with
    | false =>
      obtain ⟨wf', grows⟩ := unifyFrom_extends wf run
      exact ⟨wf', grows.acyclic acyclic⟩
    | true => exact unifyFrom_acyclic run wf lta ltb acyclic (apart rfl)

/-- In such a store no type points to itself, every type has a text, and making two more types equal
comes to an end. -/
theorem built_acyclic (h : Built s) : Acyclic s.Points ∧
    (∀ types : Types, types.store = s → ∀ t, ∃ text types',
      (typeText t).run types = (.ok text, types')) ∧
    ∀ a b, s.unify a b ≠ .error .endless := by
  obtain ⟨wf, acyclic⟩ := h.acyclic
  obtain ⟨height, bound, lower⟩ := acyclic.height fun x y step => step.lt wf
  refine ⟨acyclic, ?_, ?_⟩
  · rintro types rfl t
    have got : (get : Inference Types).run types = (.ok types, types) := rfl
    rw [typeText, run_bind_of_ok got]
    exact typeTextFrom_ends types wf lower (Nat.lt_succ_of_le (bound _))
  · intro a b
    refine unifyFrom_ends wf lower ?_ ?_
    · exact (bound _).trans_lt (by omega)
    · exact (bound _).trans_lt (by omega)

def twoPointers : TypeStore where
  nodes := #[.any, .pointer (some (.type 0)), .signed 32, .pointer (some (.type 2))]

lemma twoPointers_built : Built twoPointers := by
  have first : Built (add {} .any).2 := .add .empty rfl (by simp [TypeNode.any])
  have second : Built ⟨#[.any, .pointer (some (.type 0))], 0⟩ :=
    .add first rfl (by simp [TypeNode.pointer, add])
  have third : Built ⟨#[.any, .pointer (some (.type 0)), .signed 32], 0⟩ :=
    .add second rfl (by simp [TypeNode.signed, TypeNode.integer, TypeNode.any])
  exact .add third rfl (by simp [TypeNode.pointer])

lemma twoPointers_points {x y : Nat} (h : twoPointers.Points x y) :
    (x = 1 ∨ x = 3) ∧ (y = 0 ∨ y = 2) := by
  have lt : x < 4 := h.lt_left
  obtain ⟨-, t, target, rfl⟩ := h
  have place : x = 0 ∨ x = 1 ∨ x = 2 ∨ x = 3 := by omega
  rcases place with rfl | rfl | rfl | rfl
  · cases target
  · cases target
    exact ⟨.inl rfl, .inl rfl⟩
  · cases target
  · cases target
    exact ⟨.inr rfl, .inr rfl⟩

lemma twoPointers_apart : twoPointers.Apart 1 3 := by
  -- The pointers are compared, and then what they lead to.
  have pair {x y} (compared : twoPointers.Compared 1 3 x y) :
      (x = 1 ∧ y = 3) ∨ (x = 0 ∧ y = 2) := by
    induction compared with
    | start => exact .inl ⟨rfl, rfl⟩
    | targets _ _ target target' ih =>
      rcases ih with ⟨rfl, rfl⟩ | ⟨rfl, rfl⟩
      · cases target
        cases target'
        exact .inr ⟨rfl, rfl⟩
      · cases target
  have ends {x y} (way : TransGen twoPointers.Points x y) :
      (x = 1 ∨ x = 3) ∧ (y = 0 ∨ y = 2) := by
    obtain ⟨z, first, -⟩ := TransGen.head'_iff.1 way
    obtain ⟨z', -, last⟩ := TransGen.tail'_iff.1 way
    exact ⟨(twoPointers_points first).1, (twoPointers_points last).2⟩
  intro x y compared _
  rcases pair compared with ⟨rfl, rfl⟩ | ⟨rfl, rfl⟩
  all_goals exact ⟨fun way => by simpa using ends way, fun way => by simpa using ends way⟩

theorem built_acyclic_twoPointers : ∃ s, twoPointers.unify 1 3 = .ok (true, s) ∧ Built s ∧
    s.root 0 = s.root 2 ∧ Acyclic s.Points ∧
      (∀ t, ∃ text types, (typeText t).run { store := s } = (.ok text, types)) ∧
      ∀ a b, s.unify a b ≠ .error .endless := by
  have built {s : TypeStore} (run : twoPointers.unify 1 3 = .ok (true, s)) : Built s :=
    .unify twoPointers_built (by decide) (by decide) run fun _ => twoPointers_apart
  have run : twoPointers.unify 1 3 = .ok (true, _) := rfl
  obtain ⟨acyclic, text, ends⟩ := built_acyclic (built run)
  exact ⟨_, run, built run, rfl, acyclic, text _ rfl, ends⟩

def withPointer (s : TypeStore) : TypeStore :=
  let (t, s) := s.add .any
  (s.add (.pointer (some (.type t)))).2

/-- A type can be made equal to a pointer to it. It has no text then, and it cannot be made equal to
another one like that. -/
theorem unify_closes_circle : ∃ s₁ s₂, (withPointer {}).unify 0 1 = .ok (true, s₁) ∧
    s₁.Points 0 0 ∧ (∃ types, (typeText 0).run { store := s₁ } = (.error .endless, types)) ∧
    (withPointer s₁).unify 2 3 = .ok (true, s₂) ∧ s₂.unify 0 2 = .error .endless := by
  refine ⟨_, _, rfl, ⟨rfl, 0, rfl, rfl⟩, ⟨_, rfl⟩, rfl, rfl⟩

end Infer

end Decompiler
