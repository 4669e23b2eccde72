import Decompiler.Proofs.Representatives

/-!
# The merges of a unification

A unification goes down along two chains of pointers and compares, and only on its way back it makes
representatives equal. So all that it does can be told by the representatives that the types had at
its start, whether or not some type leads back to itself.
-/

namespace Decompiler

open Relation List

namespace Acyclic

variable {α : Type} {R R' : α → α → Prop} {x y : α}

lemma addStep (h : Acyclic R) (apart : ¬ ReflTransGen R x y)
    (sub : ∀ a b, R' a b → R a b ∨ a = y ∧ b = x) : Acyclic R' := by
  -- A way takes the new step once at most, since it does not come back to the start of it.
  have way {a b : α} (ab : TransGen R' a b) :
      TransGen R a b ∨ ReflTransGen R a y ∧ ReflTransGen R x b := by
    induction ab with
    | single step =>
      rcases sub _ _ step with step | ⟨rfl, rfl⟩
      · exact .inl (.single step)
      · exact .inr ⟨.refl, .refl⟩
    | tail _ step ih =>
      rcases sub _ _ step with step | ⟨rfl, rfl⟩
      · exact ih.imp (·.tail step) fun ⟨first, last⟩ => ⟨first, last.tail step⟩
      · rcases ih with ih | ⟨-, last⟩
        · exact .inr ⟨ih.to_reflTransGen, .refl⟩
        · exact absurd last apart
  intro a loop
  rcases way loop with loop | ⟨first, last⟩
  · exact h a loop
  · exact apart (last.trans first)

lemma union (A : α → Prop) (h : Acyclic R) (h' : Acyclic P)
    (outside : ∀ a b, R' a b → ¬ A a → P a b) (inside : ∀ a b, R' a b → A a → R a b ∧ A b) :
    Acyclic R' := by
  have stays {a b : α} (ab : TransGen R' a b) (mem : A a) : TransGen R a b ∧ A b := by
    induction ab with
    | single step => exact (inside _ _ step mem).imp_left .single
    | tail _ step ih =>
      obtain ⟨ih, mem⟩ := ih
      exact (inside _ _ step mem).imp_left ih.tail
  have leaves {a b : α} (ab : TransGen R' a b) (out : ¬ A b) : TransGen P a b := by
    induction ab using TransGen.head_induction_on with
    | @single a step =>
      by_cases mem : A a
      · exact absurd (inside _ _ step mem).2 out
      · exact .single (outside _ _ step mem)
    | @head a c step rest ih =>
      by_cases mem : A a
      · exact absurd (stays (.head step rest) mem).2 out
      · exact .head (outside _ _ step mem) ih
  intro a loop
  by_cases mem : A a
  · exact h a (stays loop mem).1
  · exact h' a (leaves loop mem)

end Acyclic

namespace Infer.TypeStore

variable {s s0 s1 s2 s' : TypeStore} {a b p q t u x y z : TypeId} {common n : TypeNode}
  {verdict : Bool}

def Points (s : TypeStore) (x y : TypeId) : Prop :=
  s.IsRoot x ∧ ∃ t, (s.node x).target = some (.type t) ∧ s.root t = y

lemma Points.lt (wf : s.WellFormed) (h : s.Points x y) : y < s.nodes.size := by
  obtain ⟨-, t, target, rfl⟩ := h
  exact wf.root_lt (wf.target_lt target)

lemma Points.lt_left (h : s.Points x y) : x < s.nodes.size := by
  obtain ⟨-, t, target, -⟩ := h
  by_contra outside
  rw [node_of_le (Nat.le_of_not_lt outside)] at target
  cases target

structure Grows (s s' : TypeStore) : Prop where
  size : s.nodes.size ≤ s'.nodes.size
  root : ∀ t, s'.root t = s.root t
  isRoot : ∀ t, s'.IsRoot t ↔ s.IsRoot t
  contents : ∀ x < s.nodes.size, (s'.node x).contents = (s.node x).contents
  points : ∀ x y, s'.Points x y ↔ s.Points x y

namespace Grows

lemma node (h : Grows s s') (x : TypeId) (lt : x < s.nodes.size) (top : s.IsRoot x) :
    s'.node x = s.node x := by
  have contents := h.contents x lt
  rwa [top.contents, ((h.isRoot x).2 top).contents] at contents

lemma refl : Grows s s :=
  ⟨le_rfl, fun _ => rfl, fun _ => .rfl, fun _ _ => rfl, fun _ _ => .rfl⟩

lemma trans (h : Grows s s1) (h' : Grows s1 s2) : Grows s s2 where
  size := h.size.trans h'.size
  root t := (h'.root t).trans (h.root t)
  isRoot t := (h'.isRoot t).trans (h.isRoot t)
  contents x lt := (h'.contents x (lt.trans_le h.size)).trans (h.contents x lt)
  points x y := (h'.points x y).trans (h.points x y)

lemma acyclic (h : Grows s s') (acyclic : Acyclic s.Points) : Acyclic s'.Points :=
  acyclic.mono fun x y step => .single ((h.points x y).1 step)

lemma transGen (h : Grows s s') : TransGen s'.Points x y ↔ TransGen s.Points x y := by
  have same : s'.Points = s.Points := by
    funext x y
    exact propext (h.points x y)
  rw [same]

end Grows

lemma Alike.grows (h : Alike s s') : Grows s s' where
  size := h.size.ge
  root := h.root
  isRoot := h.isRoot
  contents x _ := h.contents x
  points x y := by simp only [Points, h.isRoot, h.target, h.root]

lemma settled_alike (wf : s.WellFormed) (a b : TypeId) :
    (s.settled a b).WellFormed ∧ Alike s (s.settled a b) := by
  obtain ⟨wf1, alike1⟩ := compress_alike wf a
  obtain ⟨wf2, alike2⟩ := compress_alike wf1 b
  exact ⟨wf2, alike1.trans alike2⟩

lemma Grows.known (h : Grows s s') (wf : s.WellFormed) (lt : t < s.nodes.size) :
    s'.known t = s.known t := by
  rw [TypeStore.known, h.root]
  exact h.node _ (wf.root_lt lt) (wf.isRoot_root t)

structure Extends (s s' : TypeStore) : Prop extends Grows s s' where
  fresh : ∀ x, s.nodes.size ≤ x → x < s'.nodes.size → ∃ c, s'.node x = .pointer (some (.declared c))

lemma Extends.trans (h : Extends s s1) (h' : Extends s1 s') : Extends s s' where
  toGrows := h.toGrows.trans h'.toGrows
  fresh x le lt := by
    by_cases new : s1.nodes.size ≤ x
    · exact h'.fresh x new lt
    · obtain ⟨c, node⟩ := h.fresh x le (Nat.lt_of_not_le new)
      have top : s1.IsRoot x := by rw [IsRoot, node]; rfl
      exact ⟨c, (h'.node x (Nat.lt_of_not_le new) top).trans node⟩

lemma Alike.extends (h : Alike s s') : Extends s s' where
  toGrows := h.grows
  fresh _ le lt := absurd lt (not_lt.2 (h.size ▸ le))

lemma add_extends (wf : s.WellFormed) (c : C.CType) :
    (s.add (.pointer (some (.declared c)))).2.WellFormed ∧
      Extends s (s.add (.pointer (some (.declared c)))).2 := by
  have wf' : (s.add (.pointer (some (.declared c)))).2.WellFormed :=
    add_wellFormed wf rfl (by simp [TypeNode.pointer])
  refine ⟨wf', ⟨?_, fun t => root_add wf wf' rfl, fun t => isRoot_add rfl, ?_, ?_⟩, ?_⟩
  · rw [size_add]
    exact Nat.le_succ _
  · intro x lt
    rw [node_add, if_neg lt.ne]
  · intro x y
    simp only [Points, isRoot_add (n := .pointer (some (.declared c))) rfl, node_add,
      root_add wf wf' rfl]
    split
    case isTrue same =>
      subst same
      simp [node_of_le, TypeNode.pointer, TypeNode.any]
    case isFalse => rfl
  · intro x le lt
    rw [size_add] at lt
    exact ⟨c, by rw [node_add, if_pos (le_antisymm (Nat.le_of_lt_succ lt) le)]⟩

structure Enters (s : TypeStore) (a b : TypeId) (s1 : TypeStore) (p q : TypeId) : Prop
    extends Extends s s1 where
  wellFormed : s1.WellFormed
  ltp : p < s1.nodes.size
  ltq : q < s1.nodes.size
  next : s.Points (s.root a) (s.root p) ∨ s.Points (s.root b) (s.root p) ∨ s.nodes.size ≤ p
  next' : s.Points (s.root a) (s.root q) ∨ s.Points (s.root b) (s.root q)

lemma Descends.enters (wf : s.WellFormed)
    (h : Descends (s.settled a b) (s.target? a) (s.target? b) s1 p q) : Enters s a b s1 p q := by
  obtain ⟨wf0, alike⟩ := settled_alike wf a b
  have points {z t} (target : s.target? z = some (.type t)) : s.Points (s.root z) (s.root t) :=
    ⟨wf.isRoot_root z, t, target, rfl⟩
  have lt {z t} (target : s.target? z = some (.type t)) : t < (s.settled a b).nodes.size :=
    alike.size.symm ▸ wf.target_lt target
  generalize left : s.target? a = v, right : s.target? b = w at h
  cases h with
  | types =>
    exact ⟨alike.extends, wf0, lt left, lt right, .inl (points left), .inr (points right)⟩
  | @declaredRight _ _ c =>
    obtain ⟨wf1, extended⟩ := add_extends wf0 c
    exact ⟨alike.extends.trans extended, wf1, size_add ▸ Nat.lt_succ_self _,
      (lt left).trans_le extended.size, .inr (.inr alike.size.ge), .inl (points left)⟩
  | @declaredLeft _ c _ =>
    obtain ⟨wf1, extended⟩ := add_extends wf0 c
    exact ⟨alike.extends.trans extended, wf1, size_add ▸ Nat.lt_succ_self _,
      (lt right).trans_le extended.size, .inr (.inr alike.size.ge), .inr (points right)⟩

/-- A unification that fails merges nothing. -/
lemma unifyFrom_extends (wf : s.WellFormed) (run : unifyFrom fuel s a b = .ok (false, s')) :
    s'.WellFormed ∧ Extends s s' := by
  induction fuel generalizing s a b s' with
  | zero => cases run
  | succ fuel ih =>
    obtain ⟨wf0, alike⟩ := settled_alike wf a b
    generalize hv : false = verdict at run
    cases unifyFrom_returns run with
    | same _ => cases hv
    | unlike _ _ => exact ⟨wf0, alike.extends⟩
    | flat _ _ _ =>
      subst hv
      exact ⟨wf0, alike.extends⟩
    | deep _ _ descends nested =>
      subst hv
      have enters := descends.enters wf
      obtain ⟨wf', extended⟩ := ih enters.wellFormed nested
      exact ⟨wf', enters.toExtends.trans extended⟩

structure Merge where
  left : TypeId
  right : TypeId
  common : TypeNode

variable {m : Merge} {ms : List Merge}

def mergeAll (s : TypeStore) : List Merge → TypeStore
  | [] => s
  | m :: ms => (s.mergeAll ms).link (s.root m.left) (s.root m.right) m.common

/-- The types that two types point to. For a declared pointer that is a type which is none of the old
ones. -/
inductive Behind (s : TypeStore) (old : Nat) (a b : TypeId) : Nat → TypeId → TypeId → Prop
  | types {t u : TypeId} :
    s.target? a = some (.type t) →
    s.target? b = some (.type u) →
    Behind s old a b old t u
  | declaredRight {t : TypeId} {quals : List String} {c : C.CType} :
    s.target? a = some (.type t) →
    s.target? b = some (.declared (.pointer quals c)) →
    s.node old = .pointer (some (.declared c)) →
    Behind s old a b (old + 1) old t
  | declaredLeft {t : TypeId} {quals : List String} {c : C.CType} :
    s.target? a = some (.declared (.pointer quals c)) →
    s.target? b = some (.type t) →
    s.node old = .pointer (some (.declared c)) →
    Behind s old a b (old + 1) old t

/-- The pairs of types that have to be made equal so that two types are equal: these, and then what
they point to. -/
inductive Chain (s : TypeStore) : Nat → TypeId → TypeId → List Merge → Prop
  | same {old : Nat} {a b : TypeId} :
    s.root a = s.root b →
    Chain s old a b []
  | flat {old : Nat} {a b : TypeId} {common : TypeNode} :
    s.root a ≠ s.root b →
    s.common? a b = some common →
    verdict? (s.target? a) (s.target? b) = some true →
    Chain s old a b [⟨a, b, common⟩]
  | deep {old new : Nat} {a b p q : TypeId} {common : TypeNode} {ms : List Merge} :
    s.root a ≠ s.root b →
    s.common? a b = some common →
    Behind s old a b new p q →
    Chain s new p q ms →
    Chain s old a b (⟨a, b, common⟩ :: ms)

/-- A call that is made while two types are made equal: the first one, or one for what the types of
such a call point to. -/
inductive Calls : Nat → TypeStore → TypeId → TypeId → Nat → TypeStore → TypeId → TypeId → Prop
  | self {fuel : Nat} {s : TypeStore} {a b : TypeId} :
    Calls fuel s a b fuel s a b
  | targets {fuel fuel' : Nat} {s s1 s' : TypeStore} {a b p q c d : TypeId} {common : TypeNode} :
    s.root a ≠ s.root b →
    ((s.settled a b).node (s.root a)).meet? ((s.settled a b).node (s.root b)) = some common →
    Descends (s.settled a b) ((s.settled a b).node (s.root a)).target
      ((s.settled a b).node (s.root b)).target s1 p q →
    Calls fuel s1 p q fuel' s' c d →
    Calls (fuel + 1) s a b fuel' s' c d

lemma Descends.verdict?_eq_none (h : Descends s v w s1 p q) : verdict? v w = none := by
  cases h with
  | types | declaredRight | declaredLeft => rfl

lemma Descends.unique {v w s2 p' q'} (h : Descends s v w s1 p q) (h' : Descends s v w s2 p' q') :
    s1 = s2 ∧ p = p' ∧ q = q' := by
  cases h with
  | types | declaredRight | declaredLeft =>
    cases h'
    exact ⟨rfl, rfl, rfl⟩

lemma Calls.verdict_eq (h : Calls fuel s a b fuel' s1 c d)
    (run : unifyFrom fuel s a b = .ok (verdict, s2)) :
    ∃ s3, unifyFrom fuel' s1 c d = .ok (verdict, s3) := by
  induction h generalizing s2 with
  | self => exact ⟨s2, run⟩
  | targets ne meet descends _ ih =>
    rw [common?_settled] at meet
    rw [target?_settled, target?_settled] at descends
    cases unifyFrom_returns run with
    | same same => exact absurd same ne
    | unlike _ meet' => cases meet.symm.trans meet'
    | flat _ _ flat => cases descends.verdict?_eq_none.symm.trans flat
    | deep _ _ descends' nested =>
      obtain ⟨rfl, rfl, rfl⟩ := descends.unique descends'
      exact ih nested

structure Answers (fuel : Nat) (s : TypeStore) (a b : TypeId) (s0 : TypeStore) (ms : List Merge) :
    Prop where
  merged : ∀ {fuel' s1 c d}, Calls fuel s a b fuel' s1 c d →
    s0.root c = s0.root d ∨ ∃ m ∈ ms, m.left = c ∧ m.right = d
  called : ∀ m ∈ ms, ∃ fuel' s1, Calls fuel s a b fuel' s1 m.left m.right

lemma Descends.behind (size : s2.nodes.size = old)
    (h : Descends s2 (s0.target? a) (s0.target? b) s1 p q) (grows : Grows s1 s0) :
    Behind s0 old a b s1.nodes.size p q := by
  have fresh {n} (top : n.parent = none) (grows : Grows (s2.add n).2 s0) :
      s0.node s2.nodes.size = n := by
    have new : (s2.add n).2.node s2.nodes.size = n := by rw [node_add, if_pos rfl]
    rw [grows.node _ (by rw [size_add]; exact Nat.lt_succ_self _) (by rw [IsRoot, new, top]), new]
  subst size
  generalize left : s0.target? a = v, right : s0.target? b = w at h
  cases h with
  | types => exact .types left right
  | declaredRight =>
    rw [size_add]
    exact .declaredRight left right (fresh rfl grows)
  | declaredLeft =>
    rw [size_add]
    exact .declaredLeft left right (fresh rfl grows)

/-- A unification that succeeds merges a chain of pairs, all at its end. -/
lemma unifyFrom_merges (wf : s.WellFormed) (lta : a < s.nodes.size) (ltb : b < s.nodes.size)
    (run : unifyFrom fuel s a b = .ok (true, s')) :
    ∃ s0 ms, s0.WellFormed ∧ Extends s s0 ∧ Chain s0 s.nodes.size a b ms ∧
      s' = s0.mergeAll ms ∧ Answers fuel s a b s0 ms := by
  induction fuel generalizing s a b s' with
  | zero => cases run
  | succ fuel ih =>
    obtain ⟨wf0, alike⟩ := settled_alike wf a b
    generalize hv : true = verdict at run
    cases unifyFrom_returns run with
    | same same =>
      have same' : (s.settled a b).root a = (s.settled a b).root b := by
        rw [alike.root, alike.root, same]
      refine ⟨s.settled a b, [], wf0, alike.extends, .same same', rfl, ?_, forall_mem_nil _⟩
      intro _ _ c d call
      cases call with
      | self => exact .inl same'
      | targets ne _ _ _ => exact absurd same ne
    | unlike _ _ => cases hv
    | @flat common _ ne meet flat =>
      subst hv
      have known {t} (lt) := alike.grows.known (t := t) wf lt
      refine ⟨s.settled a b, [⟨a, b, common⟩], wf0, alike.extends, .flat ?_ ?_ ?_, ?_, ?_, ?_⟩
      · rwa [alike.root, alike.root]
      · rwa [common?, known lta, known ltb]
      · rwa [target?, target?, known lta, known ltb]
      · rw [linkIf, if_pos rfl, mergeAll, mergeAll, alike.root, alike.root]
      · intro _ _ c d call
        cases call with
        | self => exact .inr ⟨_, .head _, rfl, rfl⟩
        | targets _ _ descends _ =>
          rw [target?_settled, target?_settled] at descends
          cases descends.verdict?_eq_none.symm.trans flat
      · exact forall_mem_singleton.2 ⟨_, _, .self⟩
    | @deep s1 s2 p q common _ ne meet descends nested =>
      subst hv
      -- The types behind the two are made equal before them, so their merge comes last.
      have enters := descends.enters wf
      obtain ⟨s0, ms, wf', grows, chain, rfl, answers⟩ :=
        ih enters.wellFormed enters.ltp enters.ltq nested
      have grows' := enters.toExtends.trans grows
      have known {t} (lt) := grows'.known (t := t) wf lt
      refine ⟨s0, ⟨a, b, common⟩ :: ms, wf', grows', .deep ?_ ?_ ?_ chain, ?_, ?_, ?_⟩
      · rwa [grows'.root, grows'.root]
      · rwa [common?, known lta, known ltb]
      · refine Descends.behind alike.size ?_ grows.toGrows
        rwa [target?, target?, known lta, known ltb]
      · rw [linkIf, if_pos rfl, mergeAll, grows'.root, grows'.root]
      · intro _ _ c d call
        cases call with
        | self => exact .inr ⟨_, .head _, rfl, rfl⟩
        | targets _ _ descends' call =>
          rw [target?_settled, target?_settled] at descends'
          obtain ⟨rfl, rfl, rfl⟩ := descends.unique descends'
          rcases answers.merged call with same | ⟨m, mem, same⟩
          · exact .inl same
          · exact .inr ⟨m, .tail _ mem, same⟩
      · refine forall_mem_cons.2 ⟨⟨_, _, .self⟩, fun m mem => ?_⟩
        obtain ⟨fuel', s3, call⟩ := answers.called m mem
        rw [← common?_settled] at meet
        rw [← target?_settled, ← target?_settled] at descends
        exact ⟨fuel', s3, .targets ne meet descends call⟩

section

def next? (s : TypeStore) (x : TypeId) : Option TypeId :=
  match (s.node x).target with
  | some (.type t) => some (s.root t)
  | _ => none

lemma next?_of_type (h : s.target? a = some (.type t)) : s.next? (s.root a) = some (s.root t) := by
  rw [target?, known] at h
  rw [next?, h]

lemma next?_of_declared (h : (s.node x).target = some (.declared c)) : s.next? x = none := by
  rw [next?, h]

lemma points_of_next? (top : s.IsRoot x) (h : s.next? x = some y) : s.Points x y := by
  unfold next? at h
  split at h
  case h_1 t target =>
    cases h
    exact ⟨top, t, target, rfl⟩
  case h_2 => cases h

def after (s : TypeStore) : Nat → TypeId → Option TypeId
  | 0, x => some x
  | k + 1, x => (s.next? x).bind (s.after k)

lemma after_succ (k : Nat) (x : TypeId) : s.after (k + 1) x = (s.after k x).bind s.next? := by
  induction k generalizing x with
  | zero => cases h : s.next? x <;> simp [after, h]
  | succ k ih =>
    rw [after]
    cases h : s.next? x with
    | none => simp [after, h]
    | some y =>
      rw [Option.bind_some, ih]
      simp [after, h]

lemma after_of_next? (h : s.next? x = some y) : s.after (k + 1) x = s.after k y := by
  rw [after, h, Option.bind_some]

def Merged (s : TypeStore) (ms : List Merge) (v w : TypeId) : Prop :=
  ∃ m ∈ ms, s.root m.right = v ∧ s.root m.left = w

lemma Merged.cons (h : s.Merged (m :: ms) v w) :
    s.Merged ms v w ∨ v = s.root m.right ∧ w = s.root m.left := by
  obtain ⟨m', mem, rfl, rfl⟩ := h
  rcases mem_cons.1 mem with rfl | mem
  · exact .inr ⟨rfl, rfl⟩
  · exact .inl ⟨m', mem, rfl, rfl⟩

/-- How two chains of pointers end that are followed side by side: they meet, or one of them ends
first. In each case the pairs of representatives along them have something in common. -/
inductive Course (s : TypeStore) (old : Nat) (x y : TypeId) (ms : List Merge) : Prop
  | meet (k : Nat) :
    s.after k x = s.after k y →
    (∀ j < k, s.after j x ≠ s.after j y) →
    (∀ m ∈ ms, s.after k (s.root m.left) = s.after k (s.root m.right)) →
    Course s old x y ms
  | leftEnd (k : Nat) :
    s.after k x ≠ none →
    s.after k y ≠ none →
    s.after (k + 1) x = none →
    (∀ m ∈ ms, s.after (k + 1) (s.root m.left) = none) →
    Course s old x y ms
  | rightEnd (k : Nat) :
    s.after k x ≠ none →
    s.after k y ≠ none →
    s.after (k + 1) y = none →
    (∀ m ∈ ms, old ≤ s.root m.left ∨ s.after (k + 1) (s.root m.right) = none) →
    Course s old x y ms

lemma after_none_succ (h : s.after k x = none) : s.after (k + 1) x = none := by
  rw [after_succ, h, Option.bind_none]

lemma Course.cons (course : Course s old (s.root t) (s.root u) ms)
    (ne : s.root a ≠ s.root b) (left : s.next? (s.root a) = some (s.root t))
    (right : s.next? (s.root b) = some (s.root u)) :
    Course s old (s.root a) (s.root b) (⟨a, b, common⟩ :: ms) := by
  cases course with
  | meet k same first along =>
    refine .meet (k + 1) ?_ ?_ ?_
    · rw [after_of_next? left, after_of_next? right, same]
    · intro j lt
      cases j with
      | zero => simpa [after] using ne
      | succ j =>
        rw [after_of_next? left, after_of_next? right]
        exact first j (Nat.lt_of_succ_lt_succ lt)
    · refine forall_mem_cons.2 ⟨?_, fun m mem => ?_⟩
      · rw [after_of_next? left, after_of_next? right, same]
      · rw [after_succ, after_succ, along m mem]
  | leftEnd k long long' short along =>
    rw [← after_of_next? left] at long short
    rw [← after_of_next? right] at long'
    exact .leftEnd (k + 1) long long' short
      (forall_mem_cons.2 ⟨short, fun m mem => after_none_succ (along m mem)⟩)
  | rightEnd k long long' short along =>
    rw [← after_of_next? left] at long
    rw [← after_of_next? right] at long' short
    exact .rightEnd (k + 1) long long' short
      (forall_mem_cons.2 ⟨.inr short, fun m mem => (along m mem).imp_right after_none_succ⟩)

lemma Course.apart (course : Course s old (s.root t) (s.root u) ms)
    (below : ∀ m ∈ ms, s.root m.right < old) (lt : y < old) (ne : x ≠ y)
    (left : s.next? x = some (s.root t)) (right : s.next? y = some (s.root u)) :
    ¬ ReflTransGen (s.Merged ms) x y := by
  intro way
  cases course with
  | meet k same first along =>
    -- Every step keeps what is reached by `k` pointers, but `x` and `y` differ in that.
    have kept {z} (way : ReflTransGen (s.Merged ms) x z) : s.after k x = s.after k z := by
      induction way with
      | refl => rfl
      | tail _ step ih =>
        obtain ⟨m, mem, rfl, rfl⟩ := step
        rw [ih, along m mem]
    cases k with
    | zero => exact ne (Option.some.inj (kept way))
    | succ k =>
      have same := kept way
      rw [after_of_next? left, after_of_next? right] at same
      exact first k (Nat.lt_succ_self k) same
  | leftEnd k long long' short along =>
    rcases way.cases_tail with same | ⟨z, -, m, mem, -, same⟩
    · exact ne same.symm
    · have short := along m mem
      rw [same, after_of_next? right] at short
      exact long' short
  | rightEnd k long long' short along =>
    rcases way.cases_head with same | ⟨z, ⟨m, mem, same, rfl⟩, way⟩
    · exact ne same
    · rcases along m mem with new | short
      · -- A new type is no representative that gets a parent.
        rcases way.cases_head with same | ⟨z, ⟨m', mem', same', -⟩, -⟩
        · exact absurd lt (not_lt.2 (same ▸ new))
        · exact absurd (below m' mem') (not_lt.2 (same' ▸ new))
      · rw [same, after_of_next? left] at short
        exact long short

lemma next?_of_verdict (h : verdict? (s.target? a) (s.target? b) = some verdict) :
    s.next? (s.root a) = none ∨ s.next? (s.root b) = none := by
  unfold next?
  split
  case h_1 t left =>
    split
    case h_1 u right =>
      rw [target?, target?, known, known, left, right] at h
      cases h
    case h_2 => exact .inr rfl
  case h_2 => exact .inl rfl

lemma apart_of_new (new : ∀ m ∈ ms, old ≤ s.root m.left) (lt : y < old) (ne : x ≠ y) :
    ¬ ReflTransGen (s.Merged ms) x y := by
  intro way
  rcases way.cases_tail with same | ⟨z, -, m, mem, -, rfl⟩
  · exact ne same.symm
  · exact absurd lt (not_lt.2 (new m mem))

lemma acyclic_merged_nil : Acyclic (s.Merged []) := by
  intro x loop
  obtain ⟨y, ⟨m, mem, -⟩, -⟩ := TransGen.head'_iff.1 loop
  cases mem

lemma acyclic_merged (ne : s.root a ≠ s.root b) : Acyclic (s.Merged [⟨a, b, common⟩]) :=
  acyclic_merged_nil.addStep (apart_of_new (forall_mem_nil _) (Nat.lt_succ_self _) ne)
    fun _ _ step => step.cons

/-- The types of a store in which all that points or is pointed to is older than some type. -/
structure Bounded (s : TypeStore) (old : Nat) : Prop extends WellFormed s where
  within : ∀ {x y}, s.Points x y → x < old ∧ y < old

lemma Extends.bounded (h : Extends s s0) (wf : s.WellFormed) (wf0 : s0.WellFormed) :
    s0.Bounded s.nodes.size where
  toWellFormed := wf0
  within step := by
    have step := (h.points _ _).1 step
    exact ⟨step.lt_left, step.lt wf⟩

structure Placed (s : TypeStore) (old : Nat) (a b : TypeId) : Prop where
  left : a < s.nodes.size
  right : b < s.nodes.size
  rootLeft : s.root a < old
  rootRight : s.root b < old

lemma Extends.placed (h : Extends s s0) (wf : s.WellFormed) (lta : a < s.nodes.size)
    (ltb : b < s.nodes.size) : s0.Placed s.nodes.size a b where
  left := lta.trans_le h.size
  right := ltb.trans_le h.size
  rootLeft := h.root a ▸ wf.root_lt lta
  rootRight := h.root b ▸ wf.root_lt ltb

lemma root_of_fresh (wf : s.WellFormed) (h : s.node p = .pointer (some (.declared c))) :
    s.root p = p ∧ s.target? p = some (.declared c) := by
  have same : s.root p = p := wf.root_of_isRoot (by rw [IsRoot, h]; rfl)
  exact ⟨same, by rw [target?, known, same, h]; rfl⟩

variable (ok : s.Bounded old)

include ok

lemma next?_of_new (top : s.IsRoot x) (new : old ≤ x) : s.next? x = none := by
  cases h : s.next? x with
  | none => rfl
  | some y => exact absurd (ok.within (points_of_next? top h)).1 (Nat.not_lt.2 new)

lemma Behind.bounded (h : Behind s old a b new p q) : s.Bounded new := by
  cases h with
  | types _ _ => exact ok
  | declaredRight _ _ _ | declaredLeft _ _ _ =>
    exact ⟨ok.toWellFormed, fun step => (ok.within step).imp Nat.lt_succ_of_lt Nat.lt_succ_of_lt⟩

omit ok in
lemma Behind.root_lt (h : Behind s new a b new' p q) (ok : s.Bounded old) : s.root q < old := by
  have older {z t} (target : s.target? z = some (.type t)) : s.root t < old :=
    (ok.within ⟨ok.isRoot_root z, t, target, rfl⟩).2
  cases h with
  | types _ onward | declaredRight onward _ _ | declaredLeft _ onward _ => exact older onward

lemma Behind.placed (h : Behind s old a b new p q) : s.Placed new p q := by
  have fresh {c} (node : s.node old = .pointer (some (.declared c))) :
      old < s.nodes.size ∧ s.root old < old + 1 := by
    refine ⟨?_, (root_of_fresh ok.toWellFormed node).1.trans_lt (Nat.lt_succ_self _)⟩
    by_contra outside
    rw [node_of_le (Nat.le_of_not_lt outside)] at node
    cases node
  have older := h.root_lt ok
  cases h with
  | types left right =>
    exact ⟨ok.target_lt left, ok.target_lt right,
      (ok.within ⟨ok.isRoot_root a, _, left, rfl⟩).2, older⟩
  | declaredRight onward _ node | declaredLeft _ onward node =>
    exact ⟨(fresh node).1, ok.target_lt onward, (fresh node).2, Nat.lt_succ_of_lt older⟩

omit ok in
lemma Chain.right_lt (h : Chain s new a b ms) (ok : s.Bounded old) (lt : s.root b < old) :
    ∀ m ∈ ms, s.root m.right < old := by
  induction h with
  | same _ => exact forall_mem_nil _
  | flat _ _ _ => exact forall_mem_singleton.2 lt
  | deep _ _ behind _ ih => exact forall_mem_cons.2 ⟨lt, ih (behind.root_lt ok)⟩

lemma Chain.left_new (h : Chain s new p q ms) (le : old ≤ p) (lt : p < new)
    (node : s.node p = .pointer (some (.declared c))) : ∀ m ∈ ms, old ≤ s.root m.left := by
  induction h generalizing c with
  | same _ => exact forall_mem_nil _
  | flat _ _ _ =>
    rw [← (root_of_fresh ok.toWellFormed node).1] at le
    exact forall_mem_singleton.2 le
  | deep _ _ behind _ ih =>
    obtain ⟨same, target⟩ := root_of_fresh ok.toWellFormed node
    cases behind with
    | types left _ | declaredRight left _ _ => cases left.symm.trans target
    | declaredLeft _ _ node' =>
      exact forall_mem_cons.2 ⟨same.symm ▸ le, ih (le.trans lt.le) (Nat.lt_succ_self _) node'⟩

omit ok in
/-- The merges of a chain do not lead in a circle. -/
lemma Chain.forest (h : Chain s old a b ms) (ok : s.Bounded old) (lt : s.root b < old) :
    Course s old (s.root a) (s.root b) ms ∧ Acyclic (s.Merged ms) := by
  -- The course of the two pointers goes along in the induction: it is what keeps the step that each
  -- merge adds from closing a circle.
  induction h with
  | same same =>
    exact ⟨.meet 0 (by rw [same]) nofun (forall_mem_nil _), acyclic_merged_nil⟩
  | @flat old a b common ne _ verdict =>
    refine ⟨?_, acyclic_merged ne⟩
    rcases next?_of_verdict verdict with short | short
    · exact .leftEnd 0 (by simp [after]) (by simp [after]) (by simp [after, short])
        (by simp [after, short])
    · exact .rightEnd 0 (by simp [after]) (by simp [after]) (by simp [after, short])
        (by simp [after, short])
  | @deep old new a b p q common ms ne _ behind chain ih =>
    obtain ⟨course, acyclic⟩ := ih (behind.bounded ok) (behind.placed ok).rootRight
    have ltq := behind.root_lt ok
    have fresh {c} (node : s.node old = .pointer (some (.declared c)))
        (chain : Chain s (old + 1) old q ms) := chain.left_new ok le_rfl (Nat.lt_succ_self _) node
    cases behind with
    | types left right =>
      have apart := course.apart (chain.right_lt ok ltq) lt ne (next?_of_type left)
        (next?_of_type right)
      exact ⟨course.cons ne (next?_of_type left) (next?_of_type right),
        acyclic.addStep apart fun v w step => step.cons⟩
    | declaredRight left right node =>
      have short : s.next? (s.root b) = none := next?_of_declared right
      refine ⟨?_, acyclic.addStep (apart_of_new (fresh node chain) lt ne) fun v w step => step.cons⟩
      exact .rightEnd 0 (by simp [after]) (by simp [after]) (by simp [after, short])
        (forall_mem_cons.2 ⟨.inr (by simp [after, short]), fun m mem => .inl (fresh node chain m mem)⟩)
    | declaredLeft left right node =>
      have short : s.next? (s.root a) = none := next?_of_declared left
      refine ⟨?_, acyclic.addStep (apart_of_new (fresh node chain) lt ne) fun v w step => step.cons⟩
      refine .leftEnd 0 (by simp [after]) (by simp [after]) (by simp [after, short])
        (forall_mem_cons.2 ⟨by simp [after, short], fun m mem => ?_⟩)
      simp [after, next?_of_new ok (ok.isRoot_root _) (fresh node chain m mem)]

end

def Mergeable (s : TypeStore) (ms : List Merge) : Prop :=
  ∀ m ∈ ms, s.root m.left < s.nodes.size ∧ s.root m.right < s.nodes.size ∧
    s.root m.left ≠ s.root m.right ∧ s.common? m.left m.right = some m.common

lemma Mergeable.tail (h : s.Mergeable (m :: ms)) : s.Mergeable ms :=
  fun m' mem => h m' (.tail _ mem)

lemma size_mergeAll : (s.mergeAll ms).nodes.size = s.nodes.size := by
  induction ms with
  | nil => rfl
  | cons m ms ih => rw [mergeAll, size_link, ih]

lemma Chain.mergeable (h : Chain s old a b ms) (ok : s.Bounded old) (placed : s.Placed old a b) :
    s.Mergeable ms := by
  induction h with
  | same _ => exact forall_mem_nil _
  | flat ne meet _ =>
    exact forall_mem_singleton.2 ⟨ok.root_lt placed.left, ok.root_lt placed.right, ne, meet⟩
  | deep ne meet behind _ ih =>
    exact forall_mem_cons.2 ⟨⟨ok.root_lt placed.left, ok.root_lt placed.right, ne, meet⟩,
      ih (behind.bounded ok) (behind.placed ok)⟩

lemma parent_mergeAll (wf : s.WellFormed) (h : s.Mergeable ms)
    (parent : (s.mergeAll ms).Parent v w) :
    (s.IsRoot v ∧ s.Merged ms v w) ∨ ¬ s.IsRoot v ∧ s.Parent v w := by
  induction ms with
  | nil =>
    refine .inr ⟨fun top => ?_, parent⟩
    cases top.symm.trans parent
  | cons m ms ih =>
    obtain ⟨ltx, lty, ne, -⟩ := h m (.head _)
    rw [mergeAll, parent_link (by rwa [size_mergeAll]) (by rwa [size_mergeAll]) ne] at parent
    split at parent
    case isTrue same =>
      subst same parent
      exact .inl ⟨wf.isRoot_root _, m, .head _, rfl, rfl⟩
    case isFalse =>
      rcases ih h.tail parent with ⟨top, m', mem, same⟩ | old
      · exact .inl ⟨top, m', .tail _ mem, same⟩
      · exact .inr old

lemma contents_mergeAll (h : s.Mergeable ms) (v : TypeId) :
    ((s.mergeAll ms).node v).contents = (s.node v).contents ∨
      ∃ m ∈ ms, s.root m.left = v ∧ ((s.mergeAll ms).node v).contents = m.common.contents := by
  induction ms with
  | nil => exact .inl rfl
  | cons m ms ih =>
    obtain ⟨ltx, lty, ne, -⟩ := h m (.head _)
    rw [mergeAll, node_link (by rwa [size_mergeAll]) (by rwa [size_mergeAll]) ne]
    have before : ((s.mergeAll ms).node v).contents = (s.node v).contents ∨ ∃ m' ∈ m :: ms,
        s.root m'.left = v ∧ ((s.mergeAll ms).node v).contents = m'.common.contents := by
      rcases ih h.tail with same | ⟨m', mem, same⟩
      · exact .inl same
      · exact .inr ⟨m', .tail _ mem, same⟩
    split
    · exact before
    · split
      case isTrue same => exact .inr ⟨m, .head _, same.symm, rfl⟩
      case isFalse => exact before

lemma link_target_lt (wf : s.WellFormed)
    (target : common.target = ((s.node x).target <|> (s.node y).target))
    (h : common.target = some (.type u)) : u < s.nodes.size := by
  rw [target] at h
  cases e : (s.node x).target with
  | none =>
    rw [e] at h
    exact wf.target_lt h
  | some v =>
    rw [e] at h
    cases h
    exact wf.target_lt e

/-- Merges that do not lead in a circle keep a store well-formed. -/
lemma mergeAll_wellFormed (wf : s.WellFormed) (h : s.Mergeable ms)
    (forest : Acyclic (s.Merged ms)) : (s.mergeAll ms).WellFormed := by
  constructor
  · refine forest.union s.IsRoot wf.acyclic ?_ ?_
    · intro v w parent top
      rcases parent_mergeAll wf h parent with ⟨top', -⟩ | ⟨-, parent⟩
      · exact absurd top' top
      · exact parent
    · intro v w parent top
      rcases parent_mergeAll wf h parent with ⟨-, m, mem, same, rfl⟩ | ⟨top', -⟩
      · exact ⟨⟨m, mem, same, rfl⟩, wf.isRoot_root _⟩
      · exact absurd top top'
  · intro v w parent
    rw [size_mergeAll]
    rcases parent_mergeAll wf h parent with ⟨-, m, mem, -, rfl⟩ | ⟨-, parent⟩
    · exact (h m mem).1
    · exact wf.parent_lt parent
  · intro v u target
    rw [size_mergeAll]
    rcases contents_mergeAll h v with same | ⟨m, mem, -, same⟩
    · exact wf.target_lt ((congrArg TypeNode.target same).symm.trans target)
    · exact link_target_lt wf (TypeNode.meets_of_meet? (h m mem).2.2.2).target
        ((congrArg TypeNode.target same).symm.trans target)

lemma link_wellFormed (wf : s.WellFormed) (lta : a < s.nodes.size) (ltb : b < s.nodes.size)
    (ne : s.root a ≠ s.root b) (meet : s.common? a b = some common) :
    (s.link (s.root a) (s.root b) common).WellFormed := by
  have only : s.Mergeable [⟨a, b, common⟩] :=
    forall_mem_singleton.2 ⟨wf.root_lt lta, wf.root_lt ltb, ne, meet⟩
  exact mergeAll_wellFormed wf only (acyclic_merged ne)

lemma Chain.wellFormed (h : Chain s old a b ms) (ok : s.Bounded old) (placed : s.Placed old a b) :
    (s.mergeAll ms).WellFormed :=
  mergeAll_wellFormed ok.toWellFormed (h.mergeable ok placed) (h.forest ok placed.rootRight).2

section

variable (wf : s.WellFormed) (h : s.Mergeable ms)

include wf h

lemma parent_mergeAll_of_parent (parent : s.Parent v w) : (s.mergeAll ms).Parent v w := by
  induction ms with
  | nil => exact parent
  | cons m ms ih =>
    obtain ⟨ltx, lty, ne, -⟩ := h m (.head _)
    rw [mergeAll, parent_link (by rwa [size_mergeAll]) (by rwa [size_mergeAll]) ne, if_neg]
    · exact ih h.tail
    · rintro rfl
      cases (wf.isRoot_root m.right).symm.trans parent

lemma root_mergeAll (wf' : (s.mergeAll ms).WellFormed) (t : TypeId) :
    ReflTransGen (s.Merged ms) (s.root t) ((s.mergeAll ms).root t) := by
  obtain ⟨top, way⟩ := wf'.root_spec t
  generalize (s.mergeAll ms).root t = r at top way
  induction way using ReflTransGen.head_induction_on with
  | refl =>
    rw [wf.root_of_isRoot]
    cases parent : (s.node r).parent with
    | none => exact parent
    | some p => cases top.symm.trans (parent_mergeAll_of_parent wf h parent)
  | head parent _ ih =>
    rcases parent_mergeAll wf h parent with ⟨top', m, mem, rfl, rfl⟩ | ⟨-, parent⟩
    · rw [wf.root_of_isRoot (wf.isRoot_root m.left)] at ih
      rw [wf.root_of_isRoot top']
      exact .head ⟨m, mem, rfl, rfl⟩ ih
    · rwa [wf.root_of_parent parent]

end

end Infer.TypeStore

end Decompiler
