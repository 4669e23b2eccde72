import Decompiler.Proofs.PointerCycles

/-!
# Types with a common representative

Two types have the same representative if and only if they are connected by pairs for which a
unification has returned `true`.

Main statement: `unified_root_eq_iff`.
-/

namespace Decompiler.Infer

open Relation List EqvGen

lemma pointerDepth_of_same : ∀ {t u : C.CType}, t.same u → pointerDepth t = pointerDepth u
  | .pointer _ t, u, h => by
    cases u with
    | pointer _ u =>
      simp only [C.CType.same, Bool.and_eq_true] at h
      rw [pointerDepth, pointerDepth, pointerDepth_of_same h.2]
    | _ => simp [C.CType.same] at h
  | .named _ _ _ _, u, h | .array _ _ _, u, h | .function _ _, u, h | .bare _, u, h => by
    cases u <;> simp_all [C.CType.same, pointerDepth]

namespace TypeStore

variable {s : TypeStore} {m : Merge} {ms : List Merge}

section

variable (h : Chain s old a b ms)

include h

lemma Chain.shallow (wf : s.WellFormed)
    (target : s.target? a = some (.declared e)) (way : ReflTransGen s.Points (s.root b) z)
    (found : (s.node z).target = some (.declared f)) : pointerDepth f ≤ pointerDepth e := by
  have stop {x} {f'} (target : (s.node x).target = some (.declared f'))
      (way : ReflTransGen s.Points x z) : f = f' := by
    rcases way.cases_head with rfl | ⟨_, ⟨-, t, target', -⟩, -⟩
    · cases target.symm.trans found
      rfl
    · cases target.symm.trans target'
  induction h generalizing e with
  | same same =>
    rw [← same] at way
    exact (congrArg pointerDepth (stop target way)).le
  | @flat _ a b common ne _ verdict =>
    rw [target] at verdict
    cases right : s.target? b with
    | none =>
      rcases way.cases_head with rfl | ⟨_, ⟨-, t, target', -⟩, -⟩
      · cases right.symm.trans found
      · cases right.symm.trans target'
    | some r =>
      rw [right] at verdict
      cases r with
      | type t => cases e <;> simp [verdict?] at verdict
      | declared f' =>
        cases stop right way
        have same : e.same f := by simpa [verdict?] using verdict
        exact (pointerDepth_of_same same).ge
  | deep _ _ behind _ ih =>
    cases behind with
    | types left _ | declaredRight left _ _ => cases left.symm.trans target
    | declaredLeft left right node =>
      cases left.symm.trans target
      rcases way.cases_head with rfl | ⟨_, ⟨-, t, target', rfl⟩, way⟩
      · cases right.symm.trans found
      · cases right.symm.trans target'
        exact (ih (root_of_fresh wf node).2 way).trans (Nat.le_succ _)

lemma Chain.behind (wf : s.WellFormed) (target : s.target? a = some (.declared e)) :
    ∀ m ∈ ms, ReflTransGen s.Points (s.root b) (s.root m.right) := by
  induction h generalizing e with
  | same _ => exact forall_mem_nil _
  | flat _ _ _ => exact forall_mem_singleton.2 .refl
  | deep _ _ behind _ ih =>
    cases behind with
    | types left _ | declaredRight left _ _ => cases left.symm.trans target
    | declaredLeft _ right node =>
      refine forall_mem_cons.2 ⟨.refl, fun m mem => ?_⟩
      exact .head ⟨wf.isRoot_root _, _, right, rfl⟩ (ih (root_of_fresh wf node).2 m mem)

omit h in
/-- All that is compared with the target of a declared pointer leads to less levels. -/
lemma Chain.not_reaches {c} (chain : Chain s new p q ms) (wf : s.WellFormed)
    (node : s.node p = .pointer (some (.declared c)))
    (target : s.target? b = some (.declared (.pointer quals c))) :
    ∀ m ∈ ms, ¬ ReflTransGen s.Points (s.root m.right) (s.root b) := by
  intro m mem way
  have fresh := (root_of_fresh wf node).2
  have deep := chain.shallow wf fresh ((chain.behind wf fresh m mem).trans way) target
  exact absurd deep (not_le.2 (Nat.lt_succ_self _))

lemma Chain.not_above (wf : s.WellFormed) (acyclic : Acyclic s.Points) :
    ∀ m ∈ ms, ¬ TransGen s.Points (s.root m.right) (s.root b) := by
  induction h with
  | same _ => exact forall_mem_nil _
  | flat _ _ _ => exact forall_mem_singleton.2 (acyclic _)
  | deep _ _ behind chain ih =>
    refine forall_mem_cons.2 ⟨acyclic _, fun m mem way => ?_⟩
    cases behind with
    | types _ right | declaredLeft _ right _ =>
      exact ih m mem (way.tail ⟨wf.isRoot_root _, _, right, rfl⟩)
    | declaredRight _ right node =>
      exact chain.not_reaches wf node right m mem way.to_reflTransGen

lemma Chain.nodup (wf : s.WellFormed) (acyclic : Acyclic s.Points) :
    (ms.map fun m => s.root m.right).Nodup := by
  induction h with
  | same _ => exact nodup_nil
  | flat _ _ _ => exact nodup_singleton _
  | @deep _ _ _ b _ _ _ _ _ _ behind chain ih =>
    refine nodup_cons.2 ⟨fun mem => ?_, ih⟩
    obtain ⟨m, mem, same⟩ := mem_map.1 mem
    cases behind with
    | types _ right | declaredLeft _ right _ =>
      exact chain.not_above wf acyclic m mem (.single (same ▸ ⟨wf.isRoot_root b, _, right, rfl⟩))
    | declaredRight _ right node => exact chain.not_reaches wf node right m mem (same ▸ .refl)

end

def Same (s : TypeStore) (t u : TypeId) : Prop :=
  s.root t = s.root u

instance : IsEquiv TypeId s.Same where
  refl _ := rfl
  symm _ _ h := Eq.symm h
  trans _ _ _ h h' := Eq.trans h h'

lemma same_of_eqvGen (h : ∀ t u, R t u → s.Same t u) (connected : EqvGen R t u) : s.Same t u :=
  eqvGen_le h _ _ connected

def Related (s : TypeStore) (ms : List Merge) (t u : TypeId) : Prop :=
  s.Same t u ∨ ∃ m ∈ ms, m.left = t ∧ m.right = u

lemma parent_mergeAll_of_mem (h : s.Mergeable ms) (nodup : (ms.map fun m => s.root m.right).Nodup)
    (mem : m ∈ ms) : (s.mergeAll ms).Parent (s.root m.right) (s.root m.left) := by
  induction ms with
  | nil => cases mem
  | cons m' ms ih =>
    obtain ⟨ltx, lty, ne, -⟩ := h m' (.head _)
    obtain ⟨new, nodup⟩ := nodup_cons.1 nodup
    rw [mergeAll, parent_link (by rwa [size_mergeAll]) (by rwa [size_mergeAll]) ne]
    rcases mem_cons.1 mem with rfl | mem
    · rw [if_pos rfl]
    · rw [if_neg]
      · exact ih h.tail nodup mem
      · intro same
        exact new (mem_map.2 ⟨m, mem, same⟩)

/-- Merging connects exactly the types that are merged. -/
lemma root_mergeAll_iff (wf : s.WellFormed) (h : s.Mergeable ms)
    (wf' : (s.mergeAll ms).WellFormed) (nodup : (ms.map fun m => s.root m.right).Nodup) :
    (s.mergeAll ms).Same t u ↔ EqvGen (s.Related ms) t u := by
  have again (t) : s.root (s.root t) = s.root t :=
    wf.root_of_isRoot (wf.isRoot_root t)
  constructor
  · intro same
    have up (t) : EqvGen (s.Related ms) t ((s.mergeAll ms).root t) := by
      refine .trans _ _ _ (.rel _ _ (.inl (again t).symm)) ?_
      have way := root_mergeAll wf h wf' t
      generalize (s.mergeAll ms).root t = r at way
      induction way with
      | refl => exact .refl _
      | tail _ step ih =>
        obtain ⟨m, mem, rfl, rfl⟩ := step
        refine ih.trans _ _ _ (.trans _ m.right _ (.rel _ _ (.inl (again _))) (.trans _ m.left _ ?_ ?_))
        · exact .symm _ _ (.rel _ _ (.inr ⟨m, mem, rfl, rfl⟩))
        · exact .rel _ _ (.inl (again _).symm)
    have right := up u
    rw [← same] at right
    exact .trans _ _ _ (up t) (.symm _ _ right)
  · -- Old parents stay, so all types that were equal stay equal.
    have along {t r} (way : ReflTransGen s.Parent t r) :
        (s.mergeAll ms).root t = (s.mergeAll ms).root r := by
      induction way with
      | refl => rfl
      | tail _ parent ih =>
        exact ih.trans (wf'.root_of_parent (parent_mergeAll_of_parent wf h parent))
    have up (t) := along (wf.root_spec t).2
    apply same_of_eqvGen
    rintro t u (same | ⟨m, mem, rfl, rfl⟩)
    · rw [Same, up t, up u, same]
    · rw [Same, up m.left, up m.right, wf'.root_of_parent (parent_mergeAll_of_mem h nodup mem)]

def Joined (s : TypeStore) (a b c d : TypeId) : Prop :=
  ∃ fuel s1 s2, Calls (s.nodes.size + s.depth + 2) s a b fuel s1 c d ∧
    unifyFrom fuel s1 c d = .ok (true, s2)

end TypeStore

open TypeStore

variable {s s' : TypeStore} {t u : TypeId} {Pair : TypeId → TypeId → Prop}

/-- A store that is built by adding types and making types equal, and the pairs of types for which
some call has returned `true`. Before types are made equal, none leads back to itself. -/
inductive Unified : TypeStore → (TypeId → TypeId → Prop) → Prop
  | empty :
    Unified {} fun _ _ => False
  | add {s n Pair} :
    Unified s Pair →
    n.parent = none →
    (∀ u, n.target = some (.type u) → u < s.nodes.size) →
    Unified (s.add n).2 Pair
  | unify {s s' a b verdict Pair} :
    Unified s Pair →
    Acyclic s.Points →
    a < s.nodes.size →
    b < s.nodes.size →
    s.unify a b = .ok (verdict, s') →
    Unified s' fun c d => Pair c d ∨ s.Joined a b c d

/-- A unification connects exactly the pairs that it joins. -/
lemma unify_same_iff (wf : s.WellFormed) (acyclic : Acyclic s.Points)
    (lta : a < s.nodes.size) (ltb : b < s.nodes.size) (run : s.unify a b = .ok (verdict, s')) :
    s'.WellFormed ∧
      ∀ t u, s'.Same t u ↔ EqvGen (fun c d => s.Same c d ∨ s.Joined a b c d) t u := by
  cases verdict with
  | true =>
    obtain ⟨s0, ms, wf0, grows, chain, rfl, answers⟩ := unifyFrom_merges wf lta ltb run
    have ok := grows.bounded wf wf0
    have placed := grows.placed wf lta ltb
    have mergeable := chain.mergeable ok placed
    have wf' := chain.wellFormed ok placed
    refine ⟨wf', fun t u => ?_⟩
    rw [root_mergeAll_iff wf0 mergeable wf' (chain.nodup wf0 (grows.acyclic acyclic))]
    constructor
    · apply mono
      rintro c d (same | ⟨m, mem, rfl, rfl⟩)
      · exact .inl (by rwa [Same, grows.root, grows.root] at same)
      · obtain ⟨fuel, s1, call⟩ := answers.called m mem
        obtain ⟨s2, run'⟩ := call.verdict_eq run
        exact .inr ⟨fuel, s1, s2, call, run'⟩
    · apply mono
      rintro c d (same | ⟨fuel, s1, s2, call, -⟩)
      · exact .inl (by rwa [Same, grows.root, grows.root])
      · exact answers.merged call
  | false =>
    obtain ⟨wf', grows⟩ := unifyFrom_extends wf run
    refine ⟨wf', fun t u => ?_⟩
    rw [Same, grows.root, grows.root]
    constructor
    · exact fun same => .rel _ _ (.inl same)
    · apply same_of_eqvGen
      rintro c d (same | ⟨fuel, s1, s2, call, run'⟩)
      · exact same
      · obtain ⟨s3, run''⟩ := call.verdict_eq run
        cases run'.symm.trans run''

/-- Types are the same if a chain of unified pairs connects them. -/
lemma Unified.same_iff (h : Unified s Pair) :
    s.WellFormed ∧ ∀ t u, s.Same t u ↔ EqvGen Pair t u := by
  induction h with
  | empty =>
    have wf := Built.empty.acyclic.1
    refine ⟨wf, fun t u => ?_⟩
    constructor
    · intro same
      rw [Same, wf.root_of_le (Nat.zero_le t)] at same
      exact same ▸ .refl _
    · apply same_of_eqvGen
      rintro t u ⟨⟩
  | add _ fresh known ih =>
    obtain ⟨wf, ih⟩ := ih
    have wf' := add_wellFormed wf fresh known
    refine ⟨wf', fun t u => ?_⟩
    rw [← ih, Same, root_add wf wf' fresh, root_add wf wf' fresh, Same]
  | @unify s s' a b verdict Pair _ acyclic lta ltb run ih =>
    obtain ⟨wf, ih⟩ := ih
    obtain ⟨wf', same⟩ := unify_same_iff wf acyclic lta ltb run
    refine ⟨wf', fun t u => (same t u).trans ⟨?_, ?_⟩⟩
    · -- What was connected before is connected by the pairs of that time.
      apply eqvGen_le
      rintro c d (same | joined)
      · exact mono (fun _ _ => .inl) _ _ ((ih c d).1 same)
      · exact .rel _ _ (.inr joined)
    · apply mono
      rintro c d (pair | joined)
      · exact .inl ((ih c d).2 (.rel _ _ pair))
      · exact .inr joined

/-- Types have the same representative if and only if they are connected by pairs for which a call
has returned `true`, and looking a representative up changes none. -/
theorem unified_root_eq_iff (h : Unified s Pair) :
    (∀ t u, s.root t = s.root u ↔ EqvGen Pair t u) ∧
      ∀ t u, (s.compress t).root u = s.root u := by
  obtain ⟨wf, same⟩ := h.same_iff
  exact ⟨same, fun t u => (compress_alike wf t).2.root u⟩

lemma twoPointers_unified : Unified twoPointers fun _ _ => False := by
  have first : Unified (add {} .any).2 fun _ _ => False :=
    .add .empty rfl (by simp [TypeNode.any])
  have second : Unified ⟨#[.any, .pointer (some (.type 0))], 0⟩ fun _ _ => False :=
    .add first rfl (by simp [TypeNode.pointer, add])
  have third : Unified ⟨#[.any, .pointer (some (.type 0)), .signed 32], 0⟩ fun _ _ => False :=
    .add second rfl (by simp [TypeNode.signed, TypeNode.integer, TypeNode.any])
  exact .add third rfl (by simp [TypeNode.pointer])

/-- When two pointers are made equal, what they point to is connected, and nothing else. -/
theorem unified_root_eq_iff_twoPointers : ∃ s Pair, twoPointers.unify 1 3 = .ok (true, s) ∧
    Unified s Pair ∧ s.root 0 = s.root 2 ∧ EqvGen Pair 0 2 ∧ EqvGen Pair 1 3 ∧
      ¬ EqvGen Pair 0 1 ∧ ∀ t u, (s.compress t).root u = s.root u := by
  have run : twoPointers.unify 1 3 = .ok (true, _) := rfl
  have unified := Unified.unify twoPointers_unified twoPointers_built.acyclic.2 (by decide)
    (by decide) run
  obtain ⟨same, compress⟩ := unified_root_eq_iff unified
  exact ⟨_, _, run, unified, rfl, (same 0 2).1 rfl, (same 1 3).1 rfl,
    fun connected => absurd ((same 0 1).2 connected) (by decide), compress⟩

end Decompiler.Infer
