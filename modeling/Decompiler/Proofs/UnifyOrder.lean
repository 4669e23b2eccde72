import Decompiler.Proofs.EqualTypes
import Decompiler.Proofs.Narrowing

/-!
# The order of two types that are made equal

Which of two types becomes the representative depends on their order. Nothing else does: the other
order makes the same types equal, and the same is known of them.

Main statement: `unify_comm`.
-/

namespace Decompiler

lemma C.CType.same_symm {t u : CType} : t.same u = true → u.same t = true := by
  -- The induction is along the comparison; where it says `false` at once there is nothing to show.
  apply CType.same.induct (fun t u => t.same u = true → u.same t = true)
    (fun ps ps' => Param.allSame ps ps' = true → Param.allSame ps' ps = true)
    (fun d d' => d.same d' = true → d'.same d = true)
    (fun e e' => e.same e' = true → e'.same e = true)
    (fun es es' => Expr.allSame es es' = true → Expr.allSame es' es = true)
    (fun b b' => b.same b' = true → b'.same b = true)
    (fun es es' => Enumerator.allSame es es' = true → Enumerator.allSame es' es = true)
    (fun ms ms' => Member.allSame ms ms' = true → Member.allSame ms' ms = true)
  all_goals
    intros
    simp_all [CType.same, Param.allSame, Decl.same, Expr.same, Expr.allSame, Base.same,
      Enumerator.allSame, Member.allSame]

namespace Infer

open Relation TypeNode

def Either {α : Type} (a b c d : α) : Prop :=
  c = a ∧ d = b ∨ c = b ∧ d = a

lemma Either.imp {a b c d : α} {P : α → α → Prop} (order : Either a b c d)
    (symm : P a b → P b a) (h : P a b) : P c d := by
  rcases order with ⟨rfl, rfl⟩ | ⟨rfl, rfl⟩
  · exact h
  · exact symm h

lemma Either.map {a b c d : α} (f : α → β) (order : Either a b c d) :
    Either (f a) (f b) (f c) (f d) :=
  order.imp (P := fun c d => Either (f a) (f b) (f c) (f d)) (fun _ => .inr ⟨rfl, rfl⟩)
    (.inl ⟨rfl, rfl⟩)

namespace TypeNode

variable {x y common : TypeNode}

def facts (n : TypeNode) : Kinds × Option Nat × Signs :=
  (n.kinds, n.size, n.signs)

lemma Sound.facts_of_pointer (h : x.Sound) (ptr : x.kinds = .onlyPtr) :
    x.facts = (.onlyPtr, some 32, .all) := by
  rw [facts, ptr, h.pointer ptr, h.signs_of_pointer ptr]

lemma meet?_swap (h : x.meet? y = some common) :
    ∃ common', y.meet? x = some common' ∧ common'.facts = common.facts := by
  have agree := (meets_of_meet? h).agree
  have size : (y.size <|> x.size) = (x.size <|> y.size) := by
    cases left : x.size <;> cases right : y.size <;> try rfl
    rw [agree _ _ left right]
  have kinds : y.kinds.inter x.kinds = x.kinds.inter y.kinds := by simp [Kinds.inter, Bool.and_comm]
  have signs : y.signs.inter x.signs = x.signs.inter y.signs := by simp [Signs.inter, Bool.and_comm]
  have apart : (y.size.isSome && x.size.isSome && y.size != x.size) =
      (x.size.isSome && y.size.isSome && x.size != y.size) := by
    rw [Bool.and_comm y.size.isSome, bne_comm]
  unfold meet? at h ⊢
  rw [size, kinds, signs, apart]
  split at h
  case isTrue => cases h
  case isFalse close =>
    rw [if_neg close]
    dsimp only at h ⊢
    split at h
    case isTrue => cases h
    case isFalse left =>
      cases h
      exact ⟨_, if_neg left, rfl⟩

end TypeNode

namespace TypeStore

variable {s s1 s2 s' : TypeStore} {common : TypeNode}

lemma verdict?_swap (h : verdict? v w = some true) : verdict? w v = some true := by
  rcases v with _ | t | e <;> rcases w with _ | u | f <;> try rfl
  · cases h
  · cases f <;> cases h
  · cases e <;> cases h
  · exact congrArg some (C.CType.same_symm (Option.some.inj h))

lemma Alike.symm (h : Alike s s') : Alike s' s :=
  ⟨h.size.symm, fun t => (h.root t).symm, fun t => (h.isRoot t).symm, fun t => (h.contents t).symm⟩

lemma Alike.known (h : Alike s s') (wf : s.WellFormed) : s'.known t = s.known t := by
  rw [TypeStore.known, h.root, h.node (wf.isRoot_root t), TypeStore.known]

section

variable (alike : Alike s s1) (wf : s.WellFormed) (wf1 : s1.WellFormed)

include alike wf wf1

lemma Alike.add (c : C.CType) : Alike (s.add (.pointer (some (.declared c)))).2
    (s1.add (.pointer (some (.declared c)))).2 := by
  have grows := (add_extends wf c).2
  have grows1 := (add_extends wf1 c).2
  constructor
  · rw [size_add, size_add, alike.size]
  · exact fun t => (grows1.root t).trans ((alike.root t).trans (grows.root t).symm)
  · exact fun t => (grows1.isRoot t).trans ((alike.isRoot t).trans (grows.isRoot t).symm)
  · intro t
    rw [node_add, node_add, alike.size]
    split
    · rfl
    · exact alike.contents t

/-- In both orders the same pairs are met, in one order or the other. -/
lemma Descends.either (h : Descends s v w s2 p q) (order : Either v w v' w') : ∃ s2' p' q',
    Descends s1 v' w' s2' p' q' ∧ Alike s2 s2' ∧ Either p q p' q' := by
  cases h with
  | types =>
    rcases order with ⟨rfl, rfl⟩ | ⟨rfl, rfl⟩
    · exact ⟨s1, _, _, .types, alike, .inl ⟨rfl, rfl⟩⟩
    · exact ⟨s1, _, _, .types, alike, .inr ⟨rfl, rfl⟩⟩
  -- The new type comes first, wherever the declared pointer stands.
  | @declaredRight _ _ u | @declaredLeft _ u _ =>
    have alike' := alike.add wf wf1 u
    rcases order with ⟨rfl, rfl⟩ | ⟨rfl, rfl⟩
    all_goals first
      | exact ⟨_, _, _, .declaredRight, alike', .inl ⟨alike.size, rfl⟩⟩
      | exact ⟨_, _, _, .declaredLeft, alike', .inl ⟨alike.size, rfl⟩⟩

end

lemma Descends.targetsFrom (h : Descends s v w s1 p q) :
    targetsFrom fuel s v w = unifyFrom fuel s1 p q := by
  cases h with
  | types | declaredRight | declaredLeft => rfl

lemma targetsFrom_of_verdict (h : verdict? v w = some verdict) :
    targetsFrom fuel s v w = .ok (verdict, s) := by
  rcases targetsFrom_eq fuel s v w with ⟨_, verdict, eq⟩ | ⟨_, _, _, descends, -⟩
  · cases h.symm.trans verdict
    exact eq
  · cases descends.verdict?_eq_none.symm.trans h

section

variable (wf : s.WellFormed) (sound : s.Sound) (lta : a < s.nodes.size) (ltb : b < s.nodes.size)
  (ne : s.root a ≠ s.root b) (meet : s.common? a b = some common)

include ne meet

include sound in
lemma unifyFrom_of_targets
    (targets : targetsFrom fuel (s.settled a b) (s.target? a) (s.target? b) = .ok (true, s2)) :
    unifyFrom (fuel + 1) s a b = .ok (true, s2.link (s.root a) (s.root b) common) := by
  have expected := ((meets_of_meet? meet).sound (sound a) (sound b)).expected
  rw [unifyFrom_succ, if_neg ne, meet]
  dsimp only
  rw [expected, targets]
  rfl

include wf lta ltb

lemma facts_link_roots (t : TypeId) :
    (((s.settled a b).link (s.root a) (s.root b) common).known t).facts =
      if s.root t = s.root a ∨ s.root t = s.root b then common.facts else (s.known t).facts := by
  obtain ⟨wf0, alike⟩ := settled_alike wf a b
  have meets := meets_of_meet? meet
  have top (t) : (s.settled a b).IsRoot (s.root t) := (alike.isRoot _).2 (wf.isRoot_root t)
  have ltx := alike.size.symm ▸ wf.root_lt lta
  have lty := alike.size.symm ▸ wf.root_lt ltb
  have wf' : ((s.settled a b).link (s.root a) (s.root b) common).WellFormed := by
    rw [← alike.root, ← alike.root b] at ne ⊢
    refine link_wellFormed wf0 (alike.size.symm ▸ lta) (alike.size.symm ▸ ltb) ne ?_
    rwa [common?, alike.known wf, alike.known wf]
  rw [known_link_roots ltx lty ne wf0 wf' (top a) (top b) meets.parent, alike.root, alike.known wf]
  exact apply_ite facts _ _ _

include sound

lemma facts_link_targets
    (descends : Descends (s.settled a b) (s.target? a) (s.target? b) s2 p q)
    (nested : unifyFrom fuel s2 p q = .ok (true, s3)) (t : TypeId) :
    ((s3.link (s.root a) (s.root b) common).known t).facts = (s3.known t).facts := by
  have run := unifyFrom_of_targets sound ne meet (descends.targetsFrom.trans nested)
  have enters := descends.enters wf
  have narrows := enters.toExtends.narrows wf enters.wellFormed sound
  obtain ⟨wf3, narrows3, size⟩ :=
    unifyFrom_narrows enters.wellFormed narrows.sound enters.ltp enters.ltq nested
  have targets : s.target? a ≠ none ∧ s.target? b ≠ none := by
    generalize s.target? a = v, s.target? b = w at descends
    cases descends <;> simp
  rcases known_link_targets wf sound lta ltb ne meet targets.1 targets.2 (narrows.trans narrows3)
    (enters.size.trans size) wf3 (unifyFrom_narrows wf sound lta ltb run).1 t with
    same | ⟨soundt, ptr, ptr'⟩
  · rw [same]
  · rw [soundt.facts_of_pointer ptr, (narrows3.sound t).facts_of_pointer ptr']

end

/-- Two stores with the same types, the order of two of which does not matter. -/
lemma unifyFrom_either (alike : Alike s s1) (wf : s.WellFormed) (wf1 : s1.WellFormed)
    (sound : s.Sound) (lta : a < s.nodes.size) (ltb : b < s.nodes.size) (order : Either a b c d)
    (run : unifyFrom fuel s a b = .ok (true, s')) :
    ∃ s1', unifyFrom fuel s1 c d = .ok (true, s1') ∧
      (∀ t, (s1'.known t).facts = (s'.known t).facts) ∧
      ∀ {f s2 x y}, Calls fuel s a b f s2 x y →
        ∃ s2' x' y', Calls fuel s1 c d f s2' x' y' ∧ Either x y x' y' := by
  induction fuel generalizing s s1 a b c d s' with
  | zero => cases run
  | succ fuel ih =>
    obtain ⟨wf0, alike0⟩ := settled_alike wf a b
    obtain ⟨wf2, alike2⟩ := settled_alike wf1 c d
    have known (t) : s1.known t = s.known t := alike.known wf
    have sound1 : s1.Sound := fun t => known t ▸ sound t
    have lt : c < s1.nodes.size ∧ d < s1.nodes.size := by
      rw [alike.size]
      exact order.imp (P := fun c d => c < s.nodes.size ∧ d < s.nodes.size) And.symm ⟨lta, ltb⟩
    have targets : Either (s.target? a) (s.target? b) (s1.target? c) (s1.target? d) := by
      rw [target?, target?, target?, known c, target?, known d]
      exact order.map fun t => (s.known t).target
    have ne' (ne : s.root a ≠ s.root b) : s1.root c ≠ s1.root d := by
      rw [alike.root, alike.root]
      exact order.imp (P := fun c d => s.root c ≠ s.root d) Ne.symm ne
    have meets {common} (meet : s.common? a b = some common) :
        ∃ common', s1.common? c d = some common' ∧ common'.facts = common.facts := by
      rw [common?, known, known]
      exact order.imp (P := fun c d => ∃ common', (s.known c).meet? (s.known d) = some common' ∧
        common'.facts = common.facts) (fun _ => meet?_swap meet) ⟨common, meet, rfl⟩
    generalize hv : true = verdict at run
    cases unifyFrom_returns run with
    | same same =>
      have same' : s1.root c = s1.root d := by
        rw [alike.root, alike.root]
        exact order.imp (P := fun c d => s.root c = s.root d) symm same
      refine ⟨s1.settled c d, by rw [unifyFrom_succ, if_pos same']; rfl, fun t => ?_, ?_⟩
      · rw [alike2.known wf1, known, alike0.known wf]
      · intro _ _ x y call
        cases call with
        | self => exact ⟨s1, c, d, .self, order⟩
        | targets ne _ _ _ => exact absurd same ne
    | unlike _ _ => cases hv
    | @flat common _ ne meet flat =>
      subst hv
      obtain ⟨common', meet', facts⟩ := meets meet
      have flat' := targets.imp (P := fun v w => verdict? v w = some true) verdict?_swap flat
      refine ⟨_, unifyFrom_of_targets sound1 (ne' ne) meet' (targetsFrom_of_verdict flat'),
        fun t => ?_, ?_⟩
      · rw [linkIf, if_pos rfl, facts_link_roots wf1 lt.1 lt.2 (ne' ne) meet',
          facts_link_roots wf lta ltb ne meet, facts, known, alike.root, alike.root, alike.root]
        rcases order with ⟨rfl, rfl⟩ | ⟨rfl, rfl⟩
        · rfl
        · exact if_congr or_comm rfl rfl
      · intro _ _ x y call
        cases call with
        | self => exact ⟨s1, c, d, .self, order⟩
        | targets _ _ descends _ =>
          rw [target?_settled, target?_settled] at descends
          cases descends.verdict?_eq_none.symm.trans flat
    | @deep s2 s3 p q common _ ne meet descends nested =>
      subst hv
      have enters := descends.enters wf
      have sound2 := (enters.toExtends.narrows wf enters.wellFormed sound).sound
      obtain ⟨common', meet', facts⟩ := meets meet
      obtain ⟨s2', p', q', descends', alikeT, orderT⟩ :=
        descends.either (alike0.symm.trans (alike.trans alike2)) wf0 wf2 targets
      obtain ⟨s3', nested', facts', calls⟩ := ih alikeT enters.wellFormed
        (descends'.enters wf1).wellFormed sound2 enters.ltp enters.ltq orderT nested
      refine ⟨_, unifyFrom_of_targets sound1 (ne' ne) meet' (descends'.targetsFrom.trans nested'),
        fun t => ?_, ?_⟩
      · rw [linkIf, if_pos rfl, facts_link_targets wf sound lta ltb ne meet descends nested,
          facts_link_targets wf1 sound1 lt.1 lt.2 (ne' ne) meet' descends' nested', facts']
      · intro _ _ x y call
        cases call with
        | self => exact ⟨s1, c, d, .self, order⟩
        | targets _ _ descends1 call =>
          rw [target?_settled, target?_settled] at descends1
          obtain ⟨rfl, rfl, rfl⟩ := descends.unique descends1
          obtain ⟨s4, x', y', call', order'⟩ := calls call
          rw [← common?_settled] at meet'
          rw [← target?_settled, ← target?_settled] at descends'
          exact ⟨s4, x', y', .targets (ne' ne) meet' descends' call', order'⟩

end TypeStore

open TypeStore

variable {s : TypeStore} {a b : TypeId}

/-- If no type leads back to itself, two types can be made equal in the one order if and only if they
can in the other. Then the same types are equal, and of each the same is known. -/
theorem unify_comm (start : ReflTransGen Develops {} s) (acyclic : Acyclic s.Points)
    (lta : a < s.nodes.size) (ltb : b < s.nodes.size) :
    ((∃ s', s.unify a b = .ok (true, s')) ↔ ∃ s', s.unify b a = .ok (true, s')) ∧
    ∀ s' s'', s.unify a b = .ok (true, s') → s.unify b a = .ok (true, s'') → ∀ t,
      (∀ u, s'.root t = s'.root u ↔ s''.root t = s''.root u) ∧
      (s'.known t).kinds = (s''.known t).kinds ∧ (s'.known t).size = (s''.known t).size ∧
      (s'.known t).signs = (s''.known t).signs := by
  obtain ⟨wf, narrows⟩ := narrows_of_develops start empty_sound.1 empty_sound.2
  have swap {a b s'} (lta : a < s.nodes.size) (ltb : b < s.nodes.size)
      (run : s.unify a b = .ok (true, s')) :=
    unifyFrom_either .refl wf wf narrows.sound lta ltb (.inr ⟨rfl, rfl⟩) run
  have into {a b t u s' s''} (lta : a < s.nodes.size) (ltb : b < s.nodes.size)
      (run : s.unify a b = .ok (true, s'))
      (run' : s.unify b a = .ok (true, s'')) (same : s'.Same t u) : s''.Same t u := by
    obtain ⟨-, -, -, calls⟩ := swap lta ltb run
    have same'' := (unify_same_iff wf acyclic ltb lta run').2
    refine same_of_eqvGen ?_ (((unify_same_iff wf acyclic lta ltb run).2 t u).1 same)
    rintro c d (same | ⟨fuel, s₁, s₂, call, -⟩)
    · exact (same'' c d).2 (.rel _ _ (.inl same))
    · obtain ⟨s₃, c', d', call', order⟩ := calls call
      obtain ⟨s₄, run₄⟩ := call'.verdict_eq run'
      have joined := (same'' c' d').2 (.rel _ _ (.inr ⟨fuel, s₃, s₄, call', run₄⟩))
      rcases order with ⟨rfl, rfl⟩ | ⟨rfl, rfl⟩
      · exact joined
      · exact joined.symm
  refine ⟨⟨?_, ?_⟩, fun s' s'' run run' t => ⟨fun u => ⟨?_, ?_⟩, ?_⟩⟩
  · rintro ⟨s', run⟩
    obtain ⟨s'', run', -⟩ := swap lta ltb run
    exact ⟨s'', run'⟩
  · rintro ⟨s', run⟩
    obtain ⟨s'', run', -⟩ := swap ltb lta run
    exact ⟨s'', run'⟩
  · exact into lta ltb run run'
  · exact into ltb lta run' run
  · obtain ⟨s₁, run₁, facts, -⟩ := swap lta ltb run
    cases run'.symm.trans run₁
    have same := facts t
    simp only [TypeNode.facts, Prod.mk.injEq] at same
    exact ⟨same.1.symm, same.2.1.symm, same.2.2.symm⟩

/-- Which type represents the others does depend on the order. -/
theorem unify_comm_twoPointers : ∃ s' s'', twoPointers.unify 1 3 = .ok (true, s') ∧
    twoPointers.unify 3 1 = .ok (true, s'') ∧ s'.root 1 = 1 ∧ s''.root 1 = 3 ∧
    ∀ t, (∀ u, s'.root t = s'.root u ↔ s''.root t = s''.root u) ∧
      (s'.known t).kinds = (s''.known t).kinds := by
  have first : ReflTransGen Develops {} _ := .single (.add (n := .any) .any nofun)
  have second := first.tail (.add (n := .pointer (some (.type 0))) .pointer (by
    rintro _ ⟨⟩
    decide))
  have third := second.tail (.add (n := .signed 32) (.signed (by decide)) nofun)
  have start : ReflTransGen Develops {} twoPointers := third.tail
    (.add (n := .pointer (some (.type 2))) .pointer (by
      rintro _ ⟨⟩
      decide))
  have run : twoPointers.unify 1 3 = .ok (true, _) := rfl
  have run' : twoPointers.unify 3 1 = .ok (true, _) := rfl
  have same := (unify_comm start twoPointers_built.acyclic.2 (by decide) (by decide)).2 _ _ run run'
  exact ⟨_, _, run, run', rfl, rfl, fun t => (same t).imp_right And.left⟩

end Infer

end Decompiler
