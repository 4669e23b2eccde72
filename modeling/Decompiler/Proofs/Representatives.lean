import Decompiler.Infer.Unify
import Decompiler.Proofs.Steps

/-!
# Representatives of types

The parents of the types in a store lead to representatives, and what is done to a store changes
these in a simple way.
-/

namespace Decompiler

open Relation Array Finset ReflTransGen

section

variable {α : Type} {R R' : α → α → Prop}

def Acyclic (R : α → α → Prop) : Prop :=
  ∀ x, ¬ TransGen R x x

namespace Acyclic

lemma mono (h : Acyclic R) (sub : ∀ x y, R' x y → TransGen R x y) : Acyclic R' :=
  fun x loop => h x (loop.lift' id sub)

lemma height {R : Nat → Nat → Prop} (h : Acyclic R) (lt : ∀ x y, R x y → y < n) :
    ∃ height : Nat → Nat, (∀ x, height x ≤ n) ∧ ∀ x y, R x y → height y < height x := by
  classical
  let reached (x : Nat) := (Finset.range n).filter (TransGen R x)
  refine ⟨fun x => (reached x).card, ?_, ?_⟩
  · intro x
    simpa using card_filter_le (range n) (TransGen R x)
  · intro x y step
    apply card_lt_card
    refine ssubset_iff_of_subset ?_ |>.2 ⟨y, ?_, ?_⟩
    · intro z mem
      obtain ⟨mem, way⟩ := mem_filter.1 mem
      exact mem_filter.2 ⟨mem, .head step way⟩
    · exact mem_filter.2 ⟨mem_range.2 (lt x y step), .single step⟩
    · intro mem
      exact h y (mem_filter.1 mem).2

end Acyclic

end

namespace Infer

namespace TypeNode

variable {x y common : TypeNode}

def contents (n : TypeNode) : TypeNode :=
  { n with parent := none }

/-- What two types have in common, part by part. -/
structure Meets (x y common : TypeNode) : Prop where
  agree : ∀ k l, x.size = some k → y.size = some l → k = l
  kinds : common.kinds = (x.kinds.inter y.kinds).ofSize (x.size <|> y.size)
  kinds_left : common.kinds.isEmpty = false
  signs : common.signs = x.signs.inter y.signs
  signs_left : common.signs.isEmpty = false
  size : common.size = if common.kinds = .onlyPtr then some 32 else x.size <|> y.size
  target : common.target = (x.target <|> y.target)
  parent : common.parent = none

lemma meets_of_meet? (h : x.meet? y = some common) : Meets x y common := by
  unfold meet? at h
  split at h
  case isTrue => cases h
  case isFalse agree =>
    dsimp only at h
    split at h
    case isTrue => cases h
    case isFalse left =>
      cases h
      simp only [Bool.or_eq_true, not_or, Bool.not_eq_true] at left
      refine ⟨?_, rfl, left.1, rfl, left.2, ?_, rfl, rfl⟩
      · intro k l left right
        by_contra differ
        simp [left, right, differ] at agree
      · simp only [beq_iff_eq]

end TypeNode

namespace TypeStore

variable {s s' : TypeStore} {t u p r : TypeId}

def IsRoot (s : TypeStore) (t : TypeId) : Prop :=
  (s.node t).parent = none

lemma IsRoot.contents (top : s.IsRoot t) : (s.node t).contents = s.node t := by
  rw [TypeNode.contents, ← top]

def Parent (s : TypeStore) (t p : TypeId) : Prop :=
  (s.node t).parent = some p

structure WellFormed (s : TypeStore) : Prop where
  acyclic : Acyclic s.Parent
  parent_lt : ∀ {t p}, s.Parent t p → p < s.nodes.size
  target_lt : ∀ {t u}, (s.node t).target = some (.type u) → u < s.nodes.size

lemma node_of_le (le : s.nodes.size ≤ t) : s.node t = .any := by
  simp [node, getD_eq_getD_getElem?, getElem?_eq_none le]

lemma Parent.lt (h : s.Parent t p) : t < s.nodes.size := by
  by_contra outside
  rw [Parent, node_of_le (Nat.le_of_not_lt outside)] at h
  cases h

lemma node_modify (lt : t < s.nodes.size) (f : TypeNode → TypeNode) :
    node { s with nodes := s.nodes.modify t f } u = if u = t then f (s.node u) else s.node u := by
  simp only [node, getD_eq_getD_getElem?, getElem?_modify]
  by_cases same : t = u
  · subst same
    simp [lt]
  · simp [same, Ne.symm same]

lemma rootFrom_spec {height : Nat → Nat} (lower : ∀ t p, s.Parent t p → height p < height t)
    (enough : height t ≤ fuel) :
    s.IsRoot (s.rootFrom fuel t) ∧ ReflTransGen s.Parent t (s.rootFrom fuel t) := by
  induction fuel generalizing t with
  | zero =>
    refine ⟨?_, .refl⟩
    cases parent : (s.node t).parent with
    | none => exact parent
    | some p =>
      have := lower t p parent
      omega
  | succ fuel ih =>
    rw [rootFrom]
    split
    case h_1 p parent =>
      have := lower t p parent
      obtain ⟨top, way⟩ := @ih p (by omega)
      exact ⟨top, .head parent way⟩
    case h_2 parent => exact ⟨parent, .refl⟩

lemma IsRoot.unique (top : s.IsRoot r) (way : ReflTransGen s.Parent t r) (top' : s.IsRoot r')
    (way' : ReflTransGen s.Parent t r') : r = r' := by
  induction way using head_induction_on with
  | refl =>
    rcases way'.cases_head with same | ⟨p, parent, -⟩
    · exact same
    · cases top.symm.trans parent
  | head parent _ ih =>
    rcases way'.cases_head with rfl | ⟨p, parent', way'⟩
    · cases top'.symm.trans parent
    · cases Option.some.inj (Eq.trans (symm parent) parent')
      exact ih way'

namespace WellFormed

variable (wf : s.WellFormed)

include wf

/-- The representative of a type is the end of its parents. -/
lemma root_spec (t : TypeId) : s.IsRoot (s.root t) ∧ ReflTransGen s.Parent t (s.root t) := by
  -- Turned around, a way up is still no loop, and its end is in the store.
  obtain ⟨height, bound, lower⟩ := wf.acyclic.height fun _ _ h => wf.parent_lt h
  exact rootFrom_spec lower (bound t)

lemma isRoot_root (t : TypeId) : s.IsRoot (s.root t) :=
  (wf.root_spec t).1

lemma root_eq (way : ReflTransGen s.Parent t r) (top : s.IsRoot r) : s.root t = r := by
  obtain ⟨top', way'⟩ := wf.root_spec t
  exact top'.unique way' top way

lemma root_of_isRoot (top : s.IsRoot t) : s.root t = t :=
  wf.root_eq .refl top

lemma root_of_le (le : s.nodes.size ≤ t) : s.root t = t := by
  apply wf.root_of_isRoot
  rw [IsRoot, node_of_le le]
  rfl

lemma root_of_parent (h : s.Parent t p) : s.root t = s.root p := by
  obtain ⟨top, way⟩ := wf.root_spec p
  exact wf.root_eq (.head h way) top

lemma root_lt (lt : t < s.nodes.size) : s.root t < s.nodes.size := by
  rcases (wf.root_spec t).2.cases_tail with same | ⟨p, -, h⟩
  · rwa [same]
  · exact wf.parent_lt h

end WellFormed

structure Alike (s s' : TypeStore) : Prop where
  size : s'.nodes.size = s.nodes.size
  root : ∀ t, s'.root t = s.root t
  isRoot : ∀ t, s'.IsRoot t ↔ s.IsRoot t
  contents : ∀ t, (s'.node t).contents = (s.node t).contents

namespace Alike

lemma refl : Alike s s :=
  ⟨rfl, fun _ => rfl, fun _ => .rfl, fun _ => rfl⟩

lemma trans (h : Alike s s') (h' : Alike s' s'') : Alike s s'' where
  size := h'.size.trans h.size
  root t := (h'.root t).trans (h.root t)
  isRoot t := (h'.isRoot t).trans (h.isRoot t)
  contents t := (h'.contents t).trans (h.contents t)

lemma target (h : Alike s s') (t : TypeId) : (s'.node t).target = (s.node t).target := by
  have same := congrArg TypeNode.target (h.contents t)
  exact same

lemma node (h : Alike s s') (top : s.IsRoot t) : s'.node t = s.node t := by
  have contents := h.contents t
  rwa [top.contents, ((h.isRoot t).2 top).contents] at contents

end Alike

def reparent (s : TypeStore) (t r : TypeId) : TypeStore :=
  { s with nodes := s.nodes.modify t fun n => { n with parent := some r } }

lemma node_reparent (lt : t < s.nodes.size) :
    (s.reparent t r).node u = if u = t then { s.node u with parent := some r } else s.node u :=
  node_modify lt _

lemma contents_reparent (lt : t < s.nodes.size) :
    ((s.reparent t r).node u).contents = (s.node u).contents := by
  rw [node_reparent lt]
  split
  · rfl
  · rfl

lemma parent_reparent (lt : t < s.nodes.size) :
    (s.reparent t r).Parent u p ↔ if u = t then p = r else s.Parent u p := by
  rw [Parent, node_reparent lt]
  split
  · simp [eq_comm]
  · rfl

lemma isRoot_reparent (h : s.Parent t p) : (s.reparent t r).IsRoot u ↔ s.IsRoot u := by
  rw [IsRoot, node_reparent h.lt]
  split
  case isTrue same =>
    subst same
    simp [IsRoot, show (s.node u).parent = some p from h]
  case isFalse => rfl

/-- A shorter way to the representative changes nothing else. -/
lemma reparent_alike (wf : s.WellFormed) (h : s.Parent t p) :
    (s.reparent t (s.root t)).WellFormed ∧ Alike s (s.reparent t (s.root t)) := by
  have size : (s.reparent t (s.root t)).nodes.size = s.nodes.size := by simp [reparent]
  have way : TransGen s.Parent t (s.root t) := by
    rw [wf.root_of_parent h]
    exact .head' h (wf.root_spec p).2
  have wf' : (s.reparent t (s.root t)).WellFormed := by
    constructor
    · refine wf.acyclic.mono fun u q h' => ?_
      rw [parent_reparent h.lt] at h'
      split at h'
      case isTrue same => exact same ▸ h' ▸ way
      case isFalse => exact .single h'
    · intro u q h'
      rw [parent_reparent h.lt] at h'
      rw [size]
      split at h'
      · exact h' ▸ wf.root_lt h.lt
      · exact wf.parent_lt h'
    · intro u v h'
      rw [size]
      have same := congrArg TypeNode.target (@contents_reparent s t u (s.root t) h.lt)
      exact wf.target_lt (same.symm.trans h')
  refine ⟨wf', size, fun u => ?_, fun u => isRoot_reparent h, fun u => contents_reparent h.lt⟩
  -- Every way up is a way up still, with a shortcut if it comes by.
  obtain ⟨top', way'⟩ := wf.root_spec u
  generalize s.root u = r at top' way'
  refine wf'.root_eq ?_ ((isRoot_reparent h).2 top')
  induction way' using head_induction_on with
  | refl => exact .refl
  | @head v q step rest ih =>
    by_cases same : v = t
    · subst same
      rw [← wf.root_eq (.head step rest) top']
      exact .single ((parent_reparent h.lt).2 (by simp))
    · exact .head ((parent_reparent h.lt).2 (by simpa [same] using step)) ih

lemma contents_compressFrom :
    ((s.compressFrom r fuel t).node u).contents = (s.node u).contents := by
  induction fuel generalizing s t with
  | zero => rfl
  | succ fuel ih =>
    rw [compressFrom]
    split
    case h_1 p parent => exact ih.trans (contents_reparent (Parent.lt parent))
    case h_2 => rfl

lemma compressFrom_alike (wf : s.WellFormed) :
    (s.compressFrom (s.root t) fuel t).WellFormed ∧ Alike s (s.compressFrom (s.root t) fuel t) := by
  induction fuel generalizing s t with
  | zero => exact ⟨wf, .refl⟩
  | succ fuel ih =>
    rw [compressFrom]
    split
    case h_1 p parent =>
      obtain ⟨wf', alike⟩ := reparent_alike wf parent
      have same : s.root t = (s.reparent t (s.root t)).root p := by
        rw [alike.root, wf.root_of_parent parent]
      obtain ⟨wf'', alike'⟩ := @ih (s.reparent t (s.root t)) p wf'
      rw [← same] at wf'' alike'
      exact ⟨wf'', alike.trans alike'⟩
    case h_2 => exact ⟨wf, .refl⟩

lemma compress_alike (wf : s.WellFormed) (t : TypeId) :
    (s.compress t).WellFormed ∧ Alike s (s.compress t) :=
  compressFrom_alike wf

section

variable {n : TypeNode}

lemma node_add : (s.add n).2.node t = if t = s.nodes.size then n else s.node t := by
  simp only [add, node, getD_eq_getD_getElem?, getElem?_push]
  split
  · rfl
  · rfl

lemma size_add : (s.add n).2.nodes.size = s.nodes.size + 1 := by
  simp [add]

lemma parent_add (fresh : n.parent = none) : (s.add n).2.Parent t p ↔ s.Parent t p := by
  rw [Parent, node_add]
  split
  case isTrue same =>
    subst same
    simp [Parent, node_of_le, fresh, TypeNode.any]
  case isFalse => rfl

lemma isRoot_add (fresh : n.parent = none) : (s.add n).2.IsRoot t ↔ s.IsRoot t := by
  rw [IsRoot, node_add]
  split
  case isTrue same =>
    subst same
    simp [IsRoot, node_of_le, fresh, TypeNode.any]
  case isFalse => rfl

lemma add_wellFormed (wf : s.WellFormed) (fresh : n.parent = none)
    (known : ∀ u, n.target = some (.type u) → u < s.nodes.size) : (s.add n).2.WellFormed := by
  constructor
  · exact wf.acyclic.mono fun _ _ h => .single ((parent_add fresh).1 h)
  · intro t p h
    rw [size_add]
    exact Nat.lt_succ_of_lt (wf.parent_lt ((parent_add fresh).1 h))
  · intro t u h
    rw [size_add]
    rw [node_add] at h
    split at h
    · exact Nat.lt_succ_of_lt (known u h)
    · exact Nat.lt_succ_of_lt (wf.target_lt h)

lemma root_add (wf : s.WellFormed) (wf' : (s.add n).2.WellFormed) (fresh : n.parent = none) :
    (s.add n).2.root t = s.root t := by
  obtain ⟨top, way⟩ := wf.root_spec t
  refine wf'.root_eq ?_ ((isRoot_add fresh).2 top)
  exact mono (fun _ _ h => (parent_add fresh).2 h) _ _ way

end

section

variable {common : TypeNode}

lemma size_link : (s.link x y common).nodes.size = s.nodes.size := by
  simp [link]

variable (ltx : x < s.nodes.size) (lty : y < s.nodes.size) (ne : x ≠ y)

include ltx lty ne

lemma node_link : (s.link x y common).node t =
    if t = y then { s.node t with parent := some x }
    else if t = x then { common with parent := (s.node t).parent }
    else s.node t := by
  let s1 : TypeStore :=
    { s with nodes := s.nodes.modify x fun n => { common with parent := n.parent } }
  have outer := @node_modify s1 y t (by simpa [s1] using lty) fun n => { n with parent := some x }
  have inner := @node_modify s x t ltx fun n => { common with parent := n.parent }
  refine outer.trans ?_
  rw [show s1.node t = _ from inner]
  by_cases same : t = y
  · simp [same, ne.symm]
  · simp [same]

lemma parent_link : (s.link x y common).Parent t p ↔ if t = y then p = x else s.Parent t p := by
  rw [Parent, node_link ltx lty ne]
  by_cases same : t = y
  · simp [same, eq_comm]
  · by_cases same' : t = x
    · simp [same', ne, Parent]
    · simp [same, same', Parent]

lemma isRoot_link : (s.link x y common).IsRoot t ↔ t ≠ y ∧ s.IsRoot t := by
  rw [IsRoot, node_link ltx lty ne]
  by_cases same : t = y
  · simp [same]
  · by_cases same' : t = x
    · simp [same', ne, IsRoot]
    · simp [same, same', IsRoot]

lemma root_link (wf : s.WellFormed) (wf' : (s.link x y common).WellFormed) (topx : s.IsRoot x)
    (topy : s.IsRoot y) : (s.link x y common).root t = if s.root t = y then x else s.root t := by
  obtain ⟨top, way⟩ := wf.root_spec t
  have way' : ReflTransGen (s.link x y common).Parent t (s.root t) := by
    refine mono (fun u p h => (parent_link ltx lty ne).2 ?_) _ _ way
    have other : u ≠ y := by
      rintro rfl
      cases topy.symm.trans h
    rwa [if_neg other]
  split
  case isTrue same =>
    have last : (s.link x y common).Parent y x := (parent_link ltx lty ne).2 (by simp)
    rw [same] at way'
    exact wf'.root_eq (way'.tail last) ((isRoot_link ltx lty ne).2 ⟨ne, topx⟩)
  case isFalse other => exact wf'.root_eq way' ((isRoot_link ltx lty ne).2 ⟨other, top⟩)

end

section

variable {common : TypeNode}

def verdict? : Option Target → Option Target → Option Bool
  | some (.type _), some (.type _) => none
  | some (.declared t), some (.declared u) => some (t.same u)
  | some (.type _), some (.declared (.pointer _ _)) => none
  | some (.declared (.pointer _ _)), some (.type _) => none
  | some _, some _ => some false
  | _, _ => some true

/-- The types that have to be made equal for a verdict on two targets. There is a new one in the
store if one of the targets is a declared pointer. -/
inductive Descends (s : TypeStore) :
    Option Target → Option Target → TypeStore → TypeId → TypeId → Prop
  | types {t u : TypeId} :
    Descends s (some (.type t)) (some (.type u)) s t u
  | declaredRight {t : TypeId} {quals : List String} {u : C.CType} :
    Descends s (some (.type t)) (some (.declared (.pointer quals u)))
      (s.add (.pointer (some (.declared u)))).2 s.nodes.size t
  | declaredLeft {quals : List String} {u : C.CType} {t : TypeId} :
    Descends s (some (.declared (.pointer quals u))) (some (.type t))
      (s.add (.pointer (some (.declared u)))).2 s.nodes.size t

def settled (s : TypeStore) (a b : TypeId) : TypeStore :=
  (s.compress a).compress b

lemma contents_settled (s : TypeStore) (a b t : TypeId) :
    ((s.settled a b).node t).contents = (s.node t).contents :=
  contents_compressFrom.trans contents_compressFrom

def common? (s : TypeStore) (a b : TypeId) : Option TypeNode :=
  (s.known a).meet? (s.known b)

def target? (s : TypeStore) (a : TypeId) : Option Target :=
  (s.known a).target

-- What two types have in common and point to depends on the contents of their nodes only.
lemma common?_settled :
    ((s.settled a b).node (s.root a)).meet? ((s.settled a b).node (s.root b)) = s.common? a b := by
  have same := congrArg₂ TypeNode.meet? (s.contents_settled a b (s.root a))
    (s.contents_settled a b (s.root b))
  exact same

lemma target?_settled : ((s.settled a b).node (s.root t)).target = s.target? t := by
  have same := congrArg TypeNode.target (s.contents_settled a b (s.root t))
  exact same

def linkIf (s : TypeStore) (verdict : Bool) (x y : TypeId) (common : TypeNode) : TypeStore :=
  if verdict then s.link x y common else s

/-- The step that a verdict on two targets takes. -/
def targetsFrom (fuel : Nat) (s : TypeStore) (x y : Option Target) :
    Except Failure (Bool × TypeStore) :=
  match x, y with
  | some (.type t), some (.type u) => unifyFrom fuel s t u
  | some (.declared t), some (.declared u) => pure (t.same u, s)
  | some (.type t), some (.declared (.pointer _ u)) =>
    let (p, s) := s.add (.pointer (some (.declared u)))
    unifyFrom fuel s p t
  | some (.declared (.pointer _ u)), some (.type t) =>
    let (p, s) := s.add (.pointer (some (.declared u)))
    unifyFrom fuel s p t
  | some _, some _ => pure (false, s)
  | _, _ => pure (true, s)

lemma unifyFrom_succ : unifyFrom (fuel + 1) s a b =
    if s.root a = s.root b then pure (true, s.settled a b)
    else
      match s.common? a b with
      | none => pure (false, s.settled a b)
      | some common =>
        expect (common.signs == .all || common.kinds == .onlyInt) >>= fun _ =>
          targetsFrom fuel (s.settled a b) (s.target? a) (s.target? b) >>= fun (verdict, s2) =>
            pure (verdict, s2.linkIf verdict (s.root a) (s.root b) common) := by
  rw [unifyFrom]
  by_cases same : s.root a = s.root b
  · rw [if_pos same, if_pos (beq_iff_eq.2 same)]
    rfl
  · rw [if_neg same, if_neg (mt beq_iff_eq.1 same), ← settled, common?_settled,
      target?_settled, target?_settled]
    cases s.common? a b with
    | none => rfl
    | some common =>
      have linked (result : Bool × TypeStore) :
          (if result.1 then pure (true, result.2.link (s.root a) (s.root b) common)
            else pure (false, result.2) : Except Failure (Bool × TypeStore)) =
          pure (result.1, result.2.linkIf result.1 (s.root a) (s.root b) common) := by
        rcases result with ⟨_ | _, s2⟩ <;> rfl
      refine bind_congr fun _ => ?_
      rcases s.target? a with _ | t | c <;> rcases s.target? b with _ | u | d
      case some.type.some.declared => cases d <;> exact bind_congr linked
      case some.declared.some.type => cases c <;> exact bind_congr linked
      all_goals exact bind_congr linked

lemma targetsFrom_eq (fuel : Nat) (s : TypeStore) (x y : Option Target) :
    (∃ verdict, verdict? x y = some verdict ∧ targetsFrom fuel s x y = .ok (verdict, s)) ∨
      ∃ s1 p q, Descends s x y s1 p q ∧ targetsFrom fuel s x y = unifyFrom fuel s1 p q := by
  unfold verdict? targetsFrom
  split
  · exact .inr ⟨_, _, _, .types, rfl⟩
  · exact .inl ⟨_, rfl, rfl⟩
  · exact .inr ⟨_, _, _, .declaredRight, rfl⟩
  · exact .inr ⟨_, _, _, .declaredLeft, rfl⟩
  · exact .inl ⟨_, rfl, rfl⟩
  · exact .inl ⟨_, rfl, rfl⟩

/-- What a unification does first, if it returns. -/
inductive Returns (fuel : Nat) (s : TypeStore) (a b : TypeId) : Bool → TypeStore → Prop
  | same :
    s.root a = s.root b →
    Returns fuel s a b true (s.settled a b)
  | unlike :
    s.root a ≠ s.root b →
    s.common? a b = none →
    Returns fuel s a b false (s.settled a b)
  | flat {common : TypeNode} {verdict : Bool} :
    s.root a ≠ s.root b →
    s.common? a b = some common →
    verdict? (s.target? a) (s.target? b) = some verdict →
    Returns fuel s a b verdict ((s.settled a b).linkIf verdict (s.root a) (s.root b) common)
  | deep {s1 s2 : TypeStore} {p q : TypeId} {common : TypeNode} {verdict : Bool} :
    s.root a ≠ s.root b →
    s.common? a b = some common →
    Descends (s.settled a b) (s.target? a) (s.target? b) s1 p q →
    unifyFrom fuel s1 p q = .ok (verdict, s2) →
    Returns fuel s a b verdict (s2.linkIf verdict (s.root a) (s.root b) common)

/-- What a unification that returned has done. -/
lemma unifyFrom_returns (run : unifyFrom (fuel + 1) s a b = .ok (verdict, s')) :
    Returns fuel s a b verdict s' := by
  rw [unifyFrom_succ] at run
  split at run
  case isTrue same =>
    cases run
    exact .same same
  case isFalse ne =>
    split at run
    case h_1 meet =>
      cases run
      exact .unlike ne meet
    case h_2 common meet =>
      obtain ⟨-, -, run⟩ := bind_ok run
      obtain ⟨⟨_, s2⟩, nested, run⟩ := bind_ok run
      cases run
      rcases targetsFrom_eq fuel (s.settled a b) (s.target? a) (s.target? b) with
        ⟨_, flat, eq⟩ | ⟨s1, p, q, descends, eq⟩
      · cases eq.symm.trans nested
        exact .flat ne meet flat
      · exact .deep ne meet descends (eq.symm.trans nested)

/-- Where a unification fails, an expectation is broken or it fails for what the types point to. -/
lemma unifyFrom_fails (run : unifyFrom (fuel + 1) s a b = .error e) :
    ∃ common, s.common? a b = some common ∧
      (e ≠ .endless ∧ (common.signs == .all || common.kinds == .onlyInt) = false ∨
        ∃ s1 p q, Descends (s.settled a b) (s.target? a) (s.target? b) s1 p q ∧
          unifyFrom fuel s1 p q = .error e) := by
  rw [unifyFrom_succ] at run
  split at run
  case isTrue => cases run
  case isFalse =>
    split at run
    case h_1 => cases run
    case h_2 common meet =>
      refine ⟨common, meet, ?_⟩
      cases expected : common.signs == .all || common.kinds == .onlyInt with
      | false =>
        rw [expected] at run
        cases run
        exact .inl ⟨by simp, rfl⟩
      | true =>
        rw [expected] at run
        rcases targetsFrom_eq fuel (s.settled a b) (s.target? a) (s.target? b) with
          ⟨_, flat, eq⟩ | ⟨s1, p, q, descends, eq⟩
        · rw [eq] at run
          cases run
        · refine .inr ⟨s1, p, q, descends, ?_⟩
          rw [eq] at run
          cases nested : unifyFrom fuel s1 p q with
          | error _ =>
            rw [nested] at run
            cases run
            rfl
          | ok _ =>
            rw [nested] at run
            cases run

end

end TypeStore

end Infer

end Decompiler
