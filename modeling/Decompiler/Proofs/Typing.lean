import Decompiler.Eval.Access
import Decompiler.Proofs.Representatives

/-!
# Steps that infer types

The steps of an evaluation that infer types do nothing to the temporaries, the registers and the
statements of the block.
-/

namespace Decompiler

open Asm Code Ensures Array

namespace Infer

structure Types.Bare (t : Types) : Prop where
  context : t.context = none
  targets : ∀ n ∈ t.store.nodes, n.target = none

namespace TypeStore

variable {s : TypeStore}

lemma node_new : (s.add n).2.node (s.add n).1 = n := by
  simp [add, node]

lemma root_new (top : n.parent = none) : (s.add n).2.root (s.add n).1 = (s.add n).1 := by
  unfold root
  cases (s.add n).2.nodes.size with
  | zero => rfl
  | succ fuel => rw [rootFrom, node_new, top]

lemma known_new (top : n.parent = none) : (s.add n).2.known (s.add n).1 = n := by
  rw [known, root_new top, node_new]

lemma targets_iff : (∀ n ∈ s.nodes, n.target = none) ↔ ∀ t, (s.node t).target = none := by
  constructor
  · intro h t
    unfold node
    rw [getD_eq_getD_getElem?]
    cases e : s.nodes[t]? with
    | none => rfl
    | some n => exact h n (mem_of_getElem? e)
  · intro h n mem
    obtain ⟨k, lt, rfl⟩ := mem_iff_getElem.1 mem
    simpa [node, lt] using h k

lemma target_modify {a : Array TypeNode} (h : ∀ n ∈ a, n.target = none)
    (hf : ∀ n, n.target = none → (f n).target = none) : ∀ n ∈ a.modify i f, n.target = none := by
  intro n mem
  obtain ⟨k, lt, rfl⟩ := mem_iff_getElem.1 mem
  have lt' : k < a.size := by simpa using lt
  rw [getElem_modify]
  split
  · exact hf _ (h _ (getElem_mem lt'))
  · exact h _ (getElem_mem lt')

lemma link_targets (h : ∀ n ∈ s.nodes, n.target = none) (target : common.target = none) :
    ∀ n ∈ (s.link x y common).nodes, n.target = none := by
  have replaced :=
    target_modify (i := x) (f := fun n => { common with parent := n.parent }) h fun _ _ => target
  exact target_modify (f := fun n => { n with parent := some x }) replaced fun _ h => h

lemma unify_targets (h : ∀ n ∈ s.nodes, n.target = none)
    (run : s.unify a b = .ok (unified, s')) : ∀ n ∈ s'.nodes, n.target = none := by
  have settled : ∀ n ∈ (s.settled a b).nodes, n.target = none := by
    refine targets_iff.2 fun t => ?_
    have same := congrArg TypeNode.target (s.contents_settled a b t)
    exact same.trans (targets_iff.1 h t)
  have none (t : TypeId) : s.target? t = none :=
    targets_iff.1 h (s.root t)
  cases unifyFrom_returns run with
  | same | unlike => exact settled
  | flat _ meet =>
    unfold linkIf
    split
    · refine link_targets settled ?_
      rw [(TypeNode.meets_of_meet? meet).target, ← target?, ← target?, none, none]
      rfl
    · exact settled
  | deep _ _ descends =>
    rw [none] at descends
    cases descends

end TypeStore

namespace Types.Bare

variable {t : Types}

lemma fresh (h : t.Bare) (target : n.target = none) : Ensures t (fresh n) fun _ t' => t'.Bare := by
  refine .modifyGet ⟨h.context, fun n' mem => ?_⟩
  rcases mem_push.1 mem with mem | rfl
  · exact h.targets n' mem
  · exact target

lemma unify (h : t.Bare) (a b : TypeId) : Ensures t (unify a b) fun _ t' => t'.Bare := by
  refine .get (.bind_lift fun _ e => .bind_modify (.pure ?_))
  exact ⟨h.context, TypeStore.unify_targets h.targets e⟩

lemma pointerTarget (h : t.Bare) (id : TypeId) :
    Ensures t (pointerTarget? id) fun target t' => target = none ∧ t' = t := by
  refine .bind_gets ?_
  rw [show (t.store.known id).target = none from TypeStore.targets_iff.1 h.targets _]
  exact .pure ⟨rfl, rfl⟩

end Types.Bare

end Infer

namespace Eval

open Infer

structure Session.Kept (s s' : Session) : Prop where
  temps : s'.temps = s.temps
  joins : s'.joins = s.joins
  usedJoins : s'.usedJoins = s.usedJoins
  work : s'.work = s.work
  frame : s'.frame = s.frame
  blocks : s'.blocks = s.blocks
  exits : s'.exits = s.exits
  bare : s.types.Bare → s'.types.Bare

namespace Session.Kept

variable {s s' : Session}

lemma refl : s.Kept s :=
  ⟨rfl, rfl, rfl, rfl, rfl, rfl, rfl, id⟩

lemma trans (h : s.Kept s') (h' : s'.Kept s'') : s.Kept s'' :=
  ⟨h'.temps.trans h.temps, h'.joins.trans h.joins, h'.usedJoins.trans h.usedJoins,
    h'.work.trans h.work, h'.frame.trans h.frame, h'.blocks.trans h.blocks,
    h'.exits.trans h.exits, h'.bare ∘ h.bare⟩

lemma infer (h : s.types.Bare → t.Bare) : s.Kept { s with types := t } :=
  ⟨rfl, rfl, rfl, rfl, rfl, rfl, rfl, h⟩

end Session.Kept

lemma infer_ensures {step : Inference α} {Q} (h : Ensures s.types step Q) :
    Ensures s (infer step) fun a s' => ∃ t, s' = { s with types := t } ∧ Q a t := by
  refine .bind (P := fun types s' => types = s.types ∧ s' = { s with types := {} })
    (.modifyGet ⟨rfl, rfl⟩) ?_
  rintro _ _ ⟨rfl, rfl⟩
  rcases r : step.run s.types with ⟨result, t⟩
  rw [show step.run.run s.types = (result, t) from r]
  refine .bind_modify ?_
  refine .lift fun a ok => ?_
  subst ok
  exact ⟨t, rfl, h a t r⟩

abbrev Keeps {α : Type} (s : Session) (x : Evaluation α) (P : α → Prop) : Prop :=
  Ensures s x fun a s' => s.Kept s' ∧ P a

namespace Keeps

variable {α β : Type} {s : Session}

lemma pure (h : P a) : Keeps s (pure a) P :=
  Ensures.pure ⟨.refl, h⟩

lemma bind (hx : Keeps s x P) (hf : ∀ a s1, P a → Keeps s1 (f a) R) : Keeps s (x >>= f) R :=
  Ensures.bind hx fun a s1 ⟨kept, h⟩ => (hf a s1 h).imp fun _ _ ⟨kept', h'⟩ =>
    ⟨kept.trans kept', h'⟩

lemma imp (h : Keeps s x P) (weaker : ∀ a, P a → Q a) : Keeps s x Q :=
  Ensures.imp h fun a _ ⟨kept, h⟩ => ⟨kept, weaker a h⟩

lemma modify {f} (h : s.Kept (f s)) : Keeps s (modify f : Evaluation Unit) fun _ => True :=
  Ensures.modify ⟨h, trivial⟩

lemma infer (h : Ensures s.types step fun a t => (s.types.Bare → t.Bare) ∧ P a) :
    Keeps s (infer step) P := by
  refine (infer_ensures h).imp ?_
  rintro a _ ⟨t, rfl, bare, ha⟩
  exact ⟨.infer bare, ha⟩

end Keeps

section

variable {s : Session}

lemma freshType_keeps (target : n.target = none) : Keeps s (freshType n) fun _ => True :=
  .infer fun _ _ run => ⟨fun bare => bare.fresh target _ _ run, trivial⟩

lemma freshType_sizeBits (target : n.target = none) (parent : n.parent = none)
    (size : n.size = some 32) :
    Ensures s (freshType n) fun t s' => s.Kept s' ∧ s'.types.store.sizeBits t = 32 := by
  intro t s' run
  refine ⟨(freshType_keeps target t s' run).1, ?_⟩
  cases run
  show TypeStore.sizeBits (s.types.store.add n).2 (s.types.store.add n).1 = 32
  simp only [TypeStore.sizeBits, TypeStore.known_new parent, size]

lemma unifyTypes_keeps (a b : TypeId) : Keeps s (unifyTypes a b) fun _ => True :=
  .infer fun _ _ run => ⟨fun bare => bare.unify a b _ _ run, trivial⟩

lemma pointerTarget_keeps (bare : s.types.Bare) (t : TypeId) :
    Keeps s (infer (pointerTarget? t)) fun target => target = none :=
  .infer fun _ _ run => by
    obtain ⟨target, rfl⟩ := bare.pointerTarget t _ _ run
    exact ⟨id, target⟩

lemma tryUnify_keeps (a b : TypeId) : Keeps s (tryUnify a b) fun _ => True :=
  (unifyTypes_keeps a b).bind fun _ _ _ => .pure trivial

lemma literal_keeps (n : Int) : Keeps s (literal n) fun e => ∃ t, e = .literal n t :=
  (freshType_keeps rfl).bind fun t _ _ => .pure ⟨t, rfl⟩

def Casted (e e' : Expr) : Prop :=
  e' = e ∨ ∃ t, e' = .cast e t true false

/-- Converting an expression at most puts a cast around it. -/
lemma asType_keeps (e : Expr) (t : TypeId) (silent : Bool) :
    Keeps s (asType e t silent) (Casted e) := by
  refine (unifyTypes_keeps _ _).bind fun unified s1 _ => ?_
  split
  · split
    · exact .pure (.inr ⟨t, rfl⟩)
    · exact .pure (.inl rfl)
  · exact .pure (.inr ⟨t, rfl⟩)

lemma asNew_keeps (e : Expr) (target : n.target = none) (silent : Bool) :
    Keeps s (asNew e n silent) (Casted e) :=
  (freshType_keeps target).bind fun t _ _ => asType_keeps e t silent

/-- An operation is made of its operands, which may be cast. -/
lemma apply_keeps (operand : o.operand.target = none) (result : o.result.target = none) (l : Expr)
    (op : BinOp) (r : Expr) :
    Keeps s (apply o l op r) fun e => ∃ l' r' t, Casted l l' ∧ Casted r r' ∧
      e = .binary l' op r' t o.floating :=
  (asNew_keeps l operand _).bind fun l' _ hl => (asNew_keeps r operand _).bind fun r' _ hr =>
    (freshType_keeps result).bind fun t _ _ => .pure ⟨l', r', t, hl, hr, rfl⟩

lemma sharedType_keeps [BEq κ] {table keep} (kept : ∀ s t, Session.Kept s (keep s t))
    (key : κ) : Keeps s (sharedType table keep key) fun _ => True := by
  refine get ?_
  split
  · exact Keeps.pure trivial
  · refine (freshType_keeps rfl).bind fun t _ _ => ?_
    exact (Keeps.modify (kept _ _)).bind fun _ _ _ => .pure trivial

lemma declareArgument_keeps (place : Int) (type : TypeId) :
    Keeps s (declareArgument place type) fun _ => True :=
  .modify ⟨rfl, rfl, rfl, rfl, rfl, rfl, rfl, id⟩

lemma argumentAt_keeps (whole : place % 4 = 0) :
    Keeps s (argumentAt place) fun r => ∃ t, r = (.argument place true t, place, t) := by
  have start : place - place % 4 = place := by omega
  refine (sharedType_keeps (fun _ _ => ?_) _).bind fun t _ _ => ?_
  · exact ⟨rfl, rfl, rfl, rfl, rfl, rfl, rfl, id⟩
  · rw [start]
    have no (n : Int) (h : n ≠ 0) : (place == place + n) = false :=
      beq_eq_false_iff_ne.2 (by omega)
    rw [no 3 (by decide), no 2 (by decide)]
    exact .pure ⟨t, rfl⟩

lemma memberType_keeps (base : Expr) (offset : Int) :
    Keeps s (memberType base offset) fun _ => True := by
  refine get ?_
  split
  · exact Keeps.pure trivial
  · refine (freshType_keeps rfl).bind fun t _ _ => ?_
    exact (Keeps.modify ⟨rfl, rfl, rfl, rfl, rfl, rfl, rfl, id⟩).bind fun _ _ _ => .pure trivial

lemma noteAccess_keeps (base : Expr) (offset : Int) :
    Keeps s (noteAccess base offset) fun _ => True := by
  refine ite (fun _ => ?_) fun _ => .pure ⟨.refl, trivial⟩
  refine get (Keeps.modify ?_)
  split
  · exact .refl
  · exact ⟨rfl, rfl, rfl, rfl, rfl, rfl, rfl, id⟩

lemma memberAt_keeps (base : Expr) (offset : Int) (size : Option Int) (name : Option String)
    (type : TypeId) :
    Keeps s (memberAt base offset size name type) fun e =>
      ∃ field, e = .member base offset size field type := by
  refine Keeps.bind (P := fun _ => True) ?_ fun field _ _ => .pure ⟨field, rfl⟩
  exact modifyGet ⟨⟨rfl, rfl, rfl, rfl, rfl, rfl, rfl, id⟩, trivial⟩

end

end Eval

end Decompiler
