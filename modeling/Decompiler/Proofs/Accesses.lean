import Decompiler.Proofs.CallTargets
import Decompiler.Proofs.Writing

/-!
# The places of accesses

An access to memory is written as a member, an element, or a member of an element. Whatever is
known about types, it denotes the address that the operand designates.

Main statements: `access_denotes`, `load_constant`.
-/

namespace Decompiler

open Asm Code

namespace Infer

/-- The size of what a type points to. A declared type has been measured last. -/
inductive PointeeSize (store : TypeStore) (context : Option C.TypeMap) (t : TypeId) : Int → Prop
  | type :
    (store.known t).target = some (.type u) →
    (store.node u).size = some bits →
    PointeeSize store context t (bits / 8)
  | declared :
    (store.known t).target = some (.declared c) →
    (C.variableExtent c).run m = (.ok (n, align), m') →
    context = some m' →
    PointeeSize store context t n

def TypeStore.IsStartOf (s s' : TypeStore) : Prop :=
  s.nodes.toList <+: s'.nodes.toList

structure Types.Adds (σ σ' : Types) : Prop where
  store : σ.store.IsStartOf σ'.store
  context : σ'.context = σ.context

section

variable {σ σ' : Types}

lemma Types.Adds.refl : σ.Adds σ :=
  ⟨List.prefix_rfl, rfl⟩

lemma Types.Adds.trans (h : σ.Adds σ') (h' : σ'.Adds σ'') : σ.Adds σ'' :=
  ⟨h.store.trans h'.store, h'.context.trans h.context⟩

lemma fresh_adds (n : TypeNode) :
    Ensures σ (fresh n) fun t σ' => σ.Adds σ' ∧ (n.parent = none → σ'.store.known t = n) := by
  intro _ _ run
  cases run
  refine ⟨⟨?_, rfl⟩, TypeStore.known_new⟩
  simp [TypeStore.IsStartOf]

lemma ofDeclared_adds (c : C.CType) : Ensures σ (ofDeclared c) fun _ σ' => σ.Adds σ' :=
  .get (.bind_lift fun n _ => (fresh_adds n).imp fun _ _ h => h.1)

lemma pointerToDeclared_adds (c : C.CType) :
    Ensures σ (pointerToDeclared c) fun _ σ' => σ.Adds σ' := by
  refine .get (.bind_lift fun c' _ => ?_)
  split
  all_goals exact (fresh_adds _).bind fun _ _ h => .pure h.1

lemma targetLayout?_still (t : TypeId) : Ensures σ (targetLayout? t) fun _ σ' => σ' = σ := by
  refine .bind_gets ?_
  split
  · refine .get (.bind_lift fun c _ => ?_)
    split
    all_goals exact .pure rfl
  · exact .pure rfl

lemma fieldAt_adds (t : TypeId) (offset size : Int) :
    Ensures σ (fieldAt t offset (some size)) fun _ σ' => σ.Adds σ' := by
  refine .bind (targetLayout?_still t) ?_
  rintro layout _ rfl
  split
  · refine (ofDeclared_adds _).bind fun _ _ h => (pointerToDeclared_adds _).bind fun _ _ h' => ?_
    exact .pure (h.trans h')
  · exact (fresh_adds _).bind fun _ _ h => (fresh_adds _).bind fun _ _ h' => .pure (h.1.trans h'.1)

lemma declared_ensures {step : C.Typing α} (context : σ.context = some m) :
    Ensures σ (declared step) fun a σ' => σ'.store = σ.store ∧
      ∃ m', step.run m = (.ok a, m') ∧ σ'.context = some m' := by
  refine .get ?_
  rw [context]
  rcases run : step.run m with ⟨result, m'⟩
  rw [show step.run.run ((some m).getD {}) = (result, m') from run]
  refine .bind_modify (.lift fun a ok => ⟨rfl, m', ?_, ?_⟩)
  · rw [ok]
  · rw [context]
    rfl

/-- The size that is found for the target of a pointer is its size. -/
lemma pointerTarget?_measures (t : TypeId) :
    Ensures σ (pointerTarget? t) fun r σ' => σ.store.IsStartOf σ'.store ∧
      σ'.context.isSome = σ.context.isSome ∧
        ∀ n u, r = some (n, u) → PointeeSize σ.store σ'.context t n := by
  have nothing {σ : Types} : σ.store.IsStartOf σ.store := List.prefix_rfl
  refine .bind_gets ?_
  split
  · exact .pure ⟨nothing, rfl, nofun⟩
  · rename_i u target
    refine .get ?_
    split
    · exact .pure ⟨nothing, rfl, nofun⟩
    · rename_i size
      refine .pure ⟨nothing, rfl, ?_⟩
      rintro _ _ ⟨⟩
      exact .type target size
  · rename_i c target
    refine .get (.ite (fun _ => .pure ⟨nothing, rfl, nofun⟩) fun known => ?_)
    obtain ⟨m, context⟩ := Option.ne_none_iff_exists'.1 (by simpa using known)
    refine (declared_ensures context).bind ?_
    rintro ⟨size, align⟩ σ1 ⟨same, m', measured, context'⟩
    rw [← same, context]
    refine .ite (fun _ => .pure ⟨nothing, by rw [context']; rfl, nofun⟩) fun _ => ?_
    refine (ofDeclared_adds c).bind fun u σ2 adds => ?_
    have after := adds.context.trans context'
    refine .pure ⟨adds.store, by rw [after]; rfl, ?_⟩
    rintro _ _ ⟨⟩
    exact .declared (same ▸ target) measured after

lemma firstArray_measures :
    Ensures m (firstArray scale fields) fun r m' => ∀ name c, r = some (name, c) →
      ∃ m0 align, (C.variableExtent c).run m0 = (.ok (scale, align), m') := by
  induction fields generalizing m with
  | nil => exact .pure nofun
  | cons f fields ih =>
    refine .get (.bind_lift fun c _ => ?_)
    split
    · refine .bind (P := fun r m' => ∃ m0, (C.variableExtent _).run m0 = (.ok r, m'))
        (fun _ _ run => ⟨m, run⟩) ?_
      rintro ⟨size, align⟩ m' ⟨m0, run⟩
      refine .ite (fun same => .pure ?_) fun _ => ih
      rintro _ _ ⟨⟩
      exact ⟨m0, align, eq_of_beq same ▸ run⟩
    · exact ih

lemma arrayWithin_measures (context : σ.context = some m) :
    Ensures σ (arrayWithin t offset scale) fun r σ' => σ'.store = σ.store ∧
      ∀ name start c, r = some (name, start, c) → ∃ m0 align m',
        (C.variableExtent c).run m0 = (.ok (scale, align), m') ∧ σ'.context = some m' := by
  refine .ite (fun _ => .pure ⟨rfl, nofun⟩) fun _ => (targetLayout?_still t).bind ?_
  rintro layout _ rfl
  split
  · exact .pure ⟨rfl, nofun⟩
  · split
    · exact .pure ⟨rfl, nofun⟩
    · refine (declared_ensures context).bind ?_
      rintro found σ1 ⟨same, m', run, context'⟩
      split
      · refine .pure ⟨same, ?_⟩
        rintro _ _ _ ⟨⟩
        obtain ⟨m0, align, measured⟩ := firstArray_measures _ _ run _ _ rfl
        exact ⟨m0, align, m', measured, context'⟩
      · exact .pure ⟨same, nofun⟩

end

end Infer

namespace Eval

open Infer

section

variable {s : Session} {e x : Expr}

lemma Passes.trans (h : Passes s through e x) (h' : Passes s through x y) : Passes s through e y := by
  induction h with
  | here => exact h'
  | left op _ ih => exact .left op (ih h')
  | right op _ ih => exact .right op (ih h')
  | operand _ ih => exact .operand (ih h')
  | behind isOpen _ ih => exact .behind isOpen (ih h')

variable (through) in
lemma openedFrom_word (valued : s.Valued w) (depth : Nat) (e : Expr) :
    (s.openedFrom depth e).word w = e.word w ∧ Passes s through e (s.openedFrom depth e) := by
  induction depth generalizing e with
  | zero => exact ⟨rfl, .here⟩
  | succ depth ih =>
    unfold Session.openedFrom
    split
    · rename_i id type
      split
      · obtain ⟨same, passes⟩ := ih (s.value id)
        exact ⟨same.trans (valued id).symm, .behind ‹_› passes⟩
      · exact ⟨rfl, .here⟩
    · exact ⟨rfl, .here⟩

def isSum (op : BinOp) : Bool :=
  op == .add

lemma literal_word {fits : Int → Bool} {n : Int} (h : (match x with
    | .literal m _ => if fits m then some m else none
    | _ => none) = some n) : x.word w = .ofInt 32 n := by
  split at h
  · split at h <;> cases h
    rfl
  · cases h

lemma moveOffset_word (valued : s.Valued w)
    (integral : ∀ x, Passes s isSum base x → Integral x) (moved : moveOffset s base offset = (b, k)) :
    b.word w + .ofInt 32 k = base.word w + .ofInt 32 offset ∧ Passes s isSum base b := by
  obtain ⟨same, passes⟩ := openedFrom_word isSum valued s.reach base
  unfold moveOffset Session.opened at moved
  split at moved
  · rename_i left right t floating opened
    rw [opened] at same passes
    obtain rfl : floating = false := integral _ passes
    have sum : left.word w + right.word w = base.word w := same
    dsimp only at moved
    split at moved <;> cases moved
    · rename_i found
      rw [← sum, literal_word found, BitVec.ofInt_add]
      exact ⟨by ac_rfl, passes.trans (.left rfl .here)⟩
    · rename_i found _
      rw [← sum, literal_word found, BitVec.ofInt_add]
      exact ⟨by ac_rfl, passes.trans (.right rfl .here)⟩
    · exact ⟨rfl, .here⟩
  · cases moved
    exact ⟨rfl, .here⟩

lemma completeAddress_word (complete : completeAddress base offset = (b, k)) :
    b.word w + .ofInt 32 k = base.word w + .ofInt 32 offset := by
  unfold completeAddress at complete
  split at complete
  · split at complete
    · cases complete
      show BitVec.ofInt 32 (_ + _) + BitVec.ofInt 32 0 = BitVec.ofInt 32 _ + _
      rw [BitVec.ofInt_add]
      simp
    · cases complete
      rfl
  · cases complete
    rfl

lemma scaledIndex_word (valued : s.Valued w) (integral : ∀ x, Passes s isSum addend x → Integral x)
    (scaled : scaledIndex s addend = .ok (index, scale)) :
    addend.word w = index.word w * .ofInt 32 scale := by
  obtain ⟨same, passes⟩ := openedFrom_word isSum valued s.reach addend
  unfold scaledIndex Session.opened at scaled
  split at scaled
  · rename_i left n t t' floating opened
    cases scaled
    rw [opened] at same passes
    obtain rfl : floating = false := integral _ passes
    exact same.symm
  · rename_i left n t t' floating opened
    rw [opened] at same passes
    obtain rfl : floating = false := integral _ passes
    obtain ⟨_, shifted, scaled⟩ := bind_ok scaled
    cases scaled
    unfold shiftedLeft at shifted
    split at shifted <;> cases shifted
    rw [← same, ← shiftLeft_ofInt]
    show _ <<< _ = (_ * BitVec.ofInt 32 1) <<< _
    simp
  · cases scaled
    simp

end

mutual

inductive Leads (w : Valuation) (s s' : Session) : Expr → Word → Prop
  | word {e} :
    Leads w s s' e (e.word w)
  | array {base a offset field t} :
    Leads w s s' base a →
    Leads w s s' (.member base offset none field t) (a + .ofInt 32 offset)
  | address {e a t} :
    Denotes w s s' e a →
    Leads w s s' (.address e t) a

/-- What lies at an address, with sizes that were found between two states. -/
inductive Denotes (w : Valuation) (s s' : Session) : Expr → Word → Prop
  | member {base a offset size field t} :
    Leads w s s' base a →
    Denotes w s s' (.member base offset size field t) (a + .ofInt 32 offset)
  | element {base a index t store n} :
    Leads w s s' base a →
    s.types.store.IsStartOf store →
    store.IsStartOf s'.types.store →
    PointeeSize store s'.types.context base.type n →
    Denotes w s s' (.element base index t) (a + index.word w * .ofInt 32 n)

end

section

variable {s s0 s' : Session} {base index : Expr}

lemma freshType_adds (n : TypeNode) : Ensures s (freshType n) fun t s' =>
    s.types.Adds s'.types ∧ (n.parent = none → s'.types.store.known t = n) :=
  (infer_ensures (fresh_adds n)).imp fun _ _ ⟨_, same, h⟩ => same ▸ h

lemma memberAt_adds (base : Expr) (offset : Int) (size : Option Int) (name : Option String)
    (type : TypeId) : Ensures s (memberAt base offset size name type) fun e s' =>
      s.types.Adds s'.types ∧ ∃ field, e = .member base offset size field type := by
  intro _ _ run
  cases run
  exact ⟨.refl, _, rfl⟩

lemma finish_denotes {target scale offset size store} (leads : ∀ s', Leads w s0 s' base a)
    (before : s0.types.store.IsStartOf store) (within : store.IsStartOf s.types.store)
    (sized : PointeeSize store s.types.context base.type scale) :
    Ensures s (arrayAccess?.finish (some size) false base index target scale offset) fun e s' =>
      s.types.Adds s'.types ∧
        Denotes w s0 s' e (a + index.word w * .ofInt 32 scale + .ofInt 32 offset) := by
  have element {s' : Session} (adds : s.types.Adds s'.types) :
      Denotes w s0 s' (.element base index target) (a + index.word w * .ofInt 32 scale) :=
    .element (leads s') before (within.trans adds.store) (adds.context.symm ▸ sized)
  refine (infer_ensures (fieldAt_adds _ _ _)).bind ?_
  rintro field _ ⟨t, rfl, adds⟩
  refine .ite (fun _ => ?_) fun none => ?_
  · refine (freshType_adds _).bind fun p s2 ⟨adds2, _⟩ => (memberAt_adds _ _ _ _ _).bind ?_
    rintro _ s3 ⟨adds3, field, rfl⟩
    have all := (adds.trans adds2).trans adds3
    exact .pure ⟨all, .member (.address (element all))⟩
  · have zero : offset = 0 := by simp_all
    subst zero
    exact .pure ⟨adds, by simpa using element adds⟩

/-- An element that is written for a sum denotes what the sum designates. -/
lemma arrayAccess?_denotes (valued : s.Valued w) (offset size : Int)
    (integral : ∀ x, Passes s isSum e x → Integral x) (context : s.types.context.isSome) :
    Ensures s (arrayAccess? e offset (some size) false) fun r s' =>
      s.types.store.IsStartOf s'.types.store ∧
        ∀ item, r = some item → Denotes w s s' item (e.word w + .ofInt 32 offset) := by
  have nothing {s : Session} : s.types.store.IsStartOf s.types.store := List.prefix_rfl
  obtain ⟨same, passes⟩ := openedFrom_word isSum valued s.reach e
  refine .bind_gets ?_
  unfold Session.opened
  split
  · rename_i left right t floating opened
    rw [opened] at same passes
    obtain rfl : floating = false := integral _ passes
    have sum : left.word w + right.word w = e.word w := same
    refine .bind (P := fun _ s' => s = s') (.get (.pure rfl)) ?_
    rintro one _ rfl
    refine .bind (P := fun _ s' => s = s') (.get (.pure rfl)) ?_
    rintro two _ rfl
    dsimp only
    obtain ⟨base, addend, split, sum, passes⟩ : ∃ base addend,
        (if (one && !two) then (right, left) else (left, right)) = (base, addend) ∧
        base.word w + addend.word w = e.word w ∧ Passes s isSum e addend := by
      split
      · exact ⟨_, _, rfl, by rw [add_comm, sum], passes.trans (.left rfl .here)⟩
      · exact ⟨_, _, rfl, sum, passes.trans (.right rfl .here)⟩
    rw [split]
    refine .get (.bind_lift ?_)
    rintro ⟨index, scale⟩ scaled
    have scaled := scaledIndex_word valued (fun x h => integral x (passes.trans h)) scaled
    refine (infer_ensures (pointerTarget?_measures base.type)).bind ?_
    rintro target _ ⟨σ, rfl, grown, known, measured⟩
    split
    · exact .pure ⟨grown, by simp⟩
    · refine .ite (fun fits => ?_) fun _ => ?_
      · obtain rfl := eq_of_beq fits
        refine (finish_denotes (w := w) (fun _ => .word) nothing grown (measured _ _ rfl)).bind ?_
        rintro item s' ⟨adds, denotes⟩
        refine .pure ⟨grown.trans adds.store, ?_⟩
        rintro _ ⟨⟩
        rwa [← scaled, sum] at denotes
      · obtain ⟨m, context'⟩ := Option.isSome_iff_exists.1 (known.trans context)
        refine (infer_ensures (arrayWithin_measures context')).bind ?_
        rintro array _ ⟨σ', rfl, same, within⟩
        have grown : s.types.store.IsStartOf σ'.store := same ▸ grown
        split
        · exact .pure ⟨grown, by simp⟩
        · rename_i name start c
          obtain ⟨m0, align, m', measured, context'⟩ := within _ _ _ rfl
          refine (freshType_adds _).bind ?_
          rintro p s1 ⟨adds, node⟩
          refine (memberAt_adds _ _ _ _ _).bind ?_
          rintro _ s2 ⟨adds2, field, rfl⟩
          refine (infer_ensures (ofDeclared_adds c)).bind ?_
          rintro u _ ⟨σ3, rfl, adds3⟩
          have pointer : PointeeSize s1.types.store σ3.context p scale :=
            .declared (by rw [node rfl]; rfl) measured
              (((adds.trans adds2).trans adds3).context.trans context')
          refine (finish_denotes (w := w) (fun _ => .array .word) (grown.trans adds.store)
            (adds2.trans adds3).store pointer).bind ?_
          rintro item s' ⟨adds4, denotes⟩
          have all := ((adds.trans adds2).trans adds3).trans adds4
          refine .pure ⟨grown.trans all.store, ?_⟩
          rintro _ ⟨⟩
          have place : base.word w + .ofInt 32 start + index.word w * .ofInt 32 scale +
              .ofInt 32 (offset - start) = e.word w + .ofInt 32 offset := by
            rw [sub_eq_add_neg, BitVec.ofInt_add, BitVec.ofInt_neg]
            grind
          rwa [place] at denotes
  · exact .pure ⟨nothing, by simp⟩

end

def asPointer (base : Expr) (offset : Int) : Evaluation TypeId := do
  tryUnify base.type (← freshType .pointer)
  noteAccess base offset
  memberType base offset

section

variable {s s' : Session} {base root : Expr}

lemma asPointer_keeps (base : Expr) (offset : Int) :
    Keeps s (asPointer base offset) fun _ => True :=
  (freshType_keeps rfl).bind fun _ _ _ => (tryUnify_keeps _ _).bind fun _ _ _ =>
    (noteAccess_keeps _ _).bind fun _ _ _ => memberType_keeps _ _

/-- What an access can be, from the state in which its base is known to be a pointer. -/
inductive Accessed (s s' : Session) (base : Expr) (offset size : Int) : Expr → Prop
  | array {e : Expr} :
    s.types.context.isSome →
    (arrayAccess? base offset (some size) false).run s = (.ok (some e), s') →
    Accessed s s' base offset size e
  | member :
    Accessed s s' base offset size (.member base offset (some size) field t)
  | element {t t' store} :
    offset % size = 0 →
    s.types.store.IsStartOf store →
    store.IsStartOf s'.types.store →
    PointeeSize store s'.types.context base.type size →
    Accessed s s' base offset size (.element base (.literal (offset / size) t) t')

lemma pointed_accessed (type : TypeId)
    (grown : name = none → s1.types.store.IsStartOf s.types.store) :
    Ensures s (infer (pointerTarget? root.type) >>= fun target => match target with
      | some (targetSize, target) =>
        if name.isNone && targetSize == size && k % size == 0 then
          if k != 0 then do
            let index ← freshType (.signed 32)
            return .element root (.literal (k / size) index) target
          else memberAt root k (some size) name target
        else memberAt root k (some size) name type
      | none => memberAt root k (some size) name type) fun e s' => Accessed s1 s' root k size e := by
  have member {s} (name) (t) :
      Ensures s (memberAt root k (some size) name t) fun e s' => Accessed s1 s' root k size e := by
    refine (memberAt_adds _ _ _ _ _).imp ?_
    rintro _ _ ⟨_, field, rfl⟩
    exact .member
  refine (infer_ensures (pointerTarget?_measures _)).bind ?_
  rintro target _ ⟨σ, rfl, within, -, measured⟩
  split
  · refine .ite (fun here => .ite (fun _ => ?_) fun _ => member _ _) fun _ => member _ _
    simp only [Bool.and_eq_true, beq_iff_eq, Option.isNone_iff_eq_none] at here
    obtain ⟨⟨unnamed, rfl⟩, whole⟩ := here
    refine (freshType_adds _).bind fun index s2 added => .pure ?_
    exact .element whole (grown unnamed) (within.trans added.1.store)
      (added.1.context.symm ▸ measured _ _ rfl)
  · exact member _ _

lemma accessAt_cases
    (moved : moveOffset s (completeAddress base offset).1 (completeAddress base offset).2 = (root, k))
    (grows : ∀ s1, s.Kept s1 → s1.types.context.isSome →
      Ensures s1 (arrayAccess? root k (some size) false) fun _ s' =>
        s1.types.store.IsStartOf s'.types.store) :
    Ensures s (accessAt base offset size) fun e s' => ∃ type s1,
      (asPointer root k).run s = (.ok type, s1) ∧ Accessed s1 s' root k size e := by
  unfold accessAt
  dsimp only
  refine .get ?_
  rw [moved]
  refine .bind (fun _ _ run => run) fun t s1 fresh => ?_
  refine .bind (fun _ _ run => run) fun _ s2 unified => ?_
  refine .bind (fun _ _ run => run) fun _ s3 noted => ?_
  refine .bind (fun _ _ run => run) fun u s4 found => ?_
  have pointer : (asPointer root k).run s = (.ok u, s4) := by
    unfold asPointer
    rw [run_bind_of_ok fresh, run_bind_of_ok unified, run_bind_of_ok noted, found]
  refine Ensures.imp (.get ?_)
    fun e s' h => ⟨u, s4, pointer, h⟩
  split
  · rename_i context
    refine .bind (fun _ _ run => run) fun item s5
      run => ?_
    have grown := grows s4 (asPointer_keeps _ _ _ _ pointer).1 context _ _ run
    split
    · exact .pure (.array context run)
    · refine (infer_ensures (fieldAt_adds _ _ _)).bind ?_
      rintro field _ ⟨σ, rfl, adds⟩
      refine .ite (fun named => ?_) fun _ => pointed_accessed _ fun _ => grown.trans adds.store
      refine .skip fun _ _ => ?_
      exact pointed_accessed _ fun none => by simp [none] at named
  · exact pointed_accessed _ fun _ => List.prefix_rfl

lemma Session.Kept.valued (kept : s.Kept s') (valued : s.Valued w) : s'.Valued w := by
  intro id
  rw [valued id, value, value, temp, temp, kept.temps]

lemma Session.Kept.passes (kept : s.Kept s') (h : Passes s' through e x) :
    Passes s through e x := by
  have temp (id) : s'.temp id = s.temp id := by
    rw [temp, temp, kept.temps]
  induction h with
  | here => exact .here
  | left op _ ih => exact .left op ih
  | right op _ ih => exact .right op ih
  | operand _ ih => exact .operand ih
  | behind isOpen _ ih =>
    rw [value, temp] at ih
    exact .behind (temp _ ▸ isOpen) ih

/-- An access denotes the sum of its base and its offset. -/
lemma accessAt_denotes (valued : s.Valued w) (integral : ∀ x, Passes s isSum base x → Integral x) :
    Ensures s (accessAt base offset size) fun e s' => ∃ root k type s1,
      (asPointer root k).run s = (.ok type, s1) ∧
        Denotes w s1 s' e (base.word w + .ofInt 32 offset) := by
  rcases complete : completeAddress base offset with ⟨b, k0⟩
  rcases moved : moveOffset s b k0 with ⟨root, k⟩
  have integral0 : ∀ x, Passes s isSum b x → Integral x := by
    unfold completeAddress at complete
    split at complete
    · split at complete <;> cases complete
      · rintro x ⟨⟩
        trivial
      · exact integral
    · cases complete
      exact integral
  obtain ⟨same, passes⟩ := moveOffset_word valued integral0 moved
  rw [completeAddress_word complete] at same
  have arrays {s1} (kept : s.Kept s1) := arrayAccess?_denotes (kept.valued valued)
    k size fun x h => integral0 x (passes.trans (kept.passes h))
  refine (accessAt_cases (by rw [complete]; exact moved) fun s1 kept context =>
    (arrays kept context).imp fun _ _ h => h.1).imp ?_
  rintro e s' ⟨type, s1, pointer, accessed⟩
  refine ⟨root, k, type, s1, pointer, same ▸ ?_⟩
  cases accessed with
  | array context run => exact (arrays (asPointer_keeps _ _ _ _ pointer).1 context _ _ run).2 e rfl
  | member => exact .member .word
  | element whole before within sized =>
    have product : BitVec.ofInt 32 (k / size) * .ofInt 32 size = .ofInt 32 k := by
      rw [← BitVec.ofInt_mul, Int.ediv_mul_cancel (Int.dvd_of_emod_eq_zero whole)]
    exact product ▸ .element .word before within sized

def baseOf : Address → Evaluation Expr
  | .atRegister _ r => read r
  | .atSymbol _ name => addressOfSymbol name

lemma access_run (aside : ∀ offset r, a = .atRegister offset r →
      s.frame.isStackRegister r = false) :
    (access a size isStore).run s = (baseOf a >>= fun base => accessAt base a.offset size).run s := by
  cases a with
  | atRegister offset r =>
    unfold access
    rw [run_bind_of_ok (x := get) rfl, aside _ _ rfl]
    rfl
  | atSymbol offset name => rfl

end

/-- An access to memory off the stack denotes the address that its operand designates, if no sum of
floating-point numbers is taken for one of addresses. -/
theorem access_denotes {a : Address} {size : Int} {isStore : Bool} {s s' : Session} {e : Expr}
    (aside : ∀ offset r, a = .atRegister offset r → s.frame.isStackRegister r = false)
    (run : (access a size isStore).run s = (.ok e, s')) :
    ∃ base s₀, (baseOf a).run s = (.ok base, s₀) ∧
      ∀ w : Valuation, s₀.Valued w → (∀ x, Passes s₀ isSum base x → Integral x) →
        ∃ root k type s₁, (asPointer root k).run s₀ = (.ok type, s₁) ∧
          Denotes w s₁ s' e (base.word w + .ofInt 32 a.offset) := by
  rw [access_run aside] at run
  obtain ⟨base, s₀, based, run⟩ := run_bind_ok run
  exact ⟨base, s₀, based, fun w valued integral => accessAt_denotes valued integral _ _ run⟩

def farBehind (floating : Bool) : Session where
  rodata := {}
  types := { store := { nodes := #[.pointer (some (.type 1)), .signed 32, .any, .any] } }
  work := {
    registers := .ofList
      [(⟨"a0"⟩, .binary (.symbol "p" 0) .add (.literal 0x8000 2) 3 floating)] }

def symbolAt16 : Valuation where
  temp _ := 0
  leaf
    | .symbol _ _ => 16
    | _ => 0

theorem access_denotes_farBehind :
    ∃ e s' s₁, (access (.atRegister 8 ⟨"a0"⟩) 4 false).run (farBehind false) = (.ok e, s') ∧
      Denotes symbolAt16 s₁ s' e 0x8018 := by
  obtain ⟨e, run⟩ := run_of_isOk (x := access (.atRegister 8 ⟨"a0"⟩) 4 false)
    (s := farBehind false) (by decide +kernel)
  obtain ⟨base, s₀, based, denotes⟩ := access_denotes (fun _ _ same => by cases same; rfl) run
  obtain ⟨rfl, rfl⟩ : .binary (.symbol "p" 0) .add (.literal 0x8000 2) 3 false = base ∧
      farBehind false = s₀ := by
    cases based
    exact ⟨rfl, rfl⟩
  obtain ⟨_, _, _, s₁, -, denotes⟩ := denotes symbolAt16 (fun _ => rfl) fun x passes => by
    cases passes with
    | here => rfl
    | left _ passes | right _ passes =>
      cases passes
      trivial
  exact ⟨e, _, s₁, run, denotes⟩

/-- A sum of floating-point numbers is taken for a sum of addresses. -/
theorem access_denotes_floating :
    ∃ e s', (access (.atRegister 8 ⟨"a0"⟩) 8 false).run (farBehind true) = (.ok e, s') ∧
      ∀ s₁, ¬ Denotes symbolAt16 s₁ s' e 8 := by
  have shape : ((access (.atRegister 8 ⟨"a0"⟩) 8 false).run (farBehind true)).1.toOption.any
      (·.identical (.member (.symbol "p" 0) 0x8008 (some 8) 0 5)) = true := by
    decide +kernel
  obtain ⟨e, run⟩ := run_of_isOk (x := access (.atRegister 8 ⟨"a0"⟩) 8 false)
    (s := farBehind true) (by decide +kernel)
  rw [run] at shape
  obtain rfl := Expr.eq_of_identical shape
  refine ⟨_, _, run, fun s₁ denotes => ?_⟩
  generalize place : (8 : Word) = a at denotes
  cases denotes with
  | member leads =>
    cases leads
    revert place
    decide

section

variable {s s' : Session} {a : Address}

lemma Session.Agrees.opened (h : s.Agrees s') (e : Expr) : s'.opened e = s.opened e := by
  have deep (depth) (e) : s'.openedFrom depth e = s.openedFrom depth e := by
    induction depth generalizing e with
    | zero => rfl
    | succ depth ih =>
      unfold openedFrom
      split
      · rename_i id _
        rw [ih, h.value, show (s'.temp id).isOpen = (s.temp id).isOpen from
          (congrArg Temp.isOpen (h.temp id) :)]
      · rfl
  rw [Session.opened, Session.opened, h.reach, deep]

structure Single (s : Session) (base : Expr) : Prop where
  literal : ∀ n t, base ≠ .literal n t
  sum : ∀ l r t floating, s.opened base ≠ .binary l .add r t floating

/-- An access whose base cannot be opened has that base. -/
lemma accessAt_single (single : Single s base) : Ensures s (accessAt base offset size) fun e _ =>
      (∃ field t, e = .member base offset (some size) field t) ∨ ∃ index t, e = .element base index t := by
  have moved : moveOffset s (completeAddress base offset).1 (completeAddress base offset).2 =
      (base, offset) := by
    have complete : completeAddress base offset = (base, offset) := by
      unfold completeAddress
      split
      · exact absurd rfl (single.literal _ _)
      · rfl
    rw [complete]
    unfold moveOffset
    split
    · exact absurd ‹_› (single.sum _ _ _ _)
    · rfl
  have noArray {s1} (kept : s.Kept s1) : Ensures s1
      (arrayAccess? base offset (some size) false) fun r s' => r = none ∧ s1 = s' := by
    have agrees : s.Agrees s1 := ⟨kept.blocks, kept.joins, kept.usedJoins, by rw [kept.temps]⟩
    refine .bind_gets ?_
    rw [agrees.opened base]
    split
    · exact absurd ‹_› (single.sum _ _ _ _)
    · exact .pure ⟨rfl, rfl⟩
  refine (accessAt_cases moved fun s1 kept _ => (noArray kept).imp ?_).imp ?_
  · rintro _ _ ⟨-, rfl⟩
    exact List.prefix_rfl
  · rintro e s' ⟨type, s1, pointer, accessed⟩
    cases accessed with
    | array _ run => cases (noArray (asPointer_keeps _ _ _ _ pointer).1 _ _ run).1
    | member => exact .inl ⟨_, _, rfl⟩
    | element => exact .inr ⟨_, _, rfl⟩

inductive Designates (s : Session) (name : String) (k : Int) : Address → Prop
  | register :
    r ≠ .zero →
    s.frame.isStackRegister r = false →
    s.work.registers.get? r = some x →
    s.opened x = .address (.symbol name t) t' →
    Designates s name k (.atRegister k r)
  | symbol :
    Designates s name k (.atSymbol k name)

section

variable (h : Designates s name k a)

include h

lemma Designates.aside :
    ∀ offset r, a = .atRegister offset r → s.frame.isStackRegister r = false := by
  rintro offset r rfl
  cases h
  assumption

lemma Designates.infer (σ : Types) : Designates { s with types := σ } name k a := by
  have agrees : s.Agrees { s with types := σ } := ⟨rfl, rfl, rfl, rfl⟩
  cases h with
  | register other aside content opened =>
    exact .register other aside content ((agrees.opened _).trans opened)
  | symbol => exact .symbol

lemma baseOf_designated : Ensures s (baseOf a) fun base s0 => s.Noted s0 ∧ Single s0 base ∧
      ∀ name' t t', s0.opened base = .address (.symbol name' t) t' → name' = name := by
  cases h with
  | @register r x t t' other _ content opened =>
    have same (no : ∀ id t, x ≠ .temp id t) : x = .address (.symbol name t) t' :=
      (openedFrom_of_ne no).symm.trans opened
    refine .get (.ite (fun zero => absurd (eq_of_beq zero) other) fun _ => ?_)
    rw [content]
    split
    · contradiction
    · cases ‹some x = _›
      cases same (by simp)
    · cases ‹some x = _›
      cases same (by simp)
    · cases ‹some x = _›
      refine .pure ⟨{}, ⟨?_, fun _ _ _ _ sum => ?_⟩, fun _ _ _ address => ?_⟩
      · rintro n t rfl
        cases same (by simp)
      · cases opened.symm.trans sum
      · cases opened.symm.trans address
        rfl
  | symbol =>
    refine (addressOfSymbol_noting.noted (u := false)).ensures.and
      (addressOfSymbol_ensures name) |>.imp ?_
    rintro base s0 ⟨noted, address⟩
    have opened : s0.opened base = base := openedFrom_of_ne (by cases address <;> simp)
    refine ⟨noted, ⟨by cases address <;> simp, ?_⟩, ?_⟩
    · cases address <;> simp [opened]
    · rw [opened]
      rintro _ _ _ rfl
      cases address
      rfl

lemma access_designated : Ensures s (access a size isStore) fun e s' => s'.rodata = s.rodata ∧
      (∀ n t, e ≠ .literal n t) ∧ ∀ base offset n field t, e = .member base offset n field t →
        ∀ name' t t', s'.opened base = .address (.symbol name' t) t' → name' = name := by
  rw [Ensures, access_run h.aside]
  refine (baseOf_designated h).bind fun base s0 ⟨noted, single, named⟩ => ?_
  have quiet := @accessAt_noting false base a.offset size
  refine (quiet.agrees.ensures.and (quiet.noted.ensures.and (accessAt_single single))).imp ?_
  rintro e s' ⟨agrees, noted', shape⟩
  refine ⟨noted'.rodata.trans noted.rodata, ?_, ?_⟩
  · rcases shape with ⟨_, _, rfl⟩ | ⟨_, _, rfl⟩ <;> nofun
  rintro _ _ _ _ _ rfl name' t t' opened
  rcases shape with ⟨_, _, same⟩ | ⟨_, _, same⟩ <;> cases same
  exact named _ _ _ ((agrees.opened _).symm.trans opened)

end

lemma constantLoad?_bytes {size} (named : ∀ base offset m field t,
      e = .member base offset m field t →
        ∀ name' t t', s'.opened base = .address (.symbol name' t) t' → name' = name)
    (data : s'.rodata = s.rodata) (constant : constantLoad? s' e size = some n) :
    ∃ bytes, (s.rodata.values.get? name).bind leadingBytes? = some bytes ∧ size ≤ bytes.length ∧
      n = bigEndian (bytes.take size) := by
  unfold constantLoad? at constant
  split at constant
  · split at constant
    · rename_i opened
      obtain rfl := named _ _ _ _ _ rfl _ _ _ opened
      rw [data] at constant
      split at constant
      · rename_i bytes leading
        split at constant <;> cases constant
        exact ⟨bytes, leading, ‹_›, rfl⟩
      · cases constant
    · cases constant
  · cases constant

end

/-- A floating-point constant that is read from a symbol is made of the first bytes of the symbol,
at whatever offset it is read. -/
theorem load_constant {args : List Operand} {node : TypeNode} {a : Address} {s s' : Session}
    {name : String} {n k : Int} {size : Nat} {t : TypeId}
    (float : node = .single ∧ size = 4 ∨ node = .double ∧ size = 8)
    (found : addressAt args 1 = .ok a) (designates : Designates s name k a)
    (run : (load args node).run s = (.ok (.literal n t), s')) :
    ∃ bytes, (s.rodata.values.get? name).bind leadingBytes? = some bytes ∧ size ≤ bytes.length ∧
      n = bigEndian (bytes.take size) := by
  obtain ⟨type, _, fresh, run⟩ := run_bind_ok run
  obtain ⟨σ, rfl, -, known⟩ := infer_ensures (fresh_adds node) _ _ fresh
  obtain ⟨bits, _, sized, run⟩ := run_bind_ok run
  cases sized
  have sized : σ.store.sizeBits type / 8 = size := by
    rcases float with ⟨rfl, rfl⟩ | ⟨rfl, rfl⟩
    all_goals
      rw [TypeStore.sizeBits, known rfl]
      rfl
  obtain ⟨a', _, operand, run⟩ := run_bind_ok run
  rw [found] at operand
  cases operand
  obtain ⟨e, s₂, accessed, run⟩ := run_bind_ok run
  obtain ⟨data, other, named⟩ := access_designated (designates.infer σ) _ _ accessed
  have asked {s₃} (run : (asType e type true).run s₂ = (.ok (.literal n t), s₃)) : False := by
    obtain ⟨-, same | ⟨_, same⟩⟩ := asType_keeps _ _ _ _ _ run
    · exact other _ _ same.symm
    · cases same
  obtain ⟨isFloat, _, asks, run⟩ := run_bind_ok run
  cases asks
  split at run
  · obtain ⟨_, _, got, run⟩ := run_bind_ok run
    cases got
    split at run
    · rename_i value constant
      cases run
      rw [sized] at constant
      exact constantLoad?_bytes named data constant
    · exact (asked run).elim
  · exact (asked run).elim

def twoNumbers : Session where
  rodata := { values := .ofList [("D", ⟨[.bytes [0x3f, 0x80, 0, 0, 0x40, 0, 0, 0]], false⟩)] }
  work := { registers := .ofList [(⟨"at"⟩, .address (.symbol "D" 0) 1)] }

def loadedFrom (operand : Operand) : Option Expr :=
  ((load ["f0", operand] .single).run twoNumbers).1.toOption

theorem load_constant_twoNumbers :
    ∃ n t bytes, loadedFrom (.memory ⟨"at"⟩) = some (.literal n t) ∧
      (twoNumbers.rodata.values.get? "D").bind leadingBytes? = some bytes ∧
        n = bigEndian (bytes.take 4) := by
  have check : (loadedFrom (.memory ⟨"at"⟩)).any (·.identical (.literal 0x3f800000 0)) = true := by
    decide +kernel
  obtain ⟨e, loaded, same⟩ := (Option.any_eq_true _ _).1 check
  obtain rfl := Expr.eq_of_identical same
  obtain ⟨bytes, leading, -, value⟩ := load_constant (.inl ⟨rfl, rfl⟩) rfl
    (.register (by decide) rfl rfl rfl) (eq_of_toOption loaded)
  exact ⟨_, _, bytes, loaded, leading, value⟩

/-- The number behind the first one is taken for the first one. -/
theorem load_constant_second :
    (loadedFrom (.memoryAt (.literal 4) ⟨"at"⟩)).bind Expr.literal? = some 0x3f800000 ∧
      ((twoNumbers.rodata.values.get? "D").bind leadingBytes?).map
        (fun bytes => bigEndian ((bytes.drop 4).take 4)) = some 0x40000000 := by
  decide +kernel

end Eval

end Decompiler
