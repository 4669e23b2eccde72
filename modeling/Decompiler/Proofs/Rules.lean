import Decompiler.Proofs.Values

/-!
# What the rules of instructions give

The registers of a block hold expressions for the words in the registers of the machine. From these
the rule of each instruction of a straight piece of code makes an expression for its result.
-/

namespace Decompiler.Eval

open Asm Code Infer Ensures

inductive Content (w : View) (s : Session) : Expr → Word → Prop where
  | forced {id t v} :
    w.vals[id]? = some v →
    Content w s (.forced id t) v
  | held :
    Holds w s 1 e v →
    Content w s e v

structure Ready (w : View) (μ : Machine) (known : List Register) (s : Session) : Prop where
  consistent : Consistent w s
  bare : s.types.Bare
  registers : ∀ r ∈ known, r ≠ .zero →
    ∃ e, s.work.registers.get? r = some e ∧ Content w s e (μ.get r)

abbrev Makes {α : Type} (s : Session) (x : Evaluation α) (P : α → Session → Prop) : Prop :=
  Ensures s x fun a s' => s.Advances s' ∧ P a s'

section

variable {w : View} {μ : Machine} {known : List Register} {s s' : Session} {e : Expr} {v : Word}

lemma hasContext_of_bare (bare : s.types.Bare) : s.hasContext = false := by
  rw [Session.hasContext, bare.context]
  rfl

lemma Content.advances (h : Content w s e v) (advances : s.Advances s') : Content w s' e v := by
  cases h with
  | forced found => exact .forced found
  | held holds => exact .held (holds.advances advances)

lemma Ready.advances (h : Ready w μ known s) (advances : s.Advances s') : Ready w μ known s' := by
  refine ⟨h.consistent.advances advances, advances.bare h.bare, fun r mem other => ?_⟩
  obtain ⟨e, found, content⟩ := h.registers r mem other
  exact ⟨e, by rw [advances.work, found], content.advances advances⟩

namespace Makes

variable {α β : Type} {x : Evaluation α} {f : α → Evaluation β} {P : α → Session → Prop}

lemma bind (hx : Makes s x P) (hf : ∀ a s1, s.Advances s1 → P a s1 → Makes s1 (f a) R) :
    Makes s (x >>= f) R :=
  Ensures.bind hx fun a s1 ⟨advances, h⟩ => (hf a s1 advances h).imp fun _ _ ⟨advances', h'⟩ =>
    ⟨advances.trans advances', h'⟩

lemma pure (h : P a s) : Makes s (pure a) P :=
  Ensures.pure ⟨.refl, h⟩

lemma lift {x : Except Failure α} (h : ∀ a, x = .ok a → P a s) :
    Makes s (liftM x : Evaluation α) P :=
  Ensures.lift fun a e => ⟨.refl, h a e⟩

end Makes

lemma Keeps.makes {x} {P : α → Prop} (h : Keeps s x P) : Makes s x fun a _ => P a :=
  Ensures.imp h fun _ _ ⟨kept, h⟩ => ⟨kept.advances, h⟩

lemma argumentRegister?_mod (h : argumentRegister? place = some r) : place % 4 = 0 := by
  simp only [argumentRegister?, List.lookup] at h
  repeat' split at h
  all_goals simp_all

/-- What is read from a register has the word of the register. -/
lemma read_holds (ready : Ready w μ known s) (mem : r ∈ known) :
    Makes s (read r) fun e s' => Holds w s' 1 e (μ.get r) := by
  refine .get (ite (fun zero => ?_) fun other => ?_)
  · refine imp (literal_keeps 0) fun e s1 ⟨kept, t, h⟩ => ⟨kept.advances, ?_⟩
    rw [h, Machine.get, if_pos (eq_of_beq zero)]
    exact .literal 0 t
  · obtain ⟨e, found, content⟩ := ready.registers r mem fun h => other (by simp [h])
    rw [found]
    split
    · rename_i h
      cases h
    · rename_i offset t h
      cases h
      cases content with
      | held holds =>
        obtain ⟨means, -, -⟩ := holds
        generalize μ.get r = v at *
        cases means with
        | @argument _ _ _ r' place =>
          refine bind (argumentAt_keeps (argumentRegister?_mod place)) ?_
          rintro _ s1 ⟨kept, t', rfl⟩
          refine bind (declareArgument_keeps _ _) fun _ s2 ⟨kept', _⟩ => ?_
          refine bind (tryUnify_keeps _ _) fun _ s3 ⟨kept'', _⟩ => pure ⟨?_, ?_⟩
          · exact ((kept.trans kept').trans kept'').advances
          · exact ⟨.argument place, .of_parts (by simp) (by simp [Session.parts]), le_refl _⟩
    · rename_i id t h
      cases h
      cases content with
      | held holds => cases holds.means
      | forced valued =>
        have lt : id < s.temps.size := by
          rw [← ready.consistent.length]
          exact (getElem?_eq_some_iff.1 valued).1
        refine (use_used ready.consistent.ordered (.forced lt)).bind fun _ s1 used => ?_
        refine pure ⟨used.advances, .temp valued, ?_, le_refl _⟩
        exact fun j inlines _ => used.counted _ (.head _) j (.part (.head _) inlines) trivial
    · rename_i h
      cases h
      cases content with
      | held holds => exact Makes.pure holds
      | forced => simp_all

end

section

variable {w : View} {μ : Machine} {known : List Register} {s : Session} {args : List Operand}
  {index : Nat} {n : Int}

lemma operandAt_eq (h : args[index]? = some operand) : operandAt args index = .ok operand := by
  simp only [operandAt, h]
  rfl

lemma registerAt_eq (h : args[index]? = some (.register r)) : registerAt args index = .ok r := by
  unfold registerAt
  rw [operandAt_eq h]
  rfl

lemma valueAt_holds (ready : Ready w μ known s) (h : args[index]? = some (.register r))
    (mem : r ∈ known) : Makes s (valueAt args index) fun e s' => Holds w s' 1 e (μ.get r) :=
  .ok (registerAt_eq h) (read_holds ready mem)

lemma immediateAt_keeps (h : args[index]? = some (.literal n)) :
    Keeps s (immediateAt args index) fun e => ∃ t, e = .literal n t := by
  refine ok (operandAt_eq h) (ok rfl (bind (literal_keeps n) ?_))
  rintro _ s1 ⟨kept, t, rfl⟩
  exact pure ⟨kept, t, rfl⟩

lemma signedAt_keeps (h : args[index]? = some (.literal n)) :
    Keeps s (signedAt args index) fun e => ∃ t, e = .literal (Integer.signed16 n) t := by
  refine (immediateAt_keeps h).bind ?_
  rintro _ s1 ⟨t, rfl⟩
  exact literal_keeps _

end

section

variable {w : View} {μ : Machine} {known : List Register} {s : Session} {l r e : Expr} {a b : Word}
  {n : Int}

lemma Amount.casted (h : Amount k e) (casted : Casted e e') : Amount k e' := by
  rcases casted with rfl | ⟨t, rfl⟩
  · exact h
  · exact .cast h

lemma apply_holds (operand : o.operand.target = none) (result : o.result.target = none)
    (word : o.floating = false) (operation : op.word? = some f)
    (amount : op = .shiftLeft → ∃ k, Amount k r) (hl : Holds w s bound l a) (hr : Holds w s bound r b) :
    Makes s (apply o l op r) fun e s' => Holds w s' (bound + 2) e (f a b) := by
  refine imp (apply_keeps operand result l op r) ?_
  rintro _ s' ⟨kept, l', r', t, castl, castr, rfl⟩
  refine ⟨kept.advances, Holds.advances ?_ kept.advances⟩
  rw [word]
  refine .binary operation (fun shift => ?_) (hl.casted castl) (hr.casted castr)
  obtain ⟨k, amount⟩ := amount shift
  exact ⟨k, amount.casted castr⟩

lemma foldMultiple?_holds (c : Consistent w s) (h : Holds w s 4 e v) :
    Makes s (foldMultiple? e) fun p s' => ∀ e', p = some e' → Holds w s' 6 e' v := by
  refine .get (Makes.bind (P := fun p s' => ∃ x, Holds w s' 4 p.1 x ∧ v = x * .ofInt 32 p.2)
    (.lift fun _ run => multipleFrom_holds c (by decide) h run) ?_)
  rintro ⟨base, n⟩ s1 _ ⟨x, hx, rfl⟩
  refine ite (fun _ => Makes.pure (by simp)) fun _ => ?_
  refine Makes.bind (Keeps.makes (literal_keeps n)) ?_
  rintro _ s2 advances ⟨t, rfl⟩
  refine Makes.bind (apply_holds rfl rfl rfl rfl (by simp) (hx.advances advances)
    ((Holds.literal n t).weaken (by decide))) fun e' s3 _ holds => Makes.pure ?_
  rintro _ ⟨⟩
  exact holds

lemma foldMultiple_holds (c : Consistent w s) (h : Holds w s 4 e v) :
    Makes s (foldMultiple e) fun e' s' => Holds w s' 6 e' v := by
  refine (foldMultiple?_holds c h).bind fun p s1 advances holds => Makes.pure ?_
  cases p with
  | none => exact (h.weaken (by decide)).advances advances
  | some e' => exact holds e' rfl

lemma pointerPlus_holds (bare : s.types.Bare) (h : Holds w s 1 e a) (t : TypeId) :
    Makes s (pointerPlus e n (.literal n t)) fun e' s' =>
      Holds w s' 3 e' (a + .ofInt 32 n) := by
  refine .get ?_
  simp only [hasContext_of_bare bare, Bool.false_eq_true, if_false]
  refine bind (pointerTarget_keeps bare _) ?_
  rintro _ s1 ⟨kept1, rfl⟩
  refine bind (asNew_keeps _ rfl _) ?_
  rintro imm s2 ⟨kept2, casted⟩
  refine bind (freshType_keeps rfl) fun type s3 kept3 => pure ?_
  have advances := ((kept1.trans kept2).trans kept3.1).advances
  refine ⟨advances, Holds.advances ?_ advances⟩
  exact .binary rfl (by simp) (h.weaken (by decide)) ((Holds.literal n t).casted casted)

lemma plus_holds (bare : s.types.Bare) (h : Holds w s 1 e a) (t : TypeId) :
    Makes s (plus e (.literal n t)) fun e' s' => Holds w s' 3 e' (a + .ofInt 32 n) := by
  have imm : Holds w s 1 (.literal n t) (.ofInt 32 n) := .literal n t
  unfold plus
  split
  · rename_i zero
    cases zero
    refine Makes.pure ?_
    simpa using h.weaken (by decide)
  · refine .get (ite (fun _ => ?_) fun _ => ?_)
    · exact pointerPlus_holds bare h t
    · split
      · rename_i literals _
        cases literals
        refine imp (literal_keeps _) ?_
        rintro _ s' ⟨kept, t', rfl⟩
        refine ⟨kept.advances, ?_⟩
        rw [h.means.unique .literal, ← BitVec.ofInt_add]
        exact (Holds.literal _ t').weaken (by decide)
      · exact apply_holds rfl rfl rfl rfl (by simp) h imm

lemma addImmediate_holds (bare : s.types.Bare) (other : s.frame.isStackRegister base = false)
    (h : Holds w s 1 e a) (target : Register) (t : TypeId) :
    Makes s (addImmediate target (some base) e (.literal n t)) fun e' s' =>
      Holds w s' 3 e' (a + .ofInt 32 n) := by
  refine .get ?_
  simp only [other, Bool.false_eq_true, if_false]
  exact plus_holds bare h t

end

lemma literal_of_isLiteral {e : Expr} (h : e.isLiteral) : ∃ n t, e = .literal n t := by
  obtain ⟨n, found⟩ := Option.isSome_iff_exists.1 h
  exact ⟨n, literal_of_literal? found⟩

section

variable {w : View} {μ : Machine} {known : List Register} {s : Session} {t l r base : Register}

lemma addSigned_holds (ready : Ready w μ known s) (mem : l ∈ known)
    (other : s.frame.isStackRegister l = false) :
    Makes s (addSigned [.register t, .register l, .literal n]) fun e s' =>
      Holds w s' 3 e (μ.get l + .ofInt 32 (Integer.signed16 n)) := by
  refine ok rfl ((read_holds ready mem).bind fun source s1 advances holds => ?_)
  refine bind (signedAt_keeps rfl) ?_
  rintro _ s2 ⟨kept, type, rfl⟩
  have all := advances.trans kept.advances
  refine ok rfl ((addImmediate_holds (all.bare ready.bare) ?_
    (holds.advances kept.advances) t type).imp fun _ _ ⟨advances', h⟩ =>
      ⟨kept.advances.trans advances', h⟩)
  rw [all.frame, other]

lemma onRegisters_holds (ready : Ready w μ known s) (operand : o.operand.target = none)
    (result : o.result.target = none) (word : o.floating = false) (operation : op.word? = some f)
    (noShift : op ≠ .shiftLeft) (meml : l ∈ known) (memr : r ∈ known) :
    Makes s (onRegisters o op 1 [.register t, .register l, .register r]) fun e s' =>
      Holds w s' 3 e (f (μ.get l) (μ.get r)) := by
  refine (valueAt_holds ready rfl meml).bind fun left s1 advances holdsl => ?_
  refine (valueAt_holds (ready.advances advances) rfl memr).bind fun right s2 advances' holdsr => ?_
  exact apply_holds operand result word operation (fun h => (noShift h).elim)
    (holdsl.advances advances') holdsr

lemma folded_holds (c : Consistent w s)
    (h : Makes s (rule args) fun e s' => Holds w s' 4 e v) :
    Makes s (folded rule args) fun e s' => Holds w s' 6 e v :=
  h.bind fun _ _ advances holds => foldMultiple_holds (c.advances advances) holds

lemma signed16_of_lt (pos : 0 ≤ n) (lt : n < 32) : Integer.signed16 n = n := by
  unfold Integer.signed16
  omega

lemma shiftLeft_holds (ready : Ready w μ known s) (pos : 0 ≤ n) (lt : n < 32) (mem : l ∈ known) :
    Makes s (shiftLeft .int (shiftAmount signedAt) [.register t, .register l, .literal n])
      fun e s' => Holds w s' 4 e (μ.get l <<< n.toNat) := by
  refine (valueAt_holds ready rfl mem).bind fun left s1 advances holds => ?_
  refine Makes.bind (P := fun e s' => ∃ t, Casted (.literal n t) e) ?_ ?_
  · refine Keeps.makes ((signedAt_keeps rfl).bind ?_)
    rintro _ s2 ⟨t, rfl⟩
    rw [signed16_of_lt pos lt]
    exact (asNew_keeps _ rfl _).imp fun e casted => ⟨t, casted⟩
  · rintro e s2 advances' ⟨type, casted⟩
    obtain ⟨k, rfl⟩ := Int.eq_ofNat_of_zero_le pos
    have amount : Amount k e := (Amount.literal (by omega)).casted casted
    have operation : BinOp.shiftLeft.word? = some fun a b => a <<< b := rfl
    have shift : μ.get l <<< BitVec.ofInt 32 k = μ.get l <<< (k : Int).toNat := by
      rw [BitVec.shiftLeft_eq', BitVec.ofInt_natCast, BitVec.toNat_ofNat, Int.toNat_natCast,
        Nat.mod_eq_of_lt (by omega)]
    rw [← shift]
    exact apply_holds rfl rfl rfl operation (fun _ => ⟨k, amount⟩)
      ((holds.advances advances').weaken (by decide)) ((Holds.literal k type).casted casted)

/-- A sum of registers, one of which may hold a constant. -/
lemma add_holds (ready : Ready w μ known s) (meml : l ∈ known) (memr : r ∈ known)
    (otherl : s.frame.isStackRegister l = false) (otherr : s.frame.isStackRegister r = false) :
    Makes s (add [.register t, .register l, .register r]) fun e s' =>
      Holds w s' 6 e (μ.get l + μ.get r) := by
  refine (valueAt_holds ready rfl meml).bind fun left s1 advances holdsl => ?_
  have ready1 := ready.advances advances
  refine (valueAt_holds ready1 rfl memr).bind fun right s2 advances' holdsr => ?_
  have holdsl := holdsl.advances advances'
  have ready2 := ready1.advances advances'
  refine .get (.get (Makes.bind (Keeps.makes (freshType_keeps ?_)) fun type s3 advances'' _ => ?_))
  · split <;> rfl
  have holdsl := holdsl.advances advances''
  have holdsr := holdsr.advances advances''
  have ready3 := ready2.advances advances''
  have frame : s3.frame = s.frame := ((advances.trans advances').trans advances'').frame
  refine ite (fun isLiteral => ?_) fun _ => ite (fun isLiteral => ?_) fun _ => ?_
  · obtain ⟨n, type, rfl⟩ := literal_of_isLiteral isLiteral
    rw [holdsr.means.unique .literal]
    refine .ok rfl (.ok rfl ?_)
    exact (addImmediate_holds ready3.bare (frame ▸ otherl) holdsl t type).imp
      fun _ _ ⟨advances, holds⟩ => ⟨advances, holds.weaken (by decide)⟩
  · obtain ⟨n, type, rfl⟩ := literal_of_isLiteral isLiteral
    rw [holdsl.means.unique .literal, BitVec.add_comm]
    refine .ok rfl (.ok rfl ?_)
    exact (addImmediate_holds ready3.bare (frame ▸ otherr) holdsr t type).imp
      fun _ _ ⟨advances, holds⟩ => ⟨advances, holds.weaken (by decide)⟩
  · refine bind (asNew_keeps _ rfl _) fun left' s4 ⟨kept, castl⟩ => ?_
    refine bind (asNew_keeps _ rfl _) fun right' s5 ⟨kept', castr⟩ => ?_
    have advances := (kept.trans kept').advances
    have sum : Holds w s5 4 (.binary left' .add right' type false) (μ.get l + μ.get r) :=
      Holds.weaken (.binary rfl (by simp) ((holdsl.casted castl).advances advances)
        ((holdsr.casted castr).advances advances)) (by decide)
    have ready5 := ready3.advances advances
    refine imp ?_ fun e s' (h : s5.Advances s' ∧ _) => ⟨advances.trans h.1, h.2⟩
    refine (foldMultiple?_holds ready5.consistent sum).bind fun product s6 advances' product => ?_
    split
    · exact Makes.pure (product _ rfl)
    · refine .get ?_
      simp only [hasContext_of_bare (ready5.advances advances').bare, Bool.false_eq_true, if_false]
      exact Makes.pure ((sum.advances advances').weaken (by decide))

end

def Accesses (w : View) (s : Session) (e : Expr) (a : Word) : Prop :=
  ∃ base offset field t x, e = .member base offset (some 4) field t ∧ Holds w s 5 base x ∧
    x + .ofInt 32 offset = a

structure Value (w : View) (s : Session) (m : Memory) (e : Expr) (v : Word) : Prop where
  gives : Gives w.start w.vals m e v
  ripe : s.Ripe w.stale e
  flat : height e ≤ 7
  shallow : e.load? = none → height e ≤ 6

section

variable {w : View} {μ : Machine} {known : List Register} {s s' : Session} {e : Expr} {a : Word}
  {m : Memory}

lemma Accesses.advances (h : Accesses w s e a) (advances : s.Advances s') : Accesses w s' e a := by
  obtain ⟨base, offset, field, t, x, same, holds, address⟩ := h
  exact ⟨base, offset, field, t, x, same, holds.advances advances, address⟩

lemma Holds.toValue (h : Holds w s 6 e v) : Value w s m e v :=
  ⟨.pure h.means, h.ripe, Nat.le_succ_of_le h.flat, fun _ => h.flat⟩

lemma Accesses.toValue (h : Accesses w s e a) (casted : Casted e e') :
    Value w s m e' (m.read a) := by
  obtain ⟨base, offset, field, t, x, rfl, holds, rfl⟩ := h
  have flat := holds.flat
  have ripe : s.Ripe w.stale (.member base offset (some 4) field t) :=
    .of_parts (by simp) (by simpa [Session.parts] using holds.ripe)
  rcases casted with rfl | ⟨type, rfl⟩
  · exact ⟨.load holds.means, ripe, by simp only [height]; omega, by simp [Expr.load?]⟩
  · refine ⟨.cast (.load holds.means), .of_parts (by simp) ?_, by simp only [height]; omega,
      by simp [Expr.load?]⟩
    simpa [Session.parts] using ripe

lemma completeAddress_holds (h : Holds w s 1 base a) (offset : Int) :
    ∃ x, Holds w s 1 (completeAddress base offset).1 x ∧
      x + .ofInt 32 (completeAddress base offset).2 = a + .ofInt 32 offset := by
  unfold completeAddress
  split
  · rename_i n type
    split
    · refine ⟨_, .literal (n + offset) type, ?_⟩
      rw [h.means.unique .literal, BitVec.ofInt_add]
      simp
    · exact ⟨a, h, rfl⟩
  · exact ⟨a, h, rfl⟩

lemma accessAt_accesses (ready : Ready w μ known s) (h : Holds w s 1 base a) (offset : Int) :
    Makes s (accessAt base offset 4) fun e s' => Accesses w s' e (a + .ofInt 32 offset) := by
  obtain ⟨x, holds, address⟩ := completeAddress_holds h offset
  unfold accessAt
  rw [← address]
  generalize completeAddress base offset = p at holds ⊢
  obtain ⟨base, offset⟩ := p
  obtain ⟨y, holds, address⟩ := moveOffset_holds ready.consistent holds offset
  rw [← address]
  refine .get ?_
  generalize moveOffset s base offset = p at holds ⊢
  obtain ⟨base, offset⟩ := p
  refine Makes.bind (Keeps.makes (freshType_keeps rfl)) fun t s1 h1 _ => ?_
  refine Makes.bind (Keeps.makes (tryUnify_keeps _ _)) fun _ s2 h2 _ => ?_
  refine Makes.bind (Keeps.makes (noteAccess_keeps _ _)) fun _ s3 h3 _ => ?_
  refine Makes.bind (Keeps.makes (memberType_keeps _ _)) fun shared s4 h4 _ => .get ?_
  have advances := ((h1.trans h2).trans h3).trans h4
  have bare := advances.bare ready.bare
  simp only [hasContext_of_bare bare, Bool.false_eq_true, if_false]
  refine Makes.bind (Keeps.makes (pointerTarget_keeps bare _)) ?_
  rintro _ s5 h5 rfl
  refine imp (memberAt_keeps base offset (some 4) none shared) ?_
  rintro _ s6 ⟨kept, field, rfl⟩
  have advances := (advances.trans h5).trans kept.advances
  exact ⟨kept.advances, base, offset, field, shared, y, rfl, holds.advances advances, rfl⟩

variable {t r base : Register} {operand : Operand} {offset : Int}

lemma addressAt_eq (h : Op.place? operand = some (base, offset)) :
    addressAt [.register t, operand] 1 = .ok (.atRegister offset base) := by
  unfold Op.place? at h
  split at h
  · cases h
    rfl
  · cases h
    rfl
  · cases h

lemma access_accesses (ready : Ready w μ known s) (mem : base ∈ known)
    (other : s.frame.isStackRegister base = false) (isStore : Bool) :
    Makes s (access (.atRegister offset base) 4 isStore) fun e s' =>
      Accesses w s' e (μ.get base + .ofInt 32 offset) := by
  refine .get ?_
  simp only [other, Bool.false_eq_true, if_false]
  refine (read_holds ready mem).bind fun e s1 advances holds => ?_
  exact accessAt_accesses (ready.advances advances) holds offset

lemma constantLoad?_eq_none (c : Consistent w s) (h : Accesses w s e a) (size : Nat) :
    constantLoad? s e size = none := by
  obtain ⟨base, offset, field, t, x, rfl, holds, -⟩ := h
  unfold constantLoad?
  dsimp only
  split
  · rename_i opened
    have holds := opened_holds c (holds.weaken (by decide)) opened rfl
    cases holds.means
  · rfl

/-- A load gives the word at its address. -/
lemma load_value (ready : Ready w μ known s) (place : Op.place? operand = some (base, offset))
    (mem : base ∈ known) (other : s.frame.isStackRegister base = false) (m : Memory) :
    Makes s (load [.register t, operand] .wordOrPtr) fun e s' =>
      Value w s' m e (m.read (μ.get base + .ofInt 32 offset)) := by
  refine bind (freshType_sizeBits rfl rfl rfl) ?_
  rintro type s1 ⟨kept, size⟩
  refine .get ?_
  have advances := kept.advances
  refine imp ?_ fun e s' (h : s1.Advances s' ∧ _) => ⟨advances.trans h.1, h.2⟩
  have ready1 := ready.advances advances
  simp only [size]
  refine .ok (addressAt_eq place) ((access_accesses ready1 mem (advances.frame ▸ other) false).bind
    fun e s2 advances accesses => .get ?_)
  have value : Makes s2 (asType e type true) fun e s' =>
      Value w s' m e (m.read (μ.get base + .ofInt 32 offset)) :=
    imp (asType_keeps e type true) fun e' s3 h =>
      ⟨h.1.advances, (accesses.advances h.1.advances).toValue h.2⟩
  refine ite (fun _ => .get ?_) fun _ => value
  rw [constantLoad?_eq_none (ready1.advances advances).consistent accesses]
  exact value

/-- A store writes the word of its register to its address. -/
lemma store_accesses (ready : Ready w μ known s)
    (place : Op.place? operand = some (base, offset)) (memr : r ∈ known) (mem : base ∈ known)
    (other : s.frame.isStackRegister base = false) :
    Makes s (store [.register r, operand] (.ofSize 32)) fun store s' => ∃ value dest,
      store = some ⟨value, dest⟩ ∧ Holds w s' 2 value (μ.get r) ∧
        Accesses w s' dest (μ.get base + .ofInt 32 offset) := by
  refine bind (freshType_sizeBits rfl rfl rfl) ?_
  rintro type s1 ⟨kept, size⟩
  refine .get ?_
  have advances := kept.advances
  refine imp ?_ fun e s' (h : s1.Advances s' ∧ _) => ⟨advances.trans h.1, h.2⟩
  simp only [size]
  have ready1 := ready.advances advances
  refine .ok rfl ((read_holds ready1 memr).bind fun value s2 advances2 holds => .get ?_)
  have ready2 := ready1.advances advances2
  refine .ok (addressAt_eq place) (.get ?_)
  have other2 : s2.frame.isStackRegister base = false := by
    rw [advances2.frame, advances.frame, other]
  simp only [other2]
  refine (access_accesses ready2 mem other2 true).bind fun dest s3 advances3 accesses => ?_
  refine Makes.bind (Keeps.makes (tryUnify_keeps _ _)) fun _ s4 advances4 _ => ?_
  refine bind (asType_keeps _ _ _) ?_
  rintro value' s5 ⟨kept, casted⟩
  refine pure ⟨kept.advances, value', dest, rfl, ?_, (accesses.advances advances4).advances kept.advances⟩
  exact (((holds.advances advances3).advances advances4).advances kept.advances).casted casted

end

end Decompiler.Eval
