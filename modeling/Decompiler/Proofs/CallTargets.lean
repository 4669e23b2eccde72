import Decompiler.Eval.Function
import Decompiler.Proofs.Multiples

/-!
# The targets of calls

A call goes where its operand leads before the instruction in its delay slot takes effect, although
that instruction is evaluated first. What is called is a symbol, a number, of which only sixteen
bits are kept, or what the register of an indirect call held.

Main statement: `call_target`.
-/

namespace Decompiler.Eval

open Asm Code Infer Decompiler.Flow Session

inductive AddressOf (name : String) : Expr → Prop where
  | symbol : AddressOf name (.symbol name t)
  | cast : AddressOf name (.cast (.symbol name t) t' true false)
  | address : AddressOf name (.address (.symbol name t) t')
  | string : AddressOf name (.string bytes t)

/-- What is read where a register holds an expression. -/
inductive Reread : Expr → Expr → Prop where
  | same : Reread e e
  | argument : Reread (.argument place false t) (.argument place true t')
  | forced {id t} : Reread (.forced id t) (.temp id t)

section

variable {w : Valuation} {s : Session} {args : List Operand} {x : Expr}

lemma read_zero : Ensures s (read .zero) fun e _ => ∃ t, e = .literal 0 t :=
  .get (.ite (fun _ => .skip fun t _ => .pure ⟨t, rfl⟩) fun other => absurd rfl other)

lemma read_reread (other : r ≠ .zero) (content : s.work.registers.get? r = some x)
    (whole : Whole x) : Ensures s (read r) fun e _ => Reread x e := by
  refine .get (Ensures.ite (fun zero => absurd (eq_of_beq zero) other) fun _ => ?_)
  rw [content]
  split
  · contradiction
  · rename_i place type held
    cases held
    refine Ensures.bind (argumentAt_keeps (whole _ _ _ rfl)) ?_
    rintro _ _ ⟨-, t, rfl⟩
    exact .skip fun _ _ => .skip fun _ _ => .pure .argument
  · rename_i held
    cases held
    exact .skip fun _ _ => .pure .forced
  · rename_i held
    cases held
    exact .pure .same

/-- What is read from a register has the value of what the register holds. -/
lemma read_word (respects : w.Respects) (other : r ≠ .zero)
    (content : s.work.registers.get? r = some x) (whole : Whole x) :
    Ensures s (read r) fun e _ => e.word w = x.word w := by
  refine (read_reread other content whole).imp fun e _ h => ?_
  cases h with
  | same | forced => rfl
  | argument => exact respects _ _ (by simp [Expr.same])

lemma valueAt_register (found : args[index]? = some (.register r)) :
    valueAt args index = read r := by
  unfold valueAt registerAt operandAt
  rw [found]
  rfl

lemma callTarget_register (last : args.getLast? = some (.register r)) :
    Ensures s (callTarget "jalr" args) fun f _ =>
      ∃ e s', (read r).run s = (.ok e, s') ∧ Casted e f := by
  have read {index : Nat} (found : args[index]? = some (.register r)) :
      Ensures s (valueAt args index >>= fun e => asNew e .pointer) fun f _ =>
        ∃ e s', (read r).run s = (.ok e, s') ∧ Casted e f := by
    rw [valueAt_register found]
    refine .bind (fun _ _ run => run) ?_
    intro e s' run
    exact Ensures.imp (asNew_keeps e rfl _) fun f _ ⟨_, casted⟩ => ⟨e, s', run, casted⟩
  unfold callTarget
  rw [if_neg (by decide)]
  split
  · exact read last
  · exact .bind_lift fun link _ => .ite (fun _ => .bind_throw _) fun _ => read last
  · exact .throw _

lemma callTarget_number (first : args[0]? = some (.literal n)) :
    Ensures s (callTarget "jal" args) fun f _ => ∃ t, Casted (.literal (Integer.signed16 n) t) f := by
  have immediate : Ensures s (immediateAt args 0) fun e _ => ∃ t, e = .literal n t := by
    unfold immediateAt operandAt
    rw [first]
    refine .ok rfl (.ok rfl (Ensures.bind (literal_keeps n) ?_))
    rintro _ _ ⟨_, t, rfl⟩
    exact .pure ⟨t, rfl⟩
  refine Ensures.bind (P := fun e _ => ∃ t, e = .literal (Integer.signed16 n) t) ?_ ?_
  · refine immediate.bind ?_
    rintro _ _ ⟨t, rfl⟩
    exact Ensures.imp (literal_keeps _) fun _ _ h => h.2
  · rintro _ _ ⟨t, rfl⟩
    exact Ensures.imp (asNew_keeps _ rfl _) fun f _ ⟨_, casted⟩ => ⟨t, casted⟩

lemma symbol_ensures (name : String) : Ensures s (symbol name) fun e _ => ∃ t, e = .symbol name t :=
  .skip fun t _ => .pure ⟨t, rfl⟩

lemma addressOfSymbol_ensures (name : String) :
    Ensures s (addressOfSymbol name) fun e _ => AddressOf name e := by
  refine (symbol_ensures name).bind ?_
  rintro _ s ⟨t, rfl⟩
  refine .get ?_
  split
  · exact .skip fun _ _ => .skip fun _ _ => .pure .string
  · split
    · refine .skip fun _ _ => .ite (fun _ => ?_) fun _ => .pure .address
      refine Ensures.imp (asType_keeps _ _ _) ?_
      rintro _ _ ⟨_, rfl | ⟨t, rfl⟩⟩
      · exact .symbol
      · exact .cast
    · exact .skip fun _ _ => .pure .address

lemma callTarget_symbol (first : args[0]? = some (.symbol name)) :
    Ensures s (callTarget "jal" args) fun f _ => ∃ t, f = .symbol name t := by
  have immediate : Ensures s (immediateAt args 0) fun e _ => AddressOf name e := by
    unfold immediateAt operandAt
    rw [first]
    refine .ok rfl (.ok rfl ((symbol_ensures name).bind ?_))
    rintro _ s ⟨t, rfl⟩
    exact addressOfSymbol_ensures name
  refine Ensures.bind (P := fun e _ => AddressOf name e) (immediate.bind fun e _ h => ?_)
    fun e _ h => ?_
  · cases h <;> exact .pure (by constructor)
  · cases h with
    | symbol | address => exact .pure ⟨_, rfl⟩
    | cast | string => exact .throw _

end

section

variable {w : Valuation} {s s1 s2 : Session} {x : Expr}

lemma value_of_values {id} (h : s.values[id]? = some x) : s.value id = x := by
  simp only [values, List.getElem?_map, Array.getElem?_toList] at h
  obtain ⟨t, found, rfl⟩ := Option.map_eq_some_iff.1 h
  rw [value, temp, Array.getD_eq_getD_getElem?, found]
  rfl

/-- A register that is retained keeps its value, also if it is forced. -/
lemma Session.Retains.word_eq (h : Retains r s s1) (more : s1.values <+: s2.values)
    (valued : s2.Valued w) (content : s.work.registers.get? r = some x) (whole : Whole x) :
    ∃ x1, s1.work.registers.get? r = some x1 ∧ Whole x1 ∧ x1.word w = x.word w := by
  rcases h.content with same | ⟨e, id, type, held, -, forced, stands⟩
  · exact ⟨x, same.trans content, whole, rfl⟩
  · cases content.symm.trans held
    refine ⟨_, forced, nofun, ?_⟩
    rcases stands.mono more with rfl | value
    · rfl
    · rw [← value_of_values value]
      exact valued id

lemma Doing.values {y : Evaluation α} (h : Doing True (· ≠ ⟨"sp"⟩) y) :
    Ensures s y fun _ s' => s.values <+: s'.values :=
  (h.respects (retains_allows _)).ensures.imp fun _ _ retains => retains.values

lemma newTemp_value (value : Expr) :
    Ensures s (newTemp value "ret" true false) fun e s' =>
      s'.values = s.values ++ [value] ∧ ∃ id t, e = .temp id t := by
  refine .bind use_noting.noted.ensures fun _ s1 noted => ?_
  have same : s1.values = s.values := by
    simpa [values] using congrArg Array.toList noted.values
  intro _ _ run
  cases run
  rw [← same]
  simp [values]

lemma callArguments_stored (signature? : Option C.Signature) :
    Ensures s (callArguments signature?) fun as _ => ∀ p ∈ s.work.outgoing, p.1 ∈ as := by
  have last (known : List Expr) (possible : List Register) {s1 : Session} (noted : s.Noted s1) :
      Ensures s1 (do
        let guessed := guessArguments (← get).work.registers possible
        let stored := (← get).work.outgoing.mergeSort fun a b => a.2 ≤ b.2
        modifyWork fun w => { w with outgoing := [] }
        return known ++ guessed ++ stored.map (·.1)) fun as _ =>
          ∀ p ∈ s.work.outgoing, p.1 ∈ as := by
    refine .get (.get (.skip fun _ _ => .pure fun p mem => ?_))
    refine List.mem_append_right _ (List.mem_map_of_mem (List.mem_mergeSort.2 ?_))
    rw [noted.work]
    exact mem
  unfold callArguments
  simp only [pure_bind]
  split
  · refine .ite (fun _ => ?_) fun _ => last _ _ {}
    refine .bind (infer_noting (u := true)).noted.ensures fun slots _ noted => ?_
    exact .bind slotArguments_noting.noted.ensures fun known _ noted' =>
      last _ _ (trans_of _ noted noted')
  · exact last _ _ {}

/-- A call leaves a value that calls the target with all stored arguments. -/
lemma runCall_target :
    Ensures s (runCall mnemonic args) fun _ s' => s.values <+: s'.values ∧
      ∃ f as t s1, (callTarget mnemonic args).run s = (.ok f, s1) ∧
        .call f as t ∈ s'.values.drop s.values.length ∧ ∀ p ∈ s.work.outgoing, p.1 ∈ as := by
  have saved : ∀ r ∈ callerSaved, r ≠ ⟨"sp"⟩ := by decide
  refine .bind (P := fun f s1 => (callTarget mnemonic args).run s = (.ok f, s1) ∧
    s.values <+: s1.values ∧ s1.work = s.work) (fun f s1 run => ⟨run, ?_, ?_⟩)
    fun f s1 ⟨run, grown, same⟩ => .get ?_
  · exact (Doing.noting callTarget_noting).values _ _ run
  · exact (callTarget_noting.noted.ensures _ _ run).work
  refine ((callArguments_doing trivial _).values.and (callArguments_stored _)).bind
    fun as s2 ⟨grown2, stored⟩ => ?_
  rw [same] at stored
  have last (type : TypeId) (hasResult : Bool) (s3 : Session) (grown3 : s2.values <+: s3.values) :
      Ensures s3 (newTemp (.call f as type) "ret" true false >>= fun call => do
        modifyWork fun w => { w with
          registers := callerSaved.foldl (fun rs r => rs.erase r) w.registers }
        protectCalls
        protectReads
        if hasResult then holdCallResult call
        modifyWork fun w => { w with customReturn := false, hasCall := true }) fun _ s' =>
          s.values <+: s'.values ∧ ∃ f as t s1, (callTarget mnemonic args).run s = (.ok f, s1) ∧
            .call f as t ∈ s'.values.drop s.values.length ∧
            ∀ p ∈ s.work.outgoing, p.1 ∈ as := by
    refine (newTemp_value _).bind ?_
    rintro _ s4 ⟨made, id, t, rfl⟩
    refine (afterCall_doing saved (whole_temp id t) _).values.imp fun _ s5 grown5 => ?_
    obtain ⟨front, whole⟩ := (grown.trans grown2).trans grown3
    obtain ⟨more, rest⟩ := grown5
    rw [← rest, made, ← whole, List.append_assoc, List.append_assoc]
    refine ⟨List.prefix_append _ _, f, as, type, s1, run, ?_, stored⟩
    simp
  dsimp only
  split
  · exact (Doing.noting infer_noting).values.bind fun type s3 => last type _ s3
  · exact (Doing.noting freshType_noting).values.bind fun type s3 => last type _ s3

end

section

variable {i slot : Instruction} {r : Register}

lemma args_of_arg (found : i.arg index = .ok operand) : i.args[index]? = some operand := by
  unfold Instruction.arg at found
  split at found
  · cases found
    assumption
  · cases found

/-- The delay slot moves in front of its call, and their first operands differ. -/
lemma withSlot_call {c c' : Cutter} (call : i.mnemonic = "jal" ∨ i.mnemonic = "jalr")
    (h : c.withSlot i slot = .ok c') :
    slot.hasDelaySlot = false ∧ c' = (c.add slot).add i ∧
      ∀ operand, i.args[0]? = some operand → slot.args[0]? ≠ some operand := by
  have kind : i.isLikelyBranch = false ∧ i.isJump = false ∧
      (i.mnemonic == "jal" || i.mnemonic == "jalr") := by
    rw [Instruction.isJump, Instruction.isBranch, Instruction.isLikelyBranch]
    rcases call with call | call <;> rw [call] <;> decide +kernel
  unfold Cutter.withSlot at h
  simp only [kind] at h
  cases plain : slot.hasDelaySlot with
  | true =>
    rw [plain] at h
    cases h
  | false =>
    rw [plain] at h
    refine ⟨rfl, ?_⟩
    cases operands : slot.args with
    | nil =>
      rw [operands] at h
      cases h
      exact ⟨rfl, by simp⟩
    | cons first others =>
      rw [operands] at h
      cases found : i.arg 0 with
      | error _ =>
        rw [found] at h
        cases h
      | ok operand =>
        rw [found] at h
        have here := args_of_arg found
        cases same : first == operand with
        | true =>
          simp only [bind, Except.bind, same] at h
          cases h
        | false =>
          simp only [bind, Except.bind, same] at h
          cases h
          refine ⟨rfl, fun operand' here' first' => ?_⟩
          cases here.symm.trans here'
          cases first'
          simp at same

def General (r : Register) : Prop :=
  r.name.toList.head? ≠ some 'f' ∧ r ∉ [⟨"hi"⟩, ⟨"lo"⟩, conditionRegister, returnRegister]

lemma mnemonic_of_moveToFloat (h : action mnemonic = .moveToFloat) : mnemonic = "mtc1" := by
  unfold action at h
  repeat' split at h
  all_goals cases h
  exact eq_of_beq (by assumption)

lemma eq_of_mem_setWith (mem : r ∈ setWith r') (other : r ≠ returnRegister) : r = r' := by
  unfold setWith at mem
  split at mem <;> simpa [other] using mem

lemma changedAt_mem (out : changedAt i index = .ok rs) (mem : r ∈ rs)
    (other : r ≠ returnRegister) : i.args[index]? = some (.register r) := by
  obtain ⟨operand, found, out⟩ := bind_ok out
  rw [args_of_arg found]
  cases operand with
  | register r' =>
    obtain rfl : setWith r' = rs := Except.ok.inj out
    rw [eq_of_mem_setWith mem other]
  | _ =>
    cases out
    cases mem

lemma General.unset (general : General r) (plain : slot.hasDelaySlot = false)
    (other : slot.mnemonic ≠ "mtc1") (first : slot.args[0]? ≠ some (.register r)) :
    ¬ MayWrite none slot r := by
  obtain ⟨name, listed⟩ := general
  simp only [List.mem_cons, List.not_mem_nil, or_false, not_or] at listed
  obtain ⟨hi, lo, condition, result⟩ := listed
  have noCall : (slot.mnemonic == "jal" || slot.mnemonic == "jalr") = false := by
    rw [Instruction.hasDelaySlot, Bool.or_assoc, Bool.or_eq_false_iff] at plain
    exact plain.2
  rintro (⟨rs, out, mem⟩ | ⟨call, -⟩ | ⟨-, -, target, half, -, partner, mem⟩)
  · unfold outputs at out
    have spec := action_of slot.mnemonic
    cases act : action slot.mnemonic <;> rw [act] at out spec
    case moveToFloat => exact other (mnemonic_of_moveToFloat act)
    case set | loadLower => exact first (changedAt_mem out mem result)
    case call => exact absurd (noCall.symm.trans spec) (by decide)
    case unknown =>
      dsimp only at out
      split at out
      · exact first (changedAt_mem out mem result)
      · cases out
        cases mem
    all_goals
      cases out
      simp_all
  · exact absurd (noCall.symm.trans call) (by decide)
  · obtain ⟨_, -, partner⟩ := bind_ok partner
    obtain ⟨_, -, partner⟩ := bind_ok partner
    obtain ⟨n, -, partner⟩ := bind_ok partner
    cases partner
    rw [eq_of_mem_setWith mem result] at name
    simp [String.toList_append] at name

end

/-- The registers of an evaluation: those that the caller of a function leaves, with the arguments
of the function, what a node starts with after its dominator, and what instructions make of them. -/
inductive Evaluated : Registers → Prop where
  | caller :
    callerRegisters.run s = (.ok rs, s') →
    Evaluated rs
  | usual :
    Evaluated rs₀ →
    (usualArguments rs₀).run s = (.ok rs, s') →
    Evaluated rs
  | declared :
    Evaluated rs₀ →
    (declaredArguments f rs₀).run s = (.ok rs, s') →
    Evaluated rs
  | node :
    Evaluated rs₀ →
    (startRegisters g fx i rs₀).run s = (.ok rs, s') →
    Evaluated rs
  | instruction {s : Session} :
    Evaluated s.work.registers →
    Evaluated ((runInstruction link i).run s).2.work.registers

section

variable {rs : Registers}

/-- No register but the one for conditions holds a part of an argument. -/
def WholeAll (rs : Registers) : Prop :=
  ∀ r e, rs.get? r = some e → Whole e ∨ r = conditionRegister

lemma WholeAll.insert (h : WholeAll rs) (whole : Whole e ∨ r = conditionRegister) :
    WholeAll (rs.insert r e) := by
  intro r' e' found
  rw [Table.get?_insert] at found
  split at found
  case isTrue here =>
    cases found
    rwa [eq_of_beq here]
  case isFalse => exact h _ _ found

lemma WholeAll.erase (h : WholeAll rs) (r : Register) : WholeAll (rs.erase r) := by
  intro r' e' found
  rw [get?_erase] at found
  split at found
  · cases found
  · exact h _ _ found

def KeepsWhole (s s' : Session) : Prop :=
  WholeAll s.work.registers → WholeAll s'.work.registers

instance : IsPreorder Session KeepsWhole where
  refl _ := id
  trans _ _ _ h h' := h' ∘ h

lemma keepsWhole_allows : Allows KeepsWhole True fun _ => True where
  noted h := by
    rw [KeepsWhole, h.work]
    exact id
  working same _ := by
    rw [KeepsWhole, same]
    exact id
  pass _ _ := id
  temp _ _ := id
  set _ whole h := h.insert whole
  clear _ h := h.erase _
  force _ _ _ h := h.insert (.inl (by rintro _ _ _ ⟨⟩))

lemma untouchedArgument_whole (place : Int) (type : TypeId) :
    Ensures s (untouchedArgument place type) fun e _ => Whole e := by
  refine .bind (.expect (Q := fun _ _ => place % 4 = 0) eq_of_beq) fun _ _ word => .pure ?_
  rintro _ _ _ ⟨⟩
  exact word

lemma callerRegisters_whole : Ensures s callerRegisters fun rs _ => WholeAll rs := by
  refine .skip fun t s1 => .foldlM (R := fun rs _ => WholeAll rs) ?_ fun r _ rs s2 h => ?_
  · refine WholeAll.insert ?_ (.inl (by rintro _ _ _ ⟨⟩))
    rintro _ _ ⟨⟩
  · refine (symbol_ensures _).bind ?_
    rintro _ _ ⟨t, rfl⟩
    exact .pure (h.insert (.inl (by rintro _ _ _ ⟨⟩)))

lemma usualArguments_whole (h : WholeAll rs) :
    Ensures s (usualArguments rs) fun rs _ => WholeAll rs := by
  refine .foldlM (R := fun rs _ => WholeAll rs) h fun _ _ rs s1 h => .skip fun t s2 => ?_
  exact (untouchedArgument_whole _ t).bind fun e _ whole => .pure (h.insert (.inl whole))

lemma declaredArguments_whole (f : C.Signature) (h : WholeAll rs) :
    Ensures s (declaredArguments f rs) fun rs _ => WholeAll rs := by
  refine .skip fun slots s1 => ?_
  refine (Ensures.foldlM (R := fun rs _ => WholeAll rs) h fun slot _ rs s2 h => ?_).bind
    fun rs s2 h => .foldlM (R := fun rs _ => WholeAll rs) h fun r _ rs s3 h => ?_
  · refine .skip fun _ s3 => ?_
    split
    · exact (untouchedArgument_whole _ _).bind fun e _ whole => .pure (h.insert (.inl whole))
    · exact .pure h
  · refine .skip fun n s4 => .skip fun t s5 => ?_
    exact (untouchedArgument_whole _ t).bind fun e _ whole => .pure (h.insert (.inl whole))

lemma startRegisters_whole (h : WholeAll rs) :
    Ensures s (startRegisters g fx i rs) fun rs _ => WholeAll rs := by
  refine .skip fun changed s1 => ?_
  refine .foldlM (R := fun rs _ => WholeAll rs) h fun r _ rs s2 h => .skip fun always s3 => ?_
  refine .ite (fun _ => ?_) fun _ => .pure (h.erase r)
  refine .bind (P := fun e _ => ∃ id t, e = .join id t) ?_ ?_
  · exact .skip fun _ _ => .skip fun _ _ => .skip fun _ _ => .pure ⟨_, _, rfl⟩
  · rintro _ _ ⟨id, t, rfl⟩
    exact .pure (h.insert (.inl (by rintro _ _ _ ⟨⟩)))

/-- No step of an evaluation puts a part of an argument into a register. -/
lemma Evaluated.whole (h : Evaluated rs) : WholeAll rs := by
  induction h with
  | caller run => exact callerRegisters_whole _ _ run
  | usual _ run ih => exact usualArguments_whole ih _ _ run
  | declared _ run ih => exact declaredArguments_whole _ ih _ _ run
  | node _ run ih => exact startRegisters_whole ih _ _ run
  | @instruction link i s _ ih =>
    exact (runInstruction_does link i).respects keepsWhole_allows s ih

end

/-- A call that has been cut into a block calls what its operand designates. The instruction in its
delay slot stands before it in the block and must not set the register of an indirect call, which
is ensured where that is the only operand, and a number is cut to sixteen bits. -/
theorem call_target {c c' : Cutter} {i slot : Instruction} {link : Link} {s s₁ s₂ : Session}
    (call : i.mnemonic = "jal" ∨ i.mnemonic = "jalr") (cut : c.withSlot i slot = .ok c')
    (before : (runInstruction link slot).run s = (.ok (), s₁))
    (run : (runInstruction link i).run s₁ = (.ok (), s₂)) :
    c' = (c.add slot).add i ∧ ∃ f as t, .call f as t ∈ s₂.values.drop s₁.values.length ∧
      (∀ name, i.mnemonic = "jal" → i.args[0]? = some (.symbol name) → ∃ t, f = .symbol name t) ∧
      ∀ w : Valuation, w.Respects → s₂.Valued w →
        (∀ n, i.mnemonic = "jal" → i.args[0]? = some (.literal n) →
          f.word w = .ofInt 32 (Integer.signed16 n)) ∧
        ∀ r x, i.mnemonic = "jalr" → i.args.getLast? = some (.register r) → r ≠ .zero →
          s.work.registers.get? r = some x →
          Whole x ∨ Evaluated s.work.registers ∧ r ≠ conditionRegister →
          (i.args.length = 1 ∧ General r ∧ slot.mnemonic ≠ "mtc1" ∨ ¬ MayWrite none slot r) →
            f.word w = x.word w := by
  have act : action i.mnemonic = .call := by
    rcases call with h | h
    · rw [h]
      rfl
    · rw [h]
      rfl
  obtain ⟨plain, order, apart⟩ := withSlot_call call cut
  simp only [runInstruction, act] at run
  obtain ⟨grown, f, as, t, s₁', target, made, -⟩ := runCall_target _ _ run
  refine ⟨order, f, as, t, made, fun name direct first => ?_, fun w respects valued =>
    ⟨fun n direct first => ?_, fun r x indirect last other content known kept => ?_⟩⟩
  · rw [direct] at target
    exact callTarget_symbol first _ _ target
  · rw [direct] at target
    obtain ⟨t, casted⟩ := callTarget_number first _ _ target
    rw [casted.word_eq]
    rfl
  · rw [indirect] at target
    obtain ⟨e, s', read, casted⟩ := callTarget_register last _ _ target
    have whole : Whole x := by
      rcases known with whole | ⟨evaluated, apart⟩
      · exact whole
      · exact (evaluated.whole r x content).resolve_right apart
    have unset : ¬ MayWrite none slot r := by
      rcases kept with ⟨one, general, notMove⟩ | unset
      · obtain ⟨operand, only⟩ := List.length_eq_one_iff.1 one
        rw [only] at last apart
        cases last
        exact general.unset plain notMove (apart _ rfl)
      · exact unset
    have others : ∀ r', MayWrite none slot r' → r' ≠ r := by
      rintro r' may rfl
      exact unset may
    have retains := (runInstruction_doing (fun _ => trivial) others link).respects (retains_allows r) s
    rw [before] at retains
    obtain ⟨x₁, held, whole₁, same⟩ := retains.word_eq grown valued content whole
    rw [casted.word_eq, read_word respects other held whole₁ _ _ read, same]

def throughT9 : Instruction :=
  ⟨"jalr", ["ra", "t9"], .unknown⟩

def moveTo (r : String) : Instruction :=
  ⟨"move", [.register ⟨r⟩, "a0"], .unknown⟩

def twoFunctions : Session where
  rodata := {}
  work := { registers := .ofList [(⟨"t9"⟩, .symbol "f" 0), (⟨"a0"⟩, .symbol "g" 0)] }

def twoAddresses : Valuation where
  temp
    | 0 => 16
    | _ => 0
  leaf
    | .symbol name _ => if name == "f" then 8 else 16
    | _ => 0

def Session.after (s : Session) (i : Instruction) : Session :=
  ((runInstruction (.next 0) i).run s).2

def Session.called (s : Session) (w : Valuation) : List Word :=
  s.values.filterMap fun
    | .call f _ _ => some (f.word w)
    | _ => none

lemma Session.run_after (h : ((runInstruction (.next 0) i).run s).1.isOk) :
    (runInstruction (.next 0) i).run s = (.ok (), s.after i) := by
  obtain ⟨_, run⟩ := run_of_isOk h
  exact run

lemma twoAddresses_respects : twoAddresses.Respects := by
  intro e e' same
  unfold Expr.same at same
  split at same
  case h_16 => rw [Expr.eq_of_identical same]
  all_goals first
    | rfl
    | cases eq_of_beq same; rfl

lemma twoAddresses_valued :
    ((twoFunctions.after (moveTo "a1")).after throughT9).Valued twoAddresses := by
  have few : ∀ id < 5, twoAddresses.temp id =
      (((twoFunctions.after (moveTo "a1")).after throughT9).value id).word twoAddresses := by
    decide +kernel
  have size : ((twoFunctions.after (moveTo "a1")).after throughT9).temps.size = 5 := by
    decide +kernel
  intro id
  by_cases h : id < 5
  · exact few id h
  · rw [value, temp, Array.getD_eq_getD_getElem?,
      Array.getElem?_eq_none (by rw [size]; exact not_lt.1 h)]
    cases id with
    | zero => exact absurd (by decide) h
    | succ _ => rfl

theorem call_target_throughT9 :
    ∃ f as t, .call f as t ∈ ((twoFunctions.after (moveTo "a1")).after throughT9).values ∧
      f.word twoAddresses = 8 := by
  have unset : ¬ MayWrite none (moveTo "a1") ⟨"t9"⟩ :=
    General.unset ⟨by decide, by decide⟩ rfl (by decide) (by decide)
  obtain ⟨-, f, as, t, made, -, words⟩ := call_target (c := {}) (i := throughT9) (.inr rfl) rfl
    (Session.run_after (s := twoFunctions) (i := moveTo "a1") (by decide +kernel))
    (Session.run_after (by decide +kernel))
  obtain ⟨-, indirect⟩ := words _ twoAddresses_respects twoAddresses_valued
  exact ⟨f, as, t, List.mem_of_mem_drop made, indirect ⟨"t9"⟩ (.symbol "f" 0) rfl rfl (by decide)
    rfl (.inl (by rintro _ _ _ ⟨⟩)) (.inr unset)⟩

/-- A call through the second of two registers goes where its delay slot leads, and a call of a
number loses half of it. -/
theorem call_target_lost :
    (({} : Cutter).withSlot throughT9 (moveTo "t9")).isOk = true ∧
      ((twoFunctions.after (moveTo "t9")).after throughT9).called twoAddresses = [16] ∧
      (twoFunctions.after ⟨"jal", [.literal 0x80001234], .unknown⟩).called twoAddresses =
        [0x1234] := by
  decide +kernel

end Decompiler.Eval
