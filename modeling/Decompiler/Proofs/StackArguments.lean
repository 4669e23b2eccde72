import Decompiler.Eval.Function
import Decompiler.Proofs.CallTargets

/-!
# Arguments on the stack

A value that is stored for a call is kept until the next call of its block, and it is among the
arguments of that call. A block starts without such values, so one that is stored in another block
than the call is lost.

Main statement: `runInstructions_passes`.
-/

namespace Decompiler.Eval

open Asm Code Infer Decompiler.Flow List

def makesCall (i : Instruction) : Bool :=
  i.mnemonic == "jal" || i.mnemonic == "jalr"

/-- A run of instructions without an error. -/
inductive Runs (link : Link) : List Instruction → Session → Session → Prop where
  | nil {s} :
    Runs link [] s s
  | cons {i is s s1 s2} :
    (runInstruction link i).run s = (.ok (), s1) →
    Runs link is s1 s2 →
    Runs link (i :: is) s s2

section

variable {s s' : Session}

lemma runs_of_runInstructions (run : (runInstructions node).run s = (.ok (), s')) :
    Runs node.link node.block.instructions s s' := by
  unfold runInstructions at run
  generalize node.block.instructions = is at run ⊢
  induction is generalizing s with
  | nil =>
    cases run
    exact .nil
  | cons i is ih =>
    obtain ⟨_, s1, first, rest⟩ := run_bind_ok run
    rw [run_tryCatch] at first
    split at first
    case h_1 ran =>
      cases first
      exact .cons ran (ih rest)
    case h_2 => cases first

lemma Runs.split (h : Runs link (is ++ js) s s') : ∃ s1, Runs link is s s1 ∧ Runs link js s1 s' := by
  induction is generalizing s with
  | nil => exact ⟨s, .nil, h⟩
  | cons i is ih =>
    cases h with
    | cons first rest =>
      obtain ⟨s1, front, back⟩ := ih rest
      exact ⟨s1, .cons first front, back⟩

def Session.Awaits (s s' : Session) : Prop :=
  s.work.outgoing <+: s'.work.outgoing

instance : IsPreorder Session Session.Awaits where
  refl _ := prefix_rfl
  trans _ _ _ := IsPrefix.trans

lemma awaits_allows : Allows Session.Awaits False fun _ => True where
  noted h := by
    unfold Session.Awaits
    rw [h.work]
  working _ more := more
  pass _ := False.elim
  temp _ _ := prefix_rfl
  set _ _ := prefix_rfl
  clear _ := prefix_rfl
  force _ _ _ := prefix_rfl

lemma Runs.awaits (h : Runs link is s s') (quiet : ∀ i ∈ is, makesCall i = false) : s.Awaits s' := by
  induction h with
  | nil => exact prefix_rfl
  | @cons i is _ _ _ first _ ih =>
    obtain ⟨here, later⟩ := forall_mem_cons.1 quiet
    have quietly : Doing False (fun _ => True) (runInstruction link i) :=
      @runInstruction_doing i _ none _ (fun made => Bool.false_ne_true (here.symm.trans made))
        (fun _ _ => trivial) link
    exact trans_of Session.Awaits ((quietly.respects awaits_allows).ensures _ _ first) (ih later)

end

/-- What a register is read as. -/
inductive Session.Reads (s : Session) : Register → Expr → Prop where
  | zero :
    s.Reads .zero (.literal 0 t)
  | content :
    r ≠ .zero →
    s.work.registers.get? r = some x →
    Whole x →
    s.Reads r x

section

variable {s : Session} {x : Expr}

lemma read_words (h : s.Reads r x) :
    Ensures s (read r) fun e _ => ∀ w, w.Respects → e.word w = x.word w := by
  cases h with
  | zero =>
    rintro _ _ run w -
    obtain ⟨t, rfl⟩ := read_zero _ _ run
    rfl
  | content other content whole =>
    exact fun _ _ run w respects => read_word respects other content whole _ _ run

lemma Session.Noted.reads (noted : s.Noted s') (h : s.Reads r x) : s'.Reads r x := by
  cases h with
  | zero => exact .zero
  | content other content whole => exact .content other (noted.work ▸ content) whole

/-- An instruction that stores `x` at the place `k` among the arguments of calls. A value that is
only preserved for the caller is not stored. -/
structure Session.StoresArgument (s : Session) (i : Instruction) (k : Int) (x : Expr) : Prop where
  mnemonic : i.mnemonic ∈ ["sb", "sh", "sw", "swc1", "sdc1"]
  operands : ∃ r base, registerAt i.args 0 = .ok r ∧ addressAt i.args 1 = .ok (.atRegister k base) ∧
    s.frame.isStackRegister base = true ∧ s.Reads r x ∧
    ∀ e, s.work.registers.get? r = some e → s.isPreservation e (some k) = false
  outgoing : s.frame.holdsOutgoing k = true
  notLocal : s.frame.holdsLocal k = false
  inside : s.frame.isAbove k = false
  inMemory : 0x10 ≤ k

lemma stackVariable_outgoing (outgoing : s.frame.holdsOutgoing k)
    (notLocal : s.frame.holdsLocal k = false) (inside : s.frame.isAbove k = false) :
    Ensures s (stackVariable k true) fun e _ => ∃ t, e = .outgoing k t := by
  refine .get ?_
  dsimp only
  rw [notLocal, inside, outgoing]
  exact .skip fun t _ => .pure ⟨t, rfl⟩

/-- A store to the arguments of a call keeps the value for it. -/
lemma store_outgoing (h : s.StoresArgument i k x) (node : TypeNode) :
    Ensures s (store i.args node) fun st? s' => s.Noted s' ∧ ∃ st, st? = some st ∧
      (∃ t, st.dest = .outgoing k t) ∧ ∀ w, w.Respects → st.value.word w = x.word w := by
  obtain ⟨r, base, register, address, onStack, reads, own⟩ := h.operands
  refine .bind (freshType_noting (u := true)).noted.ensures fun type s1 noted1 => ?_
  refine .bind (sizeBits_noting (u := true)).noted.ensures fun size s2 noted2 => ?_
  have noted := trans_of _ noted1 noted2
  refine .ok register (.bind (read_noting.noted.ensures.and
    (read_words (noted.reads reads))) fun value s3 ⟨noted3, word⟩ => ?_)
  have noted := trans_of _ noted noted3
  refine .get (.ok address (.get ?_))
  have kept : (s3.frame.isStackRegister base && (s3.work.registers.get? r).any
      fun e => s3.isPreservation e (some (Address.atRegister k base).offset)) = false := by
    rw [noted.work]
    cases held : s.work.registers.get? r with
    | none => exact Bool.and_false _
    | some e =>
      have other := own e held
      unfold Session.isPreservation at other ⊢
      rw [noted.frame]
      exact (congrArg _ other).trans (Bool.and_false _)
  dsimp only
  rw [kept]
  have slot : Ensures s3 (access (.atRegister k base) (size / 8) true) fun e s4 =>
      s3.Noted s4 ∧ ∃ t, e = .outgoing k t := by
    refine access_noting.noted.ensures.and (.get ?_)
    rw [noted.frame, onStack]
    refine stackVariable_outgoing ?_ ?_ ?_
    · rw [noted.frame, h.outgoing]
    · rw [noted.frame, h.notLocal]
    · rw [noted.frame, h.inside]
  refine slot.bind fun dest s4 ⟨noted4, isOutgoing⟩ => ?_
  refine .bind (tryUnify_noting (u := true)).noted.ensures fun _ s5 noted5 => ?_
  refine .bind ((asType_noting (u := true)).noted.ensures.and (asType_keeps _ _ _))
    fun value' s6 ⟨noted6, _, casted⟩ => .pure ⟨?_, _, rfl, isOutgoing, fun w respects => ?_⟩
  · exact trans_of _ noted (trans_of _ noted4 (trans_of _ noted5 noted6))
  · rw [casted.word_eq, word w respects]

lemma store_awaits (h : s.StoresArgument i k x) :
    Ensures s (runInstruction link i) fun _ s' => ∃ v,
      (v, k) ∈ s'.work.outgoing ∧ ∀ w, w.Respects → v.word w = x.word w := by
  have mnemonic := h.mnemonic
  unfold runInstruction
  simp only [mem_cons, not_mem_nil, or_false] at mnemonic
  rcases mnemonic with e | e | e | e | e <;> rw [e]
  all_goals
    refine (store_outgoing h _).bind ?_
    rintro _ s1 ⟨_, ⟨value, dest⟩, rfl, ⟨t, rfl⟩, word⟩
    refine .ite (fun _ => .modify ⟨value, ?_, word⟩) fun low => absurd h.inMemory low
    exact mem_append_right _ (.head _)

end

/-- A value that is stored among the arguments of calls is an argument of the next call of its
block. -/
theorem runInstructions_passes {node : Node} {before mid after : List Instruction}
    {i call : Instruction} {s s' : Session}
    (code : node.block.instructions = before ++ i :: mid ++ call :: after)
    (run : (runInstructions node).run s = (.ok (), s'))
    (quiet : ∀ j ∈ mid, makesCall j = false) (calls : makesCall call = true) :
    ∃ s₁ s₂ s₃, Runs node.link before s s₁ ∧ Runs node.link (i :: mid) s₁ s₂ ∧
      (runInstruction node.link call).run s₂ = (.ok (), s₃) ∧ Runs node.link after s₃ s' ∧
      ∃ f as t, .call f as t ∈ s₃.values.drop s₂.values.length ∧
        ∀ k x, s₁.StoresArgument i k x →
          ∃ v ∈ as, ∀ w, w.Respects → v.word w = x.word w := by
  have runs := runs_of_runInstructions run
  rw [code] at runs
  obtain ⟨s₂, front, back⟩ := runs.split
  obtain ⟨s₁, earlier, first⟩ := front.split
  cases back with
  | cons called later =>
    rename_i s₃
    have made : Ensures s₂ (runInstruction node.link call) fun _ s' => ∃ f as t,
        .call f as t ∈ s'.values.drop s₂.values.length ∧ ∀ p ∈ s₂.work.outgoing, p.1 ∈ as := by
      have act : action call.mnemonic = .call := by
        rcases Bool.or_eq_true .. ▸ calls with e | e <;> rw [eq_of_beq e] <;> rfl
      unfold runInstruction
      rw [act]
      exact runCall_target.imp fun _ _ ⟨_, f, as, t, _, _, made, stored⟩ => ⟨f, as, t, made, stored⟩
    obtain ⟨f, as, t, made, stored⟩ := made _ _ called
    refine ⟨s₁, s₂, s₃, earlier, first, called, later, f, as, t, made, fun k x stores => ?_⟩
    cases first with
    | cons storing between =>
      obtain ⟨v, mem, word⟩ := store_awaits stores _ _ storing
      exact ⟨v, stored _ ((between.awaits quiet).subset mem), word⟩

def enter : List Instruction :=
  [⟨"addiu", ["sp", "sp", .literal (-0x20)], .unknown⟩,
   ⟨"sw", ["ra", .memoryAt (.literal 0x1c) "sp"], .unknown⟩,
   ⟨"addiu", ["t0", .register .zero, .literal 7], .unknown⟩]

def storeFifth : Instruction :=
  ⟨"sw", ["t0", .memoryAt (.literal 0x10) "sp"], .unknown⟩

def wait : Instruction :=
  ⟨"nop", [], .unknown⟩

def callNext : Instruction :=
  ⟨"jal", [.symbol "g"], .unknown⟩

def leave : Instruction :=
  ⟨"jr", ["ra"], .unknown⟩

/-- A session in which `t0` holds a number. -/
def holdsSeven : Session where
  rodata := {}
  frame := { size := 0x20, isLeaf := false, returnAddress := 0x1c, localsStart := 0x20 }
  work := { registers := .ofList [(⟨"t0"⟩, .literal 7 0)] }

def blockOf (is : List Instruction) : Node :=
  { block := ⟨0, none, "initial", is⟩, emitGoto := false, link := .exit 0 }

lemma holdsSeven_stores : holdsSeven.StoresArgument storeFifth 0x10 (.literal 7 0) where
  mnemonic := by decide
  operands := ⟨⟨"t0"⟩, ⟨"sp"⟩, rfl, rfl, rfl, .content (by decide) rfl nofun, by
    rintro _ held
    cases held
    rfl⟩
  outgoing := by decide
  notLocal := by decide
  inside := by decide
  inMemory := by decide

theorem runInstructions_passes_fifth : ∃ s f as t, .call f as t ∈ Session.values s ∧
    ∃ v ∈ as, ∀ w, w.Respects → Expr.word w v = 7 := by
  obtain ⟨s', run⟩ := run_of_isOk (x := runInstructions (blockOf [storeFifth, wait, callNext]))
    (s := holdsSeven) (by decide +kernel)
  have code : (blockOf [storeFifth, wait, callNext]).block.instructions =
      [] ++ storeFifth :: [wait] ++ callNext :: [] := rfl
  obtain ⟨s₁, s₂, s₃, earlier, -, -, -, f, as, t, made, passed⟩ :=
    runInstructions_passes code run (by decide) rfl
  cases earlier
  obtain ⟨v, mem, word⟩ := passed _ _ holdsSeven_stores
  exact ⟨s₃, f, as, t, List.mem_of_mem_drop made, v, mem, word⟩

def passedBy (g : Graph) : List Nat :=
  ((evalFunction { file := "f.s" } "f" g).run { rodata := {} }).2.values.filterMap fun
    | .call _ as _ => some as.length
    | _ => none

def callHere : Graph :=
  ⟨#[{ block := ⟨0, none, "initial", enter ++ [storeFifth, callNext, leave, wait]⟩,
       emitGoto := false, link := .exit 0, dominators := ⟨1⟩ }]⟩

def callBehind : Graph :=
  ⟨#[{ block := ⟨0, none, "initial", enter ++ [storeFifth]⟩, emitGoto := false, link := .next 1,
       dominators := ⟨1⟩, immediatelyDominates := [1] },
     { block := ⟨1, some "L1", "L1", [callNext, leave, wait]⟩, emitGoto := false, link := .exit 0,
       parents := [0], dominators := ⟨3⟩, immediateDominator := some 0 }]⟩

theorem runInstructions_passes_apart : passedBy callHere = [1] ∧ passedBy callBehind = [0] := by
  decide +kernel

end Decompiler.Eval
