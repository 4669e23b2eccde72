import Decompiler.Proofs.Footprint
import Decompiler.Proofs.RegisterPaths
import Decompiler.Proofs.Straight

/-!
# What instructions write

Which registers an instruction sets is said twice: by its evaluation, and by the lists from which it
is known before the evaluation what changes on the way to a block.

Main statement: `runInstruction_writes`.
-/

namespace Decompiler.Eval

open Asm Code Infer Decompiler.Flow List Session

def isForced : Expr → Bool
  | .forced _ _ => true
  | _ => false

/-- Anything but a part of an argument: arguments are words. -/
def Whole (e : Expr) : Prop :=
  ∀ place copied t, e = .argument place copied t → place % 4 = 0

def Session.values (s : Session) : List Expr :=
  s.temps.toList.map (·.value)

def Session.Stands (s : Session) (id : TempId) (type : TypeId) (e : Expr) : Prop :=
  e = .temp id type ∨ s.values[id]? = some e

def Session.withoutRegister (s : Session) (r : Register) : Session :=
  { s with work := { s.work with registers := s.work.registers.erase r } }

/-- What a relation between states allows: notes, new temporaries, all work on a block that leaves
the registers alone, forcing what a register holds, and setting the registers that are free, but not
to parts of arguments. Arguments that are stored for a call are given up if there are calls. -/
structure Allows (R : Session → Session → Prop) (calls : Prop) (free : Register → Prop) : Prop where
  noted {s s' : Session} : s.Noted s' → R s s'
  working {s : Session} {w : Work} : w.registers = s.work.registers →
    s.work.outgoing <+: w.outgoing → R s { s with work := w }
  pass (s : Session) : calls → R s { s with work := { s.work with outgoing := [] } }
  temp (s : Session) (t : Temp) : R s { s with temps := s.temps.push t }
  set {s : Session} {r : Register} {e : Expr} : free r → Whole e ∨ r = conditionRegister →
    R s (s.withRegister r e)
  clear {s : Session} {r : Register} : free r → R s (s.withoutRegister r)
  force {s : Session} {r : Register} {e : Expr} {id : TempId} {type : TypeId} :
    s.work.registers.get? r = some e →
    isForced e = false →
    s.Stands id type e →
    R s (s.withRegister r (.forced id type))

/-- The steps that the work on a block is made of. Only registers that are free are set. -/
inductive Doing (calls : Prop) (free : Register → Prop) : {α : Type} → Evaluation α → Prop where
  | noting {α : Type} {x : Evaluation α} :
    Noting x →
    Doing calls free x
  | working {f} :
    (∀ w, (f w).registers = w.registers ∧ (f w).statements = w.statements ∧
      w.outgoing <+: (f w).outgoing) →
    Doing calls free (modifyWork f)
  | pass :
    calls →
    Doing calls free (modifyWork fun w => { w with outgoing := [] })
  | hold {r e} :
    free r →
    Whole e ∨ r = conditionRegister →
    Doing calls free (hold r e)
  | clear {rs : List Register} :
    (∀ r ∈ rs, free r) →
    Doing calls free (modifyWork fun w =>
      { w with registers := rs.foldl (fun rs r => rs.erase r) w.registers })
  | newTemp (value : Expr) (name : String) (exactlyOnce isTrivial : Bool) :
    Doing calls free (newTemp value name exactlyOnce isTrivial)
  | protect (p : Session → Expr → Bool) :
    Doing calls free (protect p)
  | run (e : Expr) :
    Doing calls free (use e >>= fun _ => write (.run e))
  | fail (why : Option String) (t : TypeId) :
    Doing calls free (write (.run (.error why t)))
  | store (value dest : Expr) :
    Doing calls free (do
      use value
      use dest
      protectFromStore dest
      protectCalls
      write (.store value dest))
  | seq {α β : Type} {x : Evaluation α} {f : α → Evaluation β} {P : α → Prop} :
    Doing calls free x →
    (∀ s, Ensures s x fun a _ => P a) →
    (∀ a, P a → Doing calls free (f a)) →
    Doing calls free (x >>= f)

section

lemma Doing.bind {x : Evaluation α} {f : α → Evaluation β} (hx : Doing calls free x)
    (hf : ∀ a, Doing calls free (f a)) : Doing calls free (x >>= f) :=
  .seq (P := fun _ => True) hx (fun _ _ _ _ => trivial) fun a _ => hf a

/-- What follows a new temporary only has to be known for temporaries. -/
lemma Doing.temp {f : Expr → Evaluation β} {value name exactlyOnce isTrivial}
    (hf : ∀ id t, Doing calls free (f (.temp id t))) :
    Doing calls free (Eval.newTemp value name exactlyOnce isTrivial >>= f) := by
  have made (s : Session) : Ensures s (Eval.newTemp value name exactlyOnce isTrivial)
      fun e _ => ∃ id t, e = .temp id t := by
    unfold Eval.newTemp
    refine .ite (fun _ => .skip fun _ _ => ?_) fun _ => ?_
    all_goals
      refine .skip fun _ _ => .skip fun _ _ => .skip fun _ _ => ?_
      exact .skip fun _ _ => .pure ⟨_, _, rfl⟩
  refine .seq (.newTemp _ _ _ _) made ?_
  rintro _ ⟨id, t, rfl⟩
  exact hf id t

lemma whole_temp (id : TempId) (t : TypeId) : Whole (.temp id t) := by
  rintro _ _ _ ⟨⟩

lemma Doing.pure (a : α) : Doing calls free (pure a : Evaluation α) :=
  .noting (.pure a)

lemma Doing.get : Doing calls free get :=
  .noting .get

lemma Doing.ite [Decidable c] {x y : Evaluation α} (hx : Doing calls free x)
    (hy : Doing calls free y) : Doing calls free (if c then x else y) := by
  split
  · exact hx
  · exact hy

lemma Doing.bind_lift {x : Except Failure α} {f : α → Evaluation β}
    (h : ∀ a, x = .ok a → Doing calls free (f a)) : Doing calls free (liftM x >>= f) := by
  cases x with
  | error e => exact .noting (.throw e)
  | ok a => exact h a rfl

lemma Notes.then {x : Evaluation α} {f : α → Evaluation β} (hx : Noting x)
    (hf : ∀ a, Doing calls free (f a)) : Doing calls free (x >>= f) :=
  .bind (.noting hx) hf

lemma holdResult_doing (h : free r)
    (result : (r.name == "f0" || r.name == "v0") → free returnRegister) (whole : Whole e) :
    Doing calls free (holdResult r e) := by
  refine (Doing.hold h (.inl whole)).bind fun _ => ?_
  split
  case isTrue isResult =>
    exact (Doing.hold (result isResult) (.inl whole)).bind fun _ =>
      .working fun _ => ⟨rfl, rfl, prefix_rfl⟩
  case isFalse => exact .pure _

lemma assign_doing (h : free r)
    (result : (r.name == "f0" || r.name == "v0") → free returnRegister) (e : Expr) :
    Doing calls free (assign r e) := by
  have last {e} (whole : Whole e) : Doing calls free
      (if r == .zero then use e >>= fun _ => write (.run e) else holdResult r e) :=
    .ite (.run e) (holdResult_doing h result whole)
  have value (e : Expr) : Doing calls free
      (if e.isLiteral then pure e >>= fun e => if r == .zero then use e >>= fun _ => write (.run e)
          else holdResult r e
        else newTemp e r.name false e.isTrivial >>= fun e =>
          if r == .zero then use e >>= fun _ => write (.run e) else holdResult r e) := by
    split
    case isTrue literal =>
      refine last ?_
      rintro _ _ _ rfl
      cases literal
    case isFalse => exact .temp fun id t => last (whole_temp id t)
  unfold assign
  simp only [pure_bind]
  split
  on_goal 1 =>
    refine Doing.get.bind fun s => ?_
    split
  all_goals exact value _

lemma runStore_doing (args : List Operand) (store : Store) :
    Doing calls free (runStore args store) := by
  unfold runStore
  split
  · exact .ite (.working fun _ => ⟨rfl, rfl, prefix_append _ _⟩) (.pure _)
  · split
    · refine declareLocal_noting.then fun _ => .bind_lift fun _ _ => ?_
      refine .bind (.working ?_) fun _ => .store _ _
      exact fun _ => ⟨rfl, rfl, prefix_rfl⟩
    · exact .store _ _

lemma setCondition_doing (h : Noting condition) : Doing calls free (setCondition condition) :=
  Doing.get.bind fun _ => Notes.expect.then fun _ => h.then fun _ =>
    .working fun _ => ⟨rfl, rfl, prefix_rfl⟩

instance : Noting lastComparison := by
  refine read_noting.bind fun e => ?_
  split <;> infer_instance

instance callTarget_noting : Noting (callTarget mnemonic args) := by
  unfold callTarget
  repeat' first | infer_instance | split | refine .bind inferInstance fun _ => ?_

lemma slotArguments_noting {slots : List Slot} : Noting (slots.filterMapM fun slot => do
    match slot.register with
    | some r => return some (← asType (← read r) slot.type true)
    | none => return none) := by
  refine @Notes.filterMapM _ _ _ _ _ fun slot => ?_
  split <;> infer_instance

lemma callArguments_doing (made : calls) (signature? : Option C.Signature) :
    Doing calls free (callArguments signature?) := by
  have last (known) (possible) : Doing calls free (do
      let guessed := guessArguments (← get).work.registers possible
      let stored := (← get).work.outgoing.mergeSort fun a b => a.2 ≤ b.2
      modifyWork fun w => { w with outgoing := [] }
      return known ++ guessed ++ stored.map (·.1)) := by
    exact Doing.get.bind fun _ => Doing.get.bind fun _ => (Doing.pass made).bind fun _ => .pure _
  unfold callArguments
  simp only [pure_bind]
  split
  · refine .ite (infer_noting.then fun slots => ?_) (last _ _)
    refine slotArguments_noting.then fun known => last _ _
  · exact last _ _

lemma holdCallResult_doing (h : ∀ r ∈ callerSaved, free r) (call : Whole e) :
    Doing calls free (holdCallResult e) := by
  have held {r e} (mem : r ∈ callerSaved) (whole : Whole e) : Doing calls free (hold r e) :=
    .hold (h r mem) (.inl whole)
  refine freshType_noting.then fun _ => .temp fun _ _ => ?_
  refine (held (by decide) (whole_temp _ _)).bind fun _ => freshType_noting.then fun _ => ?_
  refine (held (by decide) (by rintro _ _ _ ⟨⟩)).bind fun _ => ?_
  refine freshType_noting.then fun _ => .temp fun _ _ => ?_
  refine (held (by decide) (whole_temp _ _)).bind fun _ => freshType_noting.then fun _ => ?_
  refine asNew_noting.then fun _ => .temp fun _ _ => ?_
  exact (held (by decide) (whole_temp _ _)).bind fun _ => held (by decide) call

lemma afterCall_doing (h : ∀ r ∈ callerSaved, free r) (whole : Whole call) (hasResult : Bool) :
    Doing calls free (do
      modifyWork fun w => { w with
        registers := callerSaved.foldl (fun rs r => rs.erase r) w.registers }
      protectCalls
      protectReads
      if hasResult then holdCallResult call
      modifyWork fun w => { w with customReturn := false, hasCall := true }) := by
  have done : Doing calls free (modifyWork fun w =>
      { w with customReturn := false, hasCall := true }) :=
    .working fun _ => ⟨rfl, rfl, prefix_rfl⟩
  refine (Doing.clear h).bind fun _ => (Doing.protect _).bind fun _ => (Doing.protect _).bind fun _ => ?_
  exact .ite ((holdCallResult_doing h whole).bind fun _ => done) done

lemma runCall_doing (made : calls) (h : ∀ r ∈ callerSaved, free r) (mnemonic : String)
    (args : List Operand) :
    Doing calls free (runCall mnemonic args) := by
  refine callTarget_noting.then fun function => Doing.get.bind fun s => ?_
  refine (callArguments_doing made _).bind fun arguments => ?_
  dsimp only
  split
  · exact infer_noting.then fun type => .temp fun id t => afterCall_doing h (whole_temp id t) _
  · exact freshType_noting.then fun type => .temp fun id t => afterCall_doing h (whole_temp id t) _

end

section

section

variable (allows : Allows R calls free)

include allows

lemma Allows.noting {x : Evaluation α} (h : Noting x) : Respects R x :=
  h.noted.imp fun _ _ => allows.noted

lemma modifyWork_respects (h : ∀ w, (f w).registers = w.registers)
    (more : ∀ w, w.outgoing <+: (f w).outgoing) : Respects R (modifyWork f) :=
  .modify fun _ => allows.working (h _) (more _)

lemma write_respects (stmt : Stmt) : Respects R (write stmt) :=
  modifyWork_respects allows (fun _ => rfl) fun _ => prefix_rfl

end

variable [IsPreorder Session R]

variable (allows : Allows R calls free)

include allows

lemma newTemp_respects (value : Expr) (name : String) (exactlyOnce trivial : Bool) :
    Respects R (newTemp value name exactlyOnce trivial) := by
  unfold newTemp
  dsimp only
  split
  on_goal 1 => refine (allows.noting use_noting).bind fun _ => ?_
  all_goals
    refine .bind .expect fun _ => .bind .get fun s => ?_
    refine .bind (.modify fun s => allows.temp s _) fun _ => ?_
    exact (write_respects allows _).bind fun _ => .pure _

omit allows [IsPreorder Session R] in
lemma hold_cases (s : Session) (r : Register) (e : Expr) :
    ((hold r e).run s).2 = s ∨ ((hold r e).run s).2 = s.withRegister r e := by
  unfold hold expect
  split
  · exact .inr rfl
  · exact .inl rfl

omit allows [IsPreorder Session R] in
lemma newTemp_cases (s : Session) (e : Expr) (name : String) (trivial : Bool) :
    (∃ failure, (newTemp e name false trivial).run s = (.error failure, s)) ∨
      ∃ t : Temp, t.value = e ∧
        (newTemp e name false trivial).run s = (.ok (.temp s.temps.size e.type), s.withTemp t) := by
  unfold newTemp expect
  by_cases named : (name != "") = true
  · refine .inr ⟨{
      value := e
      type := e.type
      stem := "temp_" ++ if name == "condition_bit" then "cond" else name
      exactlyOnce := false
      trivial := trivial }, rfl, ?_⟩
    rw [if_pos named]
    rfl
  · refine .inl ⟨.broken "", ?_⟩
    rw [if_neg named]
    rfl

lemma Allows.withTemp (s : Session) (t : Temp) : R s (s.withTemp t) := by
  refine trans_of R (allows.temp s t) ?_
  exact allows.working rfl prefix_rfl

lemma force_respects {s r e id type} (content : s.work.registers.get? r = some e)
    (plain : isForced e = false) (stands : s.Stands id type e) :
    R s ((hold r (.forced id type)).run s).2 := by
  rcases hold_cases s r (.forced id type) with same | forced
  · rw [same]
    exact refl_of R s
  · rw [forced]
    exact allows.force content plain stands

lemma protect_respects (p : Session → Expr → Bool) : Respects R (protect p) := by
  refine .bind .get fun s => .forM fun r _ => ?_
  intro s
  have peeked {β} (f : Option Expr → Evaluation β) :
      (peek r >>= f).run s = (f (s.work.registers.get? r)).run s := rfl
  rw [peeked]
  split
  · exact refl_of R s
  · exact refl_of R s
  · rename_i e plain content
    have plain : isForced e = false := by
      cases e with
      | forced id type => exact absurd rfl (plain id type)
      | _ => rfl
    show R s ((if p s e then _ else _ : Evaluation Unit).run s).2
    split
    · split
      · exact force_respects allows content plain (.inl rfl)
      · rcases newTemp_cases s e r.name false with ⟨_, failed⟩ | ⟨t, value, made⟩
        · rw [run_bind_of_error failed]
          exact refl_of R s
        · rw [run_bind_of_ok made]
          refine trans_of R (allows.withTemp s t) (force_respects allows content plain (.inr ?_))
          simp [values, withTemp, value]
    · exact refl_of R s

lemma clear_respects {rs : List Register} (h : ∀ r ∈ rs, free r) (s : Session) :
    R s { s with work := { s.work with
      registers := rs.foldl (fun registers r => registers.erase r) s.work.registers } } := by
  induction rs generalizing s with
  | nil => exact refl_of R s
  | cons r rs ih =>
    obtain ⟨here, others⟩ := forall_mem_cons.1 h
    exact trans_of R (allows.clear here) (ih others (s.withoutRegister r))

/-- A relation that allows such steps allows all work made of them. -/
lemma Doing.respects {x : Evaluation α} (h : Doing calls free x) : Respects R x := by
  induction h with
  | noting h => exact allows.noting h
  | working h => exact modifyWork_respects allows (fun w => (h w).1) fun w => (h w).2.2
  | pass made => exact .modify fun s => allows.pass s made
  | hold h whole => exact .bind .expect fun _ => .modify fun _ => allows.set h whole
  | clear h => exact .modify fun s => clear_respects allows h s
  | newTemp => exact newTemp_respects allows _ _ _ _
  | protect p => exact protect_respects allows p
  | run e => exact (allows.noting use_noting).bind fun _ => write_respects allows _
  | fail => exact write_respects allows _
  | store value dest =>
    refine (allows.noting use_noting).bind fun _ => (allows.noting use_noting).bind fun _ => ?_
    refine (protect_respects allows _).bind fun _ => (protect_respects allows _).bind fun _ => ?_
    exact write_respects allows _
  | seq _ gives _ ihx ihf => exact ihx.seq gives ihf

end

/-- What is known about a mnemonic from what its instructions do. -/
def Action.Of (mnemonic : String) : Action → Prop
  | .store rule => storeRule? mnemonic = some rule
  | .branch rule => branchRule? mnemonic = some rule
  | .floatCompare rule => floatCompareRule? mnemonic = some rule
  | .setHighLow rule => highLowRule? mnemonic = some rule
  | .effect rule => effectRule? mnemonic = some rule
  | .set rule => valueRule? mnemonic = some rule
  | .call => (mnemonic == "jal" || mnemonic == "jalr") = true
  | _ => True

/-- What is done for an instruction goes by its mnemonic. -/
lemma action_of (mnemonic : String) : Action.Of mnemonic (action mnemonic) := by
  unfold action
  repeat' split
  all_goals trivial

def setWith (r : Register) : List Register :=
  if r.name == "f0" || r.name == "v0" then [r, returnRegister] else [r]

def SetsHalf (i : Instruction) (r : Register) : Prop :=
  setsDouble i.mnemonic = true ∧ (∃ rule, valueRule? i.mnemonic = some rule) ∧
    ∃ target half, registerAt i.args 0 = .ok target ∧ target.partner = .ok half ∧ r ∈ setWith half

def MayWrite (context : Option C.TypeMap) (i : Instruction) (r : Register) : Prop :=
  (∃ rs, outputs context i = .ok rs ∧ r ∈ rs) ∨
    (i.mnemonic == "jal" || i.mnemonic == "jalr") = true ∧ r ∈ callerSaved ∨ SetsHalf i r

section

variable {i : Instruction} {r : Register}

lemma operandAt_ok (h : operandAt args index = .ok operand) : args[index]? = some operand := by
  unfold operandAt at h
  split at h
  · cases h
    assumption
  · cases h

lemma changedAt_register (found : i.args[index]? = some (.register r)) :
    changedAt i index = .ok (setWith r) := by
  rw [changedAt, Instruction.arg, found]
  rfl

lemma registerAt_ok (h : registerAt args index = .ok r) : args[index]? = some (.register r) := by
  obtain ⟨operand, found, h⟩ := bind_ok h
  cases operand with
  | register r' =>
    cases h
    exact operandAt_ok found
  | _ => cases h

lemma setWith_free {free : Register → Prop} (h : ∀ r' ∈ setWith r, free r') :
    free r ∧ ((r.name == "f0" || r.name == "v0") → free returnRegister) := by
  unfold setWith at h
  split at h
  case isTrue =>
    exact ⟨h _ mem_cons_self, fun _ => h _ (mem_cons_of_mem _ mem_cons_self)⟩
  case isFalse other => exact ⟨h _ mem_cons_self, fun isResult => absurd isResult other⟩

lemma assign_listed (h : ∀ r' ∈ setWith r, free r') (e : Expr) : Doing calls free (assign r e) :=
  assign_doing (setWith_free h).1 (setWith_free h).2 e

/-- An instruction only sets the registers that it may write. -/
lemma runInstruction_doing (made : (i.mnemonic == "jal" || i.mnemonic == "jalr") → calls)
    (h : ∀ r, MayWrite context i r → free r) (link : Link) :
    Doing calls free (runInstruction link i) := by
  have listed {rs} (out : outputs context i = .ok rs) : ∀ r ∈ rs, free r :=
    fun r mem => h r (.inl ⟨rs, out, mem⟩)
  have spec := action_of i.mnemonic
  unfold runInstruction
  unfold outputs at listed
  cases act : action i.mnemonic with
  | skip => exact .pure _
  | store rule =>
    rw [act] at spec
    refine (storeRule?_noting spec).then fun store => ?_
    cases store with
    | some store => exact runStore_doing _ _
    | none => exact .pure _
  | moveToFloat =>
    rw [act] at listed
    refine .bind_lift fun r at1 => valueAt_noting.then fun e => ?_
    exact assign_listed (listed (changedAt_register (registerAt_ok at1))) e
  | branch rule =>
    rw [act] at spec
    exact setCondition_doing (branchRule?_noting spec)
  | floatBranch ifHeld =>
    exact setCondition_doing inferInstance
  | jump =>
    refine .bind_lift fun _ _ => .ite ?_ ?_
    · split
      · exact .pure _
      · exact .noting (.throw _)
    · split
      · refine valueAt_noting.then fun e => ?_
        exact .working fun _ => ⟨rfl, rfl, prefix_rfl⟩
      · exact .noting (.throw _)
  | call =>
    rw [act] at spec
    exact runCall_doing (made spec) (fun r mem => h r (.inr (.inl ⟨spec, mem⟩))) _ _
  | floatCompare rule =>
    rw [act] at spec listed
    refine (floatCompareRule?_noting spec).then fun e => ?_
    exact .hold (listed rfl _ mem_cons_self) (.inr rfl)
  | setHighLow rule =>
    rw [act] at spec listed
    have listed := listed rfl
    refine (highLowRule?_noting spec).then fun _ => ?_
    refine .bind (assign_doing (listed _ mem_cons_self) ?_ _) fun _ => ?_
    · exact fun isResult => absurd isResult (by decide)
    · refine assign_doing (listed _ (mem_cons_of_mem _ mem_cons_self)) ?_ _
      exact fun isResult => absurd isResult (by decide)
  | effect rule =>
    rw [act] at spec
    refine (effectRule?_noting spec).then fun e => ?_
    exact .run e
  | set rule =>
    rw [act] at spec listed
    refine .bind_lift fun r at0 => (valueRule?_noting spec).then fun e => ?_
    refine (assign_listed (listed (changedAt_register (registerAt_ok at0))) e).bind fun _ => ?_
    split
    case isTrue double =>
      refine .bind_lift fun half partner => freshType_noting.then fun _ => ?_
      refine assign_listed (fun r mem => h r (.inr (.inr ?_))) _
      exact ⟨double, ⟨rule, spec⟩, _, half, at0, partner, mem⟩
    case isFalse => exact .pure _
  | loadLower =>
    rw [act] at listed
    refine .bind_lift fun r at0 => valueAt_noting.then fun old => ?_
    refine loadLowerBytes_noting.then fun e => ?_
    exact assign_listed (listed (changedAt_register (registerAt_ok at0))) e
  | unknown =>
    rw [act] at listed
    simp only [errorExpr, bind_assoc, pure_bind]
    refine freshType_noting.then fun t => ?_
    cases head : i.args.head? with
    | none => exact .fail _ t
    | some operand =>
      cases operand with
      | register r =>
        rw [head] at listed
        have listed := listed (changedAt_register (head?_eq_getElem? ▸ head))
        obtain ⟨here, result⟩ := setWith_free listed
        refine .temp fun id t => .ite ?_ (.pure _)
        exact holdResult_doing here result (whole_temp id t)
      | _ => exact .fail _ t

lemma runInstruction_does (link : Link) (i : Instruction) :
    Doing True (fun _ => True) (runInstruction link i) :=
  @runInstruction_doing i True none (fun _ => True) (fun _ => trivial) (fun _ _ => trivial) link

end

section

variable {r : Register} {s s' : Session}

structure Session.Retains (r : Register) (s s' : Session) : Prop where
  values : s.values <+: s'.values
  content : s'.work.registers.get? r = s.work.registers.get? r ∨
    ∃ e id type, s.work.registers.get? r = some e ∧ isForced e = false ∧
      s'.work.registers.get? r = some (.forced id type) ∧ s'.Stands id type e

lemma Session.Stands.mono {id type e} (h : s.Stands id type e) (values : s.values <+: s'.values) :
    s'.Stands id type e := by
  rcases h with same | value
  · exact .inl same
  · obtain ⟨more, whole⟩ := values
    refine .inr ?_
    rw [← whole, getElem?_append_left (List.getElem?_eq_some_iff.1 value).1]
    exact value

instance : IsPreorder Session (Retains r) where
  refl _ := ⟨prefix_rfl, .inl rfl⟩
  trans s s' s'' h h' := by
    refine ⟨h.values.trans h'.values, ?_⟩
    rcases h.content with same | ⟨e, id, type, held, plain, forced, stands⟩
    · rcases h'.content with same' | ⟨e, id, type, held, rest⟩
      · exact .inl (same'.trans same)
      · exact .inr ⟨e, id, type, same.symm.trans held, rest⟩
    · rcases h'.content with same' | ⟨e', _, _, held', plain', -⟩
      · refine .inr ⟨e, id, type, held, plain, same'.trans forced, stands.mono h'.values⟩
      · -- What is held by force is not forced again.
        cases forced.symm.trans held'
        cases plain'

lemma get?_erase [BEq κ] [LawfulBEq κ] (t : Table κ α) (k k' : κ) :
    (t.erase k).get? k' = if k' == k then none else t.get? k' := by
  obtain ⟨entries⟩ := t
  simp only [Table.erase, Table.get?]
  induction entries with
  | nil => simp
  | cons entry entries ih =>
    obtain ⟨k1, a⟩ := entry
    by_cases here : k1 = k
    · subst here
      by_cases found : k' = k1
      · subst found
        simpa using ih
      · simp [lookup, beq_false_of_ne found, ih]
    · by_cases found : k' = k1
      · simp [lookup, found, here]
      · simp [lookup, beq_false_of_ne here, beq_false_of_ne found, ih]

lemma retains_allows (r : Register) : Allows (Retains r) True (· ≠ r) where
  noted := by
    intro s s' h
    have values : s'.values = s.values := by
      simpa [values] using congrArg Array.toList h.values
    exact ⟨values ▸ prefix_rfl, .inl (by rw [h.work])⟩
  working same _ := ⟨prefix_rfl, .inl (by rw [same])⟩
  pass _ _ := ⟨prefix_rfl, .inl rfl⟩
  temp s t := by
    refine ⟨?_, .inl rfl⟩
    simp [values]
  set ne _ := by
    refine ⟨prefix_rfl, .inl ?_⟩
    rw [withRegister, Table.get?_insert, if_neg (by simpa using ne.symm)]
  clear ne := by
    refine ⟨prefix_rfl, .inl ?_⟩
    rw [withoutRegister, get?_erase, if_neg (by simpa using ne.symm)]
  force := by
    intro s r' e id type held plain stands
    refine ⟨prefix_rfl, ?_⟩
    rw [withRegister, Table.get?_insert]
    by_cases here : r = r'
    · subst here
      exact .inr ⟨e, id, type, held, plain, by simp, stands⟩
    · exact .inl (by simp [here])

lemma callTarget_operand (run : (callTarget "jal" args).run s = (.ok e, s')) : 1 ≤ args.length := by
  obtain ⟨_, _, run, -⟩ := run_bind_ok run
  obtain ⟨_, _, run, -⟩ := run_bind_ok run
  obtain ⟨operand, _, run, -⟩ := run_bind_ok run
  have found := operandAt_ok (lift_ok run)
  exact (List.getElem?_eq_some_iff.1 found).1

lemma operandsNeeded_of_run (run : (runInstruction link i).run s = (.ok (), s'))
    (context : Option C.TypeMap) : operandsNeeded context i ≤ i.args.length := by
  have inside {index : Nat} {r : Register} {s s1 : Session}
      (run : (liftM (registerAt i.args index) : Evaluation Register).run s = (.ok r, s1)) :
      index < i.args.length :=
    (List.getElem?_eq_some_iff.1 (registerAt_ok (lift_ok run))).1
  unfold runInstruction at run
  unfold operandsNeeded
  cases act : action i.mnemonic with
  | moveToFloat | set rule | loadLower =>
    rw [act] at run
    obtain ⟨_, _, first, -⟩ := run_bind_ok run
    exact inside first
  | call =>
    rw [act] at run
    obtain ⟨_, _, first, -⟩ := run_bind_ok run
    dsimp only
    split
    case isTrue direct =>
      rw [beq_iff_eq.1 (Bool.and_eq_true_iff.1 direct).2] at first
      exact callTarget_operand first
    case isFalse => exact Nat.zero_le _
  | _ => exact Nat.zero_le _

/-- A register whose contents change in an instruction is listed as an output of the instruction, or
may be changed by the call that the instruction is, or gets the second half of a double. -/
theorem runInstruction_writes {link : Link} {i : Instruction}
    (run : (runInstruction link i).run s = (.ok (), s')) (context : Option C.TypeMap) :
    ∃ rs, outputs context i = .ok rs ∧
      ∀ r, r ∈ rs ∨ (i.mnemonic == "jal" || i.mnemonic == "jalr") = true ∧ r ∈ callerSaved ∨
        SetsHalf i r ∨ Session.Retains r s s' := by
  have known := outputs_ok (operandsNeeded_of_run run context)
  refine ⟨_, known, fun r => ?_⟩
  by_cases may : MayWrite context i r
  · rcases may with ⟨rs, listed, mem⟩ | call | half
    · cases known.symm.trans listed
      exact .inl mem
    · exact .inr (.inl call)
    · exact .inr (.inr (.inl half))
  · have others : ∀ r', MayWrite context i r' → r' ≠ r := by
      rintro r' may' rfl
      exact may may'
    have retains := (runInstruction_doing (fun _ => trivial) others link).respects (retains_allows r) s
    rw [run] at retains
    exact .inr (.inr (.inr retains))

lemma run_of_isOk {x : Evaluation α} (h : (x.run s).1.isOk) :
    ∃ a, x.run s = (.ok a, (x.run s).2) := by
  rcases e : x.run s with ⟨_ | a, s'⟩ <;> rw [e] at h
  · cases h
  · exact ⟨a, rfl⟩

def storeBack : Instruction :=
  ⟨"sw", ["a0", .memory "a1"], .unknown⟩

def loaded : Session where
  rodata := {}
  temps := #[{
    value := .member (.symbol "p" 0) 0 (some 4) 0 1
    type := 1
    stem := "temp_t0"
    exactlyOnce := false
    trivial := false }]
  work := {
    registers := .ofList
      [(⟨"a0"⟩, .symbol "q" 2), (⟨"a1"⟩, .symbol "p" 0), (⟨"t0"⟩, .temp 0 1)] }

theorem runInstruction_writes_storeBack :
    ∃ s', (runInstruction (.exit 0) storeBack).run loaded = (.ok (), s') ∧
      (s'.work.registers.get? ⟨"t0"⟩).any isForced = true ∧
      ∃ rs, outputs none storeBack = .ok rs ∧
        ∀ r, r ∈ rs ∨ (storeBack.mnemonic == "jal" || storeBack.mnemonic == "jalr") = true ∧
          r ∈ callerSaved ∨ SetsHalf storeBack r ∨ Session.Retains r loaded s' := by
  have ok : ((runInstruction (.exit 0) storeBack).run loaded).1.isOk = true := by decide +kernel
  obtain ⟨_, run⟩ := run_of_isOk ok
  exact ⟨_, run, by decide +kernel, runInstruction_writes run none⟩

def toDouble : Instruction :=
  ⟨"cvt.d.w", ["f4", "f6"], .unknown⟩

/-- A conversion to a double sets a register that is not listed. -/
theorem runInstruction_writes_unlisted :
    ∃ s s', (runInstruction (.exit 0) toDouble).run s = (.ok (), s') ∧
      ¬ ∃ rs, outputs none toDouble = .ok rs ∧
        ∀ r, r ∈ rs ∨ (toDouble.mnemonic == "jal" || toDouble.mnemonic == "jalr") = true ∧
          r ∈ callerSaved ∨ Session.Retains r s s' := by
  let s : Session := { rodata := {} }
  have ok : ((runInstruction (.exit 0) toDouble).run s).1.isOk = true := by decide +kernel
  have set : (((runInstruction (.exit 0) toDouble).run s).2.work.registers.get? ⟨"f5"⟩).isSome := by
    decide +kernel
  have listed : outputs none toDouble = .ok [⟨"f4"⟩] := by rfl
  obtain ⟨_, run⟩ := run_of_isOk ok
  refine ⟨s, _, run, ?_⟩
  rintro ⟨rs, listed', writes⟩
  cases listed.symm.trans listed'
  rcases writes ⟨"f5"⟩ with mem | ⟨call, -⟩ | retains
  · exact absurd mem (by decide)
  · exact absurd call (by decide)
  · rcases retains.content with same | ⟨e, _, _, held, -⟩
    · rw [same] at set
      cases set
    · cases held

end

end Decompiler.Eval
