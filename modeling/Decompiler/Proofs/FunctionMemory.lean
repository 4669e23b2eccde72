import Decompiler.Proofs.BlockMemory
import Decompiler.Proofs.StraightGraph

/-!
# The memory behind a straight function

A function that is one straight piece of code leaves the memory that its instructions leave, if it is
evaluated without errors and its stores name the words that were loaded before as the loads did.

Main statement: `straightBody_memory`.
-/

namespace Decompiler.Eval

open Asm Code Infer Decompiler.Flow List

def Mirrors {α : Type} (x y : Evaluation α) (Wrong : α → Session → Prop) : Prop :=
  ∀ s a s', x.run s = (.ok a, s') → y.run s = (.ok a, s') ∨ Wrong a s'

namespace Mirrors

variable {α β : Type}

lemma after (h : ∀ a, Mirrors (f a) (g a) R) : Mirrors (x >>= f) (x >>= g) R := by
  intro s b s' run
  obtain ⟨a, s1, first, rest⟩ := run_bind_ok run
  rw [run_bind_of_ok first]
  exact h a s1 b s' rest

lemma before (h : Mirrors x y Q) (wrong : ∀ a s, Q a s → Ensures s (f a) R) :
    Mirrors (x >>= f) (y >>= f) R := by
  intro s b s' run
  obtain ⟨a, s1, first, rest⟩ := run_bind_ok run
  rcases h s a s1 first with same | known
  · rw [run_bind_of_ok same]
    exact .inl rest
  · exact .inr (wrong a s1 known b s' rest)

lemma ite [Decidable c] (h : Mirrors x y Q) (h' : Mirrors x' y' Q) :
    Mirrors (if c then x else x') (if c then y else y') Q := by
  split
  · exact h
  · exact h'

lemma tryCatch (wrong : ∀ e s, Ensures s (h e) Q) : Mirrors (tryCatch x h) (tryCatch x h') Q := by
  intro s a s' run
  rw [run_tryCatch] at run ⊢
  split at run
  case h_1 => exact .inl run
  case h_2 e s1 _ => exact .inr (wrong e s1 a s' run)

end Mirrors

def Session.Failed (s : Session) : Prop :=
  ∀ b, s.blocks[0]? = some b → b.Failed

section

variable {s s' : Session}

lemma Session.Failed.of_blocks (h : s.Failed) (same : s'.blocks[0]? = s.blocks[0]?) : s'.Failed :=
  fun b found => h b (same ▸ found)

lemma settleReturns_failed (h : s.Failed) (hasValue : Bool) (type : TypeId) :
    Ensures s (settleReturns hasValue type) fun _ s' => s'.Failed := by
  refine .get (.forM h fun n _ s failed => .get ?_)
  cases found : (s.block n).returnValue with
  | none => exact .pure failed
  | some e =>
    -- A block that has failed has nothing to return.
    have other : n ≠ 0 := by
      rintro rfl
      rw [Session.block, Array.getD_eq_getD_getElem?] at found
      cases first : s.blocks[0]? with
      | none =>
        rw [first] at found
        cases found
      | some b =>
        rw [first, Option.getD_some, (failed b first).returnValue] at found
        cases found
    have keep {s : Session} (failed : s.Failed) (f : BlockResult → BlockResult) :
        ({ s with blocks := s.blocks.modify n f } : Session).Failed := by
      refine failed.of_blocks ?_
      simp [Array.getElem?_modify, other]
    refine .ite (fun _ => ?_) fun _ => .modify (keep failed _)
    refine Ensures.bind (asType_keeps e type true) fun value s1 kept => ?_
    have failed1 : s1.Failed := failed.of_blocks (by rw [kept.1.blocks])
    refine .bind_modify (use_noting.noted.ensures.imp fun _ s2 noted => ?_)
    exact (keep failed1 _).of_blocks (congrArg (·[0]?) noted.blocks)

lemma spreadReturns_failed (h : s.Failed) (g : Graph) :
    Ensures s (spreadReturns g) fun _ s' => s'.Failed := by
  refine .modify fun b found => ?_
  rw [Array.getElem?_mapIdx] at found
  obtain ⟨b', first, rfl⟩ := Option.map_eq_some_iff.1 found
  exact ⟨(h b' first).comment, (h b' first).returnValue⟩

lemma settleJoins_lonely (lonely : ∀ n, parentsOf g n = []) :
    Ensures s (settleJoins g) fun _ s' => s' = s := by
  by_cases none : s.usedJoins = #[]
  · exact settleJoins_unused none
  · refine .get (Ensures.bind (P := fun _ _ => False) ?_ fun _ _ no => no.elim)
    obtain ⟨id, first⟩ : ∃ id, s.usedJoins[0]? = some id :=
      ⟨_, Array.getElem?_eq_getElem (Array.size_pos_iff.2 none)⟩
    refine .get ?_
    rw [first]
    refine Ensures.bind (P := fun _ _ => False) ?_ fun _ _ no => no.elim
    refine .get (.bind_expect fun _ => .bind_expect fun two => ?_)
    rw [lonely] at two
    cases two

def stopping (o : Options) : Options :=
  { o with stopOnError := true }

variable {g : Graph} {node : Node}

lemma evalFrom_mirrors (o : Options) (single : g.nodes = #[node])
    (leaf : node.immediatelyDominates = []) (fx : Effects) (depth : Nat) (registers : Registers) :
    Mirrors (evalFrom o g fx (depth + 1) 0 registers)
      (evalFrom (stopping o) g fx (depth + 1) 0 registers) fun _ s => s.Failed := by
  have found : g.nodes.getD 0 default = node := by
    rw [single]
    rfl
  rw [evalFrom_parts, evalFrom_parts, evalNode_eq, evalNode_eq, Graph.children, found, leaf]
  refine .before (Q := fun b _ => b.Failed) (.after fun _ => .after fun _ => .tryCatch ?_) ?_
  · exact fun e s => .ite (fun _ => .throw e) fun _ => failedResult_failed e
  · intro b s failed
    rw [record, bind_assoc]
    refine Ensures.bind (P := fun _ s' => s'.Failed) (.modify fun b' found => ?_) fun _ s1 failed => ?_
    · rw [Array.getElem?_modify] at found
      obtain ⟨_, -, rfl⟩ := Option.map_eq_some_iff.1 found
      exact failed
    · refine Ensures.bind (.ite (fun _ => .modify ?_) fun _ => .pure failed)
        fun _ s2 failed => .pure failed
      exact failed.of_blocks rfl

/-- Unless it fails, it does not matter whether errors stop the evaluation. -/
lemma evalFunction_mirrors (o : Options) (name : String) (single : g.nodes = #[node])
    (leaf : node.immediatelyDominates = []) (lonely : node.parents = []) :
    Mirrors (evalFunction o name g) (evalFunction (stopping o) name g) fun _ s => s.Failed := by
  have parents (n) : parentsOf g n = [] := by
    rw [parentsOf, single]
    cases n with
    | zero => exact lonely
    | succ n => rfl
  refine .after fun frame => .after fun _ => .after fun registers => .after fun s => ?_
  generalize s.signature? name = signature?
  have rest (returnType) (registers) : Mirrors (evalEntered o g signature? returnType registers)
      (evalEntered (stopping o) g signature? returnType registers) fun _ s => s.Failed := by
    refine .after fun s => .before (evalFrom_mirrors o single leaf _ _ _) fun _ s1 failed => ?_
    refine (spreadReturns_failed failed g).bind fun _ s2 failed => .get ?_
    refine (settleReturns_failed failed _ _).bind fun _ s3 failed => ?_
    refine (settleJoins_lonely parents).bind ?_
    rintro _ s4 rfl
    exact .pure failed
  cases signature? with
  | none =>
    refine .after fun returnType => .after fun registers => ?_
    exact .ite (.after fun _ => .after fun _ => rest _ _) (rest _ _)
  | some f =>
    cases result : f.result <;>
      simp only [Option.bind_some, result] <;>
      refine .after fun returnType => .ite (.after fun _ => ?_) ?_
    all_goals
      refine .ite (.after fun registers => ?_) (.after fun registers => ?_)
    all_goals
      exact .ite (.after fun _ => .after fun _ => rest _ _) (rest _ _)

end

section

variable {s : Session}

lemma Trace.isWritten (trace : Trace start m0 s past vals m) (ordered : s.Ordered)
    (length : vals.length ≤ s.temps.size) (mem : stmt ∈ past) :
    (isWritten stmt).run s = (.ok (s.writes stmt), s) := by
  induction trace with
  | nil => cases mem
  | @set past vals m v _ _ _ ih =>
    rw [length_append, length_singleton] at length
    rcases mem_cons.1 mem with rfl | mem
    · have once := ordered.once vals.length (by omega)
      show (Except.ok (if (s.temp vals.length).exactlyOnce then _ else _), s) = _
      rw [once]
      rfl
    · exact ih (by omega) mem
  | run _ _ _ _ ih | store _ _ _ _ _ _ _ ih =>
    rcases mem_cons.1 mem with rfl | mem
    · rfl
    · exact ih length mem

/-- The statements that are shown leave the memory that is meant. -/
lemma Finished.written (h : Finished start m0 (s.block 0).statements m s)
    (aliases : s.aliasesKnown start [] ⟨fun _ => none, m0⟩ (s.block 0).statements) :
    ∃ stmts σ, s.shown 0 = .ok stmts ∧
      s.execWritten start stmts ⟨fun _ => none, m0⟩ = some σ ∧ σ.memory = m := by
  obtain ⟨vals, length, trace⟩ := h.trace
  have le := le_of_eq length
  have shown : s.shown 0 = .ok ((s.block 0).statements.filter s.writes) := by
    have run := run_filterM fun stmt mem =>
      trace.isWritten h.ordered le (mem_reverse.2 mem : stmt ∈ (s.block 0).statements.reverse)
    exact congrArg Prod.fst run
  have known : s.aliasesKnown start [] ⟨fun _ => none, m0⟩
      ((s.block 0).statements.reverse.reverse ++ []) := by
    rwa [reverse_reverse, append_nil]
  obtain ⟨σ, run, memory, -⟩ := trace.execWritten h.ordered le known
  rw [reverse_reverse] at run
  exact ⟨_, σ, shown, run, memory⟩

end

section

variable {is : List Instruction} {ops : List Op} {ret slot : Origin}

lemma plain_of_ops (code : is.mapM Op.ofInstruction? = some ops) :
    ∀ i ∈ is, i.mnemonic ∈ plainMnemonics := by
  induction is generalizing ops with
  | nil => exact fun i mem => nomatch mem
  | cons i is ih =>
    rw [mapM_cons] at code
    obtain ⟨op, first, code⟩ := Option.bind_eq_some_iff.1 code
    obtain ⟨rest, more, -⟩ := Option.bind_eq_some_iff.1 code
    intro j mem
    rcases mem_cons.1 mem with rfl | mem
    · exact mnemonic_of_op first
    · exact ih more j mem

lemma straightOps?_straightCode (code : is.mapM Op.ofInstruction? = some ops) :
    straightOps? (straightCode is ret slot) = some ops := by
  have busy : (is.filter fun i => !isIdle i) = is := by
    rw [filter_eq_self]
    intro i mem
    have other : ∀ m ∈ plainMnemonics, m ≠ "nop" ∧ m ≠ "jr" := by decide
    obtain ⟨nop, jr⟩ := other i.mnemonic (plain_of_ops code i mem)
    simp [isIdle, nop, jr]
  rw [straightOps?, straightCode, filter_append, busy]
  exact (congrArg (mapM Op.ofInstruction?) (append_nil is)).trans code

/-- A function that runs some code and returns does to the memory what its instructions do: if it is
evaluated without an error, and every store that changes a word that was loaded before names it as
the load did, the statements that are written leave the memory of the instructions. -/
theorem straightBody_memory (code : is.mapM Op.ofInstruction? = some ops) {rodata : Rodata}
    {console console' : Console} {g : Graph}
    (graph : (Graph.ofBody rodata (straightBody is ret slot)).run.run console = (.ok g, console'))
    {frame : Frame} (framed : Frame.ofEntry (straightCode is ret slot) = .ok frame)
    (tame : Tame frame entryRegisters ops)
    {o : Options} {name : String} {t : TypeId} {s : Session} {b : BlockResult}
    (run : (evalFunction o name g).run
      { console := console', types := { context := none }, rodata } = (.ok t, s))
    (result : s.blocks[0]? = some b) (clean : b.statements.any isComment = false)
    (start : Register → Word) (m₀ : Memory)
    (aliases : s.aliasesKnown start [] ⟨fun _ => none, m₀⟩ b.statements) :
    ∃ stmts σ, s.shown 0 = .ok stmts ∧
      s.execWritten start stmts ⟨fun _ => none, m₀⟩ = some σ ∧
      σ.memory = (Op.run ops ⟨start, m₀⟩).memory := by
  rw [Graph.ofBody_straightBody (plain_of_ops code)] at graph
  cases graph
  have stopped : (evalFunction (stopping o) name ⟨#[straightNode is ret slot]⟩).run
      { console, types := { context := none }, rodata } = (.ok t, s) := by
    rcases evalFunction_mirrors o name rfl rfl rfl _ _ _ run with same | failed
    · exact same
    · rw [(failed b result).comment] at clean
      cases clean
  have bare : ({ context := none } : Types).Bare := ⟨rfl, fun _ mem => absurd mem (Array.not_mem_empty _)⟩
  have finished : Finished start m₀ (s.block 0).statements (Op.run ops ⟨start, m₀⟩).memory s :=
    evalFunction_finished (o := stopping o) rfl rfl rfl rfl (straightOps?_straightCode code) framed
      tame rfl bare rfl name t s stopped
  refine finished.written ?_
  rwa [Session.block, Array.getD_eq_getD_getElem?, result]

def straightRun (is : List Instruction) : Except Failure TypeId × Session :=
  (evalFunction { file := "f.s" } "f" ⟨#[straightNode is .unknown .unknown]⟩).run
    { console := {}, types := { context := none }, rodata := {} }

lemma straightRun_ok (h : (straightRun is).1.toOption = some t) :
    (evalFunction { file := "f.s" } "f" ⟨#[straightNode is .unknown .unknown]⟩).run
      { console := {}, types := { context := none }, rodata := {} } = (.ok t, (straightRun is).2) :=
  eq_of_toOption h

lemma block_of_pos {s : Session} (h : 0 < s.blocks.size) : s.blocks[0]? = some (s.block 0) := by
  rw [Session.block, Array.getD_eq_getD_getElem?, Array.getElem?_eq_getElem h]
  rfl

def loadThenStores (first second : Register) : List Instruction :=
  [⟨"lw", ["t0", .memory first], .unknown⟩,
   ⟨"sw", ["a2", .memory second], .unknown⟩,
   ⟨"sw", ["t0", .memoryAt (.literal 4) second], .unknown⟩]

def onePointer : List Instruction :=
  loadThenStores ⟨"a0"⟩ ⟨"a0"⟩

def twoPointers : List Instruction :=
  loadThenStores ⟨"a0"⟩ ⟨"a1"⟩

/-- The word that is loaded is overwritten through the same pointer, so it is kept in a variable. -/
theorem straightBody_memory_onePointer :
    ∃ stmts σ, (straightRun onePointer).2.shown 0 = .ok stmts ∧
      (straightRun onePointer).2.execWritten (fun _ => 0x1000) stmts ⟨fun _ => none, fun _ => 0⟩ =
        some σ ∧
      σ.memory = (Op.run [.lw ⟨"t0"⟩ ⟨"a0"⟩ 0, .sw ⟨"a2"⟩ ⟨"a0"⟩ 0, .sw ⟨"t0"⟩ ⟨"a0"⟩ 4]
        ⟨fun _ => 0x1000, fun _ => 0⟩).memory := by
  have code : onePointer.mapM Op.ofInstruction? =
      some [.lw ⟨"t0"⟩ ⟨"a0"⟩ 0, .sw ⟨"a2"⟩ ⟨"a0"⟩ 0, .sw ⟨"t0"⟩ ⟨"a0"⟩ 4] := rfl
  have graph := Graph.ofBody_straightBody (plain_of_ops code) .unknown .unknown {} {}
  have framed : Frame.ofEntry (straightCode onePointer .unknown .unknown) = .ok {} := rfl
  have tame : Tame {} entryRegisters
      [.lw ⟨"t0"⟩ ⟨"a0"⟩ 0, .sw ⟨"a2"⟩ ⟨"a0"⟩ 0, .sw ⟨"t0"⟩ ⟨"a0"⟩ 4] :=
    ⟨by decide, by decide, by decide⟩
  have run : (straightRun onePointer).1.toOption = some 25 := by decide +kernel
  have result : 0 < (straightRun onePointer).2.blocks.size := by decide +kernel
  have clean : ((straightRun onePointer).2.block 0).statements.any isComment = false := by
    decide +kernel
  have aliases : (straightRun onePointer).2.aliasesKnown (fun _ => 0x1000) []
      ⟨fun _ => none, fun _ => 0⟩ ((straightRun onePointer).2.block 0).statements := by
    decide +kernel
  exact straightBody_memory code graph framed tame (straightRun_ok run) (block_of_pos result) clean _ _
    aliases

/-- Where two pointers are the same, the load moves over the store: the function is evaluated without
an error, and its statements put another word behind the pointer than its instructions. -/
theorem straightBody_memory_twoPointers :
    twoPointers.mapM Op.ofInstruction? =
      some [.lw ⟨"t0"⟩ ⟨"a0"⟩ 0, .sw ⟨"a2"⟩ ⟨"a1"⟩ 0, .sw ⟨"t0"⟩ ⟨"a1"⟩ 4] ∧
    (Graph.ofBody {} (straightBody twoPointers .unknown .unknown)).run.run {} =
      (.ok ⟨#[straightNode twoPointers .unknown .unknown]⟩, {}) ∧
    (straightRun twoPointers).1.toOption = some 25 ∧
    ((straightRun twoPointers).2.block 0).statements.any isComment = false ∧
    (do
      let stmts ← ((straightRun twoPointers).2.shown 0).toOption
      let σ ← (straightRun twoPointers).2.execWritten (fun _ => 0x1000) stmts
        ⟨fun _ => none, fun _ => 0⟩
      return σ.memory.read 0x1004) = some 0x1000 ∧
    (Op.run [.lw ⟨"t0"⟩ ⟨"a0"⟩ 0, .sw ⟨"a2"⟩ ⟨"a1"⟩ 0, .sw ⟨"t0"⟩ ⟨"a1"⟩ 4]
      ⟨fun _ => 0x1000, fun _ => 0⟩).memory.read 0x1004 = 0 := by
  have code : twoPointers.mapM Op.ofInstruction? =
      some [.lw ⟨"t0"⟩ ⟨"a0"⟩ 0, .sw ⟨"a2"⟩ ⟨"a1"⟩ 0, .sw ⟨"t0"⟩ ⟨"a1"⟩ 4] := rfl
  refine ⟨code, Graph.ofBody_straightBody (plain_of_ops code) _ _ _ _, ?_, ?_, ?_, ?_⟩
  all_goals decide +kernel

end

end Decompiler.Eval
