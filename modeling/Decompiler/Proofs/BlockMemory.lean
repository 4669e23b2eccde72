import Decompiler.Proofs.Instructions
import Decompiler.Proofs.TreeWalk
import Decompiler.Proofs.Writing

/-!
# The memory behind a function of one block

A function that is one straight piece of code leaves the memory that its instructions leave, if it is
written without errors and its stores name the words that were loaded before as the loads did.
-/

namespace Decompiler.Eval

open Asm Code Infer Decompiler.Flow List

def isIdle (i : Instruction) : Bool :=
  i.mnemonic == "nop" || i.mnemonic == "jr" && i.args == [.register ⟨"ra"⟩]

def straightOps? (is : List Instruction) : Option (List Op) :=
  (is.filter fun i => !isIdle i).mapM Op.ofInstruction?

structure Tame (frame : Frame) (known : List Register) (ops : List Op) : Prop where
  set : readsSet known ops
  general : ∀ op ∈ ops, ∀ r ∈ op.target?, r ∈ generalRegisters
  other : ∀ op ∈ ops, ∀ r ∈ op.addressed, frame.isStackRegister r = false

section

variable {start : Register → Word} {m0 : Memory} {known : List Register} {μ : Machine}
  {vals : List Word} {s : Session} {i : Instruction} {is : List Instruction} {op : Op} {ops : List Op}
  {frame : Frame} {copy : Nat}

lemma Tame.tail (h : Tame frame known (op :: ops)) : Tame frame (op.target?.toList ++ known) ops :=
  ⟨(Bool.and_eq_true_iff.1 h.set).2, fun op mem => h.general op (.tail _ mem),
    fun op mem => h.other op (.tail _ mem)⟩

lemma Tame.sources (h : Tame frame known (op :: ops)) (mem : r ∈ op.sources) : r ∈ known :=
  contains_iff_mem.1 (all_eq_true.1 (Bool.and_eq_true_iff.1 h.set).1 r mem)

lemma straightOps?_cons (busy : ¬ isIdle i) (h : straightOps? (i :: is) = some ops) :
    ∃ op rest, Op.ofInstruction? i = some op ∧ straightOps? is = some rest ∧ ops = op :: rest := by
  rw [straightOps?, filter_cons_of_pos (by simpa using busy), mapM_cons] at h
  obtain ⟨op, first, h⟩ := Option.bind_eq_some_iff.1 h
  obtain ⟨rest, more, h⟩ := Option.bind_eq_some_iff.1 h
  cases h
  exact ⟨op, rest, first, more, rfl⟩

lemma runInstruction_idle (idle : isIdle i) :
    Ensures s (runInstruction (.exit copy) i) fun _ s' => s' = s := by
  obtain ⟨mnemonic, args, origin⟩ := i
  rcases Bool.or_eq_true_iff.1 idle with nop | jr
  · obtain rfl : mnemonic = "nop" := eq_of_beq nop
    exact .pure rfl
  · obtain ⟨jr, ra⟩ := Bool.and_eq_true_iff.1 jr
    obtain rfl : mnemonic = "jr" := eq_of_beq jr
    obtain rfl : args = [.register ⟨"ra"⟩] := eq_of_beq ra
    exact .pure rfl

lemma runInstructions_running (h : Running start m0 known μ vals s)
    (code : straightOps? is = some ops) (general : ∀ r ∈ known, r ∈ generalRegisters)
    (tame : Tame s.frame known ops) :
    Ensures s (is.forM fun i =>
        tryCatch (runInstruction (.exit copy) i) fun e => throw (.within i.text e)) fun _ s' =>
      (∃ known vals, Running start m0 known (Op.run ops μ) vals s') ∧ s.Beside s' := by
  induction is generalizing s known μ vals ops with
  | nil =>
    cases code
    exact .pure ⟨⟨known, vals, h⟩, .refl⟩
  | cons i is ih =>
    by_cases idle : isIdle i
    · have code : straightOps? is = some ops := by
        simpa [straightOps?, idle] using code
      refine (Ensures.tryCatch (runInstruction_idle idle) fun _ _ => .throw _).bind ?_
      rintro _ _ rfl
      exact ih h code general tame
    · obtain ⟨op, rest, first, more, rfl⟩ := straightOps?_cons idle code
      have general : ∀ r ∈ op.target?.toList ++ known, r ∈ generalRegisters := by
        intro r mem
        rcases mem_append.1 mem with mem | mem
        · exact tame.general op (.head _) r (Option.mem_toList.1 mem)
        · exact general r mem
      have step := runInstruction_running h (.exit copy) first general (fun _ => tame.sources)
        (tame.other op (.head _))
      refine (Ensures.tryCatch step fun _ _ => .throw _).bind ?_
      rintro _ s1 ⟨⟨vals1, running⟩, beside⟩
      refine (ih running more general (beside.frame ▸ tame.tail)).imp fun _ s2 ⟨running, beside'⟩ => ?_
      exact ⟨running, beside.trans beside'⟩

end

inductive Initial : Register → Expr → Prop where
  | argument {r r' place t} :
    argumentRegister? place = some r' →
    (r ∈ generalRegisters → r = r') →
    Initial r (.argument place false t)
  | symbol {r name t} :
    symbolRegister? name = some r →
    Initial r (.symbol name t)

section

variable {start : Register → Word} {m0 : Memory} {s : Session}

def Fills {γ : Type} (step : Registers → γ → Evaluation Registers) (a : γ) (r : Register) : Prop :=
  ∀ registers s, Keeps s (step registers a) fun registers' =>
    ∃ e, Initial r e ∧ registers' = registers.insert r e

lemma foldlM_fills {step : Registers → γ → Evaluation Registers} {k : γ → Register}
    {l : List γ} (held : ∀ {r e}, registers.get? r = some e → Initial r e)
    (h : ∀ a ∈ l, Fills step a (k a)) :
    Keeps s (l.foldlM step registers) fun registers' =>
      (∀ {r e}, registers'.get? r = some e → Initial r e) ∧
        ∀ r, (∃ e, registers.get? r = some e) ∨ r ∈ l.map k → ∃ e, registers'.get? r = some e := by
  induction l generalizing s registers with
  | nil => exact .pure ⟨held, fun r h => h.resolve_right not_mem_nil⟩
  | cons a l ih =>
    refine (h a (.head _) registers s).bind ?_
    rintro _ s1 ⟨e, initial, rfl⟩
    refine (ih (fun {r x} found => ?_) fun b mem => h b (.tail _ mem)).imp
      fun registers' ⟨held', all⟩ => ⟨held', fun r mem => all r ?_⟩
    · rw [Table.get?_insert] at found
      split at found
      case isTrue same =>
        cases found
        exact eq_of_beq same ▸ initial
      case isFalse => exact held found
    · rw [Table.get?_insert]
      by_cases same : r = k a
      · exact .inl ⟨e, if_pos (by simpa using same)⟩
      · rw [if_neg (by simpa using same)]
        exact mem.imp_right fun mem => (mem_cons.1 mem).resolve_left same

lemma symbol_keeps (name : String) : Keeps s (symbol name) fun e => ∃ t, e = .symbol name t := by
  refine (sharedType_keeps (fun _ _ => ?_) name).bind fun t _ _ => .pure ⟨t, rfl⟩
  exact ⟨rfl, rfl, rfl, rfl, rfl, rfl, rfl, id⟩

lemma callerRegisters_keeps :
    Keeps s callerRegisters fun registers => (∀ {r e}, registers.get? r = some e → Initial r e) ∧
      ∀ r ∈ ⟨"sp"⟩ :: calleeSaved, ∃ e, registers.get? r = some e := by
  have named : ∀ r ∈ calleeSaved, symbolRegister? (savedName r) = some r := by decide
  refine (freshType_keeps rfl).bind fun t s1 _ => ?_
  have first {r} {e}
      (found : (Table.empty.insert ⟨"sp"⟩ (.symbol "sp" t)).get? r = some e) : Initial r e := by
    rw [Table.get?_insert] at found
    split at found
    case isTrue same =>
      cases found
      exact .symbol (by rw [eq_of_beq same]; decide)
    case isFalse => cases found
  refine (foldlM_fills first (k := id) fun r mem registers s => ?_).imp
    fun registers ⟨held, all⟩ => ⟨held, fun r mem => all r ?_⟩
  · refine (symbol_keeps _).bind ?_
    rintro _ s2 ⟨t, rfl⟩
    exact .pure ⟨_, .symbol (named r mem), rfl⟩
  · rcases mem_cons.1 mem with rfl | mem
    · exact .inl ⟨_, Table.get?_insert _ _ _ _⟩
    · exact .inr mem

lemma usualArguments_keeps (held : ∀ {r e}, registers.get? r = some e → Initial r e) :
    Keeps s (usualArguments registers) fun registers' =>
      (∀ {r e}, registers'.get? r = some e → Initial r e) ∧ ∀ r, (∃ e, registers.get? r = some e) ∨
        r ∈ ["a0", "a1", "a2", "a3"].map Register.mk → ∃ e, registers'.get? r = some e := by
  refine (foldlM_fills held (k := fun a => ⟨a.1⟩) fun a mem registers s => ?_).imp
    fun registers ⟨held, all⟩ => ⟨held, fun r mem => all r (mem.imp_right fun mem => ?_)⟩
  · obtain ⟨name, place, node⟩ := a
    have facts : node.target = none ∧ ∃ r', argumentRegister? place = some r' ∧
        (⟨name⟩ ∈ generalRegisters → ⟨name⟩ = r') := by
      simp only [mem_cons, not_mem_nil, or_false, Prod.mk.injEq] at mem
      rcases mem with ⟨rfl, rfl, rfl⟩ | ⟨rfl, rfl, rfl⟩ | ⟨rfl, rfl, rfl⟩ | ⟨rfl, rfl, rfl⟩ |
        ⟨rfl, rfl, rfl⟩ | ⟨rfl, rfl, rfl⟩
      all_goals exact ⟨rfl, _, rfl, by decide⟩
    obtain ⟨target, r', found, same⟩ := facts
    refine (freshType_keeps target).bind fun t s1 _ => ?_
    refine Keeps.bind (P := fun e => e = .argument place false t) ?_ ?_
    · exact Ensures.bind (.expect (Q := fun _ s' => s' = s1) fun _ => rfl) fun _ s2 same =>
        .pure ⟨same ▸ .refl, rfl⟩
    · rintro _ s2 rfl
      exact .pure ⟨_, .argument found same, rfl⟩
  · simp only [map_cons, map_nil, mem_cons, not_mem_nil, or_false] at mem ⊢
    rcases mem with rfl | rfl | rfl | rfl <;> simp

lemma Initial.content (h : Initial r e) :
    ∃ v, Content w s e v ∧ (r ∈ generalRegisters → v = w.start r) := by
  cases h with
  | @argument r' place t found same =>
    refine ⟨w.start r', .held ⟨.argument found, ?_, le_refl _⟩, fun mem => by rw [same mem]⟩
    exact .of_parts (by simp) (by simp [Session.parts])
  | @symbol name t found =>
    refine ⟨w.start r, .held ⟨.symbol found, ?_, le_refl _⟩, fun _ => rfl⟩
    exact .of_parts (by simp) (by simp [Session.parts])

/-- What the caller leaves in the registers is what the code starts with. -/
lemma running_start (temps : s.temps = #[]) (bare : s.types.Bare)
    (held : ∀ {r e}, registers.get? r = some e → Initial r e)
    (all : ∀ r ∈ entryRegisters, r ≠ .zero → ∃ e, registers.get? r = some e) :
    Running start m0 entryRegisters ⟨start, m0⟩ [] { s with work := { registers } } := by
  have value (id) : { s with work := { registers } }.value id = default := by
    rw [temps]
    rfl
  refine ⟨⟨⟨⟨?_, ?_, ?_⟩, ?_, ?_, ?_, ?_⟩, bare, ?_⟩, ?_, ?_, .nil⟩
  iterate 3
    · intro id lt
      simp [temps] at lt
  · simp [temps, Session.view]
  · intro id v found
    cases found
  · intro id _
    rw [value]
    decide
  · intro id
    exact settled_of_unused (uses_of_size_le (by simp [temps]))
  · intro r mem other
    obtain ⟨e, found⟩ := all r mem other
    obtain ⟨v, content, same⟩ := (held found).content
    have general : r ∈ generalRegisters :=
      (by decide : ∀ r ∈ entryRegisters, r ∈ generalRegisters) r mem
    rw [same general] at content
    refine ⟨e, found, ?_⟩
    rw [Machine.get, if_neg other]
    exact content
  · intro r e found
    obtain ⟨v, content, -⟩ := (held found).content
    exact ⟨v, content⟩
  · intro id _
    rw [value]
    rfl

end

structure Finished (start : Register → Word) (m0 : Memory) (stmts : List Stmt) (m : Memory)
    (s : Session) : Prop where
  ordered : s.Ordered
  pure : s.TrivialPure
  trace : ∃ vals, vals.length = s.temps.size ∧ Trace start m0 s stmts.reverse vals m
  usedJoins : s.usedJoins = #[]

def Session.Only (s : Session) (stmts : List Stmt) : Prop :=
  ∃ b, s.blocks = #[b] ∧ b.statements = stmts ∧ ∀ e, b.returnValue = some e → Plain s.temps.size e

section

variable {start : Register → Word} {m0 : Memory} {stmts : List Stmt} {s s' : Session}

section

variable (h : Finished start m0 stmts m s)

include h

lemma Finished.of_grown (size : s'.temps.size = s.temps.size)
    (grown : ∀ id, (s.temp id).Grown (s'.temp id)) (evolves : s.Evolves s')
    (usedJoins : s'.usedJoins = s.usedJoins) : Finished start m0 stmts m s' := by
  obtain ⟨vals, length, trace⟩ := h.trace
  refine ⟨h.ordered.of_grown size grown, fun id trivial => ?_, ⟨vals, ?_, ?_⟩, ?_⟩
  · rw [Session.value, (grown id).value]
    exact h.pure id ((grown id).trivial trivial)
  · rw [length, size]
  · exact trace.evolves evolves h.pure (le_of_eq length)
  · rw [usedJoins, h.usedJoins]

lemma Finished.advances (advances : s.Advances s') : Finished start m0 stmts m s' :=
  h.of_grown advances.size advances.temps advances.evolves advances.usedJoins

lemma Finished.agrees (agrees : s.Agrees s') : Finished start m0 stmts m s' := by
  have size : s'.temps.size = s.temps.size := by simpa using congrArg Array.size agrees.temps
  have uses (id) : (s'.temp id).uses = (s.temp id).uses :=
    congrArg (·.uses) (agrees.temp id)
  have trivial (id) : (s'.temp id).trivial = (s.temp id).trivial :=
    congrArg (·.trivial) (agrees.temp id)
  have grown (id) : (s.temp id).Grown (s'.temp id) :=
    ⟨agrees.value id, congrArg (·.exactlyOnce) (agrees.temp id), le_of_eq (uses id).symm,
      fun h => trivial id ▸ h⟩
  refine h.of_grown size grown ⟨le_of_eq size.symm, fun _ => (grown _).value,
    fun _ free => free.grown grown, fun _ ripe => ripe.grown grown, fun _ _ _ settled => ?_⟩
    agrees.usedJoins
  exact settled.grown grown fun pos => uses _ ▸ pos

lemma Finished.of_temps (temps : s'.temps = s.temps)
    (usedJoins : s'.usedJoins = s.usedJoins) : Finished start m0 stmts m s' := by
  refine h.of_grown (by rw [temps]) (fun id => ?_) (evolves_of_temps h.ordered temps) usedJoins
  rw [Session.temp, Session.temp, temps]
  exact .refl

end

lemma Session.Only.modify (h : s.Only stmts) (n : Nat)
    (statements : ∀ b, (f b).statements = b.statements)
    (returned : ∀ b e, (f b).returnValue = some e → Plain s.temps.size e) :
    ({ s with blocks := s.blocks.modify n f } : Session).Only stmts := by
  obtain ⟨b, only, rfl, plain⟩ := h
  cases n with
  | zero =>
    refine ⟨f b, ?_, statements b, returned b⟩
    rw [only]
    rfl
  | succ n =>
    refine ⟨b, ?_, rfl, plain⟩
    rw [only]
    exact Array.ext (by simp) fun i _ _ => by simp

lemma Session.Only.returned (h : s.Only stmts) (found : (s.block n).returnValue = some e) :
    Plain s.temps.size e := by
  obtain ⟨b, only, -, plain⟩ := h
  rw [block, only] at found
  cases n with
  | zero => exact plain e found
  | succ n => cases found

lemma Session.Only.advances (h : s.Only stmts) (advances : s.Advances s') : s'.Only stmts := by
  obtain ⟨b, only, statements, plain⟩ := h
  exact ⟨b, advances.blocks.trans only, statements, fun e found => advances.size ▸ plain e found⟩

lemma Plain.casted (h : Plain n e) (casted : Casted e e') : Plain n e' := by
  rcases casted with rfl | ⟨t, rfl⟩
  · exact h
  · exact .cast h

lemma settleReturns_finished (h : Finished start m0 stmts m s) (only : s.Only stmts)
    (hasValue : Bool) (type : TypeId) :
    Ensures s (settleReturns hasValue type) fun _ s' =>
      Finished start m0 stmts m s' ∧ s'.Only stmts := by
  refine .get (.forM ⟨h, only⟩ fun n _ s ⟨h, only⟩ => .get ?_)
  cases found : (s.block n).returnValue with
  | none => exact .pure ⟨h, only⟩
  | some e =>
    have plain := only.returned found
    refine .ite (fun _ => ?_) fun _ => ?_
    · refine Ensures.bind (asType_keeps e type true) fun value s1 ⟨kept, casted⟩ => ?_
      have advances := kept.advances
      have plain : Plain s1.temps.size value := advances.size ▸ plain.casted casted
      have h1 := h.advances advances
      have only1 := (only.advances advances).modify n (f := fun b => { b with returnValue := some value })
        (fun _ => rfl) fun _ _ found => Option.some.inj found ▸ plain
      refine Ensures.bind (.modify (Q := fun _ s' => Finished start m0 stmts m s' ∧ s'.Only stmts ∧
        Plain s'.temps.size value) ⟨h1.of_temps rfl rfl, only1, plain⟩) fun _ s2 ⟨h2, only2, plain⟩ => ?_
      refine (use_used h2.ordered plain).imp fun _ s3 used => ?_
      exact ⟨h2.advances used.advances, only2.advances used.advances⟩
    · refine .modify ⟨h.of_temps rfl rfl, only.modify n (fun _ => rfl) fun _ _ found => ?_⟩
      cases found

lemma spreadReturns_finished (h : Finished start m0 stmts m s) (only : s.Only stmts) (g : Graph) :
    Ensures s (spreadReturns g) fun _ s' => Finished start m0 stmts m s' ∧ s'.Only stmts := by
  refine .modify ⟨h.of_temps rfl rfl, ?_⟩
  obtain ⟨b, blocks, statements, plain⟩ := only
  let marks := spread g (s.blocks.map (·.hasCall)) (s.blocks.map (·.customReturn))
  refine ⟨{ b with customReturn := marks.getD 0 false }, ?_, statements, plain⟩
  simp only [marks, blocks, mapIdx_toArray, mapIdx_cons, mapIdx_nil]

lemma settleJoins_unused (none : s.usedJoins = #[]) :
    Ensures s (settleJoins g) fun _ s' => s' = s := by
  refine .get (Ensures.bind (P := fun _ s' => s' = s) ?_ ?_)
  · refine .get ?_
    rw [none]
    exact .pure rfl
  · rintro _ s rfl
    refine .get ?_
    rw [none]
    exact .pure rfl

end

section

variable {start : Register → Word} {m0 : Memory} {known : List Register} {μ : Machine}
  {vals : List Word} {s : Session} {e : Expr} {v : Word} {ops : List Op} {node : Node} {copy : Nat}

lemma Content.plain (h : Content w s e v) : Plain w.vals.length e := by
  cases h with
  | forced found => exact .forced (List.getElem?_eq_some_iff.1 found).1
  | held holds => exact holds.means.plain

lemma runNode_finished (h : Running start m0 known μ vals s)
    (general : ∀ r ∈ known, r ∈ generalRegisters) (usedJoins : s.usedJoins = #[])
    (condition : s.work.condition = none) (switchValue : s.work.switchValue = none)
    (link : node.link = .exit copy) (code : straightOps? node.block.instructions = some ops)
    (tame : Tame s.frame known ops) :
    Ensures s (runNode node) fun b s' => Finished start m0 b.statements (Op.run ops μ).memory s' ∧
      s'.blocks = s.blocks ∧ ∀ e, b.returnValue = some e → Plain s'.temps.size e := by
  unfold runNode runInstructions
  rw [link]
  refine (runInstructions_running h code general tame).bind ?_
  rintro _ s1 ⟨⟨known1, vals1, running⟩, beside⟩
  have none {f : Expr → Evaluation PUnit} : none.forM f = pure ⟨⟩ := rfl
  refine .get ?_
  rw [beside.condition, condition, none, pure_bind]
  refine .get ?_
  rw [beside.switchValue, switchValue]
  refine .get (.pure ⟨?_, beside.blocks, fun e found => ?_⟩)
  · refine ⟨running.ready.consistent.ordered, running.pure, ⟨vals1, running.length, running.trace⟩, ?_⟩
    rw [beside.usedJoins, usedJoins]
  · split at found
    · obtain ⟨v, content⟩ := running.contents found
      exact content.plain.mono (le_of_eq running.length)
    · cases found

structure Session.Entered (s : Session) : Prop where
  temps : s.temps = #[]
  bare : s.types.Bare
  usedJoins : s.usedJoins = #[]
  blocks : s.blocks = #[default]

/-- Evaluating the one block leaves the memory that running it leaves. -/
lemma evalFrom_finished (stops : o.stopOnError) (single : g.nodes = #[node])
    (link : node.link = .exit copy) (leaf : node.immediatelyDominates = [])
    (code : straightOps? node.block.instructions = some ops)
    (held : ∀ {r e}, registers.get? r = some e → Initial r e)
    (all : ∀ r ∈ entryRegisters, r ≠ .zero → ∃ e, registers.get? r = some e) (entered : s.Entered)
    (tame : Tame s.frame entryRegisters ops) :
    Ensures s (evalFrom o g fx (depth + 1) 0 registers) fun _ s' => ∃ stmts,
      Finished start m0 stmts (Op.run ops ⟨start, m0⟩).memory s' ∧ s'.Only stmts := by
  have general : ∀ r ∈ entryRegisters, r ∈ generalRegisters := by decide
  have found : g.nodes.getD 0 default = node := by
    rw [single]
    rfl
  rw [evalFrom_parts, evalNode_eq, Graph.children, found, leaf, bind_assoc]
  refine Ensures.bind (P := fun _ s' => ∃ console, s' = { s with console })
    (.ite (fun _ => .modify ⟨_, rfl⟩) fun _ => .pure ⟨_, rfl⟩) ?_
  rintro _ _ ⟨console, rfl⟩
  rw [bind_assoc]
  refine .bind_modify ?_
  have running : Running start m0 entryRegisters ⟨start, m0⟩ []
      { s with console, work := { registers } } :=
    running_start (s := { s with console }) entered.temps entered.bare held all
  refine Ensures.bind (P := fun b s' =>
    Finished start m0 b.statements (Op.run ops ⟨start, m0⟩).memory s' ∧
      s'.blocks = #[default] ∧ ∀ e, b.returnValue = some e → Plain s'.temps.size e) ?_ ?_
  · refine .tryCatch ?_ fun e s' => ?_
    · refine (runNode_finished running general entered.usedJoins rfl rfl link code tame).bind ?_
      rintro b s1 ⟨finished, blocks, plain⟩
      refine (Notes.agrees inferInstance).ensures.bind fun _ s2 agrees => .pure ?_
      have size : s2.temps.size = s1.temps.size := by
        simpa using congrArg Array.size agrees.temps
      exact ⟨finished.agrees agrees, agrees.blocks.trans (blocks.trans entered.blocks),
        fun e found => size ▸ plain e found⟩
    · rw [if_pos stops]
      exact .throw _
  · rintro b s1 ⟨finished, blocks, plain⟩
    rw [record, bind_assoc]
    refine Ensures.bind (P := fun _ s' => Finished start m0 b.statements
      (Op.run ops ⟨start, m0⟩).memory s' ∧ s'.Only b.statements) (.modify ⟨?_, ?_⟩) ?_
    · exact finished.of_temps rfl rfl
    · refine ⟨b, ?_, rfl, plain⟩
      rw [blocks]
      rfl
    · rintro _ s2 ⟨finished, only⟩
      refine Ensures.bind
        (.ite (fun _ => .modify ⟨finished.of_temps rfl rfl, only⟩) fun _ => .pure ⟨finished, only⟩)
        fun _ s3 h => .pure ⟨b.statements, h⟩

end

section

variable {start : Register → Word} {m0 : Memory} {s : Session} {ops : List Op} {node : Node}
  {copy : Nat}

lemma signature?_of_bare (bare : s.types.Bare) (name : String) : s.signature? name = none := by
  rw [Session.signature?, Session.declarations, bare.context]
  rfl

/-- What is done after the block has been evaluated changes no memory. -/
lemma evalFunction_finished (stops : o.stopOnError) (single : g.nodes = #[node])
    (link : node.link = .exit copy) (leaf : node.immediatelyDominates = [])
    (code : straightOps? node.block.instructions = some ops)
    (framed : Frame.ofEntry node.block.instructions = .ok frame) (tame : Tame frame entryRegisters ops)
    (temps : s.temps = #[]) (bare : s.types.Bare) (usedJoins : s.usedJoins = #[]) (name : String) :
    Ensures s (evalFunction o name g) fun _ s' =>
      Finished start m0 (s'.block 0).statements (Op.run ops ⟨start, m0⟩).memory s' := by
  have found : g.nodes.getD 0 default = node := by
    rw [single]
    rfl
  unfold evalFunction
  rw [found]
  refine .ok framed ?_
  refine Ensures.bind (P := fun _ s' => s'.Entered ∧ s'.frame = frame) (.modify ?_) ?_
  · exact ⟨⟨temps, bare, usedJoins, by simp [single]⟩, rfl⟩
  rintro _ s1 ⟨entered, rfl⟩
  refine Ensures.bind callerRegisters_keeps fun registers s2 ⟨kept, held, saved⟩ => .get ?_
  rw [signature?_of_bare (kept.bare entered.bare)]
  refine Ensures.bind (freshType_keeps rfl) fun returnType s3 ⟨kept', _⟩ => ?_
  refine Ensures.bind (usualArguments_keeps held) fun registers s4 ⟨kept'', held, usual⟩ => ?_
  have kept := (kept.trans kept').trans kept''
  have all (r) (mem : r ∈ entryRegisters) (other : r ≠ .zero) :
      ∃ e, registers.get? r = some e := by
    refine usual r ?_
    have cases : ∀ r ∈ entryRegisters, r ≠ .zero → r ∈ ⟨"sp"⟩ :: calleeSaved ∨
        r ∈ ["a0", "a1", "a2", "a3"].map Register.mk := by decide
    exact (cases r mem other).imp_left (saved r)
  have entered : s4.Entered :=
    ⟨kept.temps.trans entered.temps, kept.bare entered.bare, kept.usedJoins.trans entered.usedJoins,
      kept.blocks.trans entered.blocks⟩
  have rest (s5) (entered : s5.Entered) (frame : s5.frame = s1.frame) :
      Ensures s5 (evalEntered o g none returnType registers) fun _ s' =>
        Finished start m0 (s'.block 0).statements (Op.run ops ⟨start, m0⟩).memory s' := by
    refine .get ?_
    have evaluate := @evalFrom_finished start m0
    refine (evaluate stops single link leaf code held all entered (frame ▸ tame)).bind
      fun _ s6 ⟨stmts, finished, only⟩ => ?_
    refine (spreadReturns_finished finished only g).bind fun _ s7 ⟨finished, only⟩ => ?_
    refine .get ((settleReturns_finished finished only _ _).bind fun _ s8 ⟨finished, only⟩ => ?_)
    refine (settleJoins_unused finished.usedJoins).bind ?_
    rintro _ s9 rfl
    obtain ⟨b, blocks, rfl, -⟩ := only
    refine .pure ?_
    rwa [Session.block, blocks]
  refine .ite (fun _ => ?_) fun _ => rest s4 entered kept.frame
  refine Ensures.bind (P := fun _ s' => s'.Entered ∧ s'.frame = s1.frame) (.modify ?_) ?_
  · exact ⟨⟨entered.temps, entered.bare, entered.usedJoins, entered.blocks⟩, kept.frame⟩
  rintro _ s5 ⟨entered, frame⟩
  refine Ensures.bind (P := fun _ s' => s'.Entered ∧ s'.frame = s1.frame) (.modify ?_) ?_
  · exact ⟨⟨entered.temps, entered.bare, entered.usedJoins, entered.blocks⟩, frame⟩
  rintro _ s6 ⟨entered, frame⟩
  exact rest s6 entered frame

end

end Decompiler.Eval
