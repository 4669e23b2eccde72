import Decompiler.Proofs.JoinSettling
import Decompiler.Proofs.Writing

/-!
# The variables of joins

A join that code uses is written as its value, or as a variable that is declared. A join that only
serves to set another one needs neither, since it is not written.

Main statement: `prints_undeclared_iff_recast`.
-/

namespace Decompiler.Eval

open Asm Code Infer Decompiler.Flow Array List Session

def AddsStatements (s s' : Session) : Prop :=
  ∀ i, (s.block i).statements ⊆ (s'.block i).statements

instance : IsPreorder Session AddsStatements where
  refl _ _ := Subset.refl _
  trans _ _ _ h h' i := Subset.trans (h i) (h' i)

section Errors

variable {s s' : Session}

lemma Session.HasError.adds (h : s.HasError) (adds : AddsStatements s s') : s'.HasError := by
  obtain ⟨i, comment⟩ := h
  obtain ⟨stmt, mem, comment⟩ := any_eq_true.1 comment
  exact ⟨i, any_eq_true.2 ⟨stmt, adds i mem, comment⟩⟩

lemma Session.Noted.adds (h : s.Noted s') : AddsStatements s s' := by
  intro i
  rw [block_of_blocks h.blocks]
  exact Subset.refl _

lemma Notes.adds {x : Evaluation α} (h : Noting x) : Respects AddsStatements x :=
  h.noted.imp fun _ _ => Noted.adds

lemma modifyBlock_adds (h : ∀ b, b.statements ⊆ (f b).statements) :
    Respects AddsStatements (modifyBlock n f) := by
  refine .modify fun s i => ?_
  rcases block_modify s n i f with ⟨kept, -⟩ | ⟨-, changed⟩
  · rw [kept]
    exact Subset.refl _
  · rw [changed]
    exact h _

lemma spreadReturns_adds (g : Graph) : Respects AddsStatements (spreadReturns g) := by
  refine .modify fun s i => ?_
  simp only [block, getD_eq_getD_getElem?, Array.getElem?_mapIdx]
  cases s.blocks[i]? with
  | none | some b => exact Subset.refl _

lemma settleReturns_adds (hasValue : Bool) (type : TypeId) :
    Respects AddsStatements (settleReturns hasValue type) := by
  refine .bind .get fun s => .forM fun n _ => .bind .get fun s => ?_
  split
  · exact .pure _
  · refine .ite ?_ (modifyBlock_adds fun _ => Subset.refl _)
    refine asType_noting.adds.bind fun value => ?_
    refine (modifyBlock_adds ?_).bind fun _ => use_noting.adds
    exact fun _ => Subset.refl _

lemma settleJoin_adds (g : Graph) (id : JoinId) : Respects AddsStatements (settleJoin g id) := by
  have used (source) : Respects AddsStatements (useByJoin source id) := by
    refine ((countJoin_noted _ _).imp fun _ _ => Noted.adds).bind fun _ => ?_
    refine .bind .get fun s => ?_
    split
    · exact use_noting.adds
    · exact .pure _
  refine .bind .get fun s => .bind .expect fun _ => .bind .expect fun _ => ?_
  refine joinedValues_noting.adds.bind fun values => .bind .get fun s => .ite ?_ ?_
  · refine asType_noting.adds.bind fun value => ?_
    refine ((modifyJoin_noted _ _).imp fun _ _ => Noted.adds).bind fun _ => ?_
    refine Notes.forM.adds.bind fun _ => .bind .get fun s => ?_
    exact Notes.forM.adds
  · refine .forM fun p _ => .bind .get fun s => readFrom_noting.adds.bind fun e => ?_
    have last (e) (type) : Respects AddsStatements (do
        let value ← asType e type true
        modifyBlock p fun b => { b with statements := b.statements ++ [.setJoin id value] }) := by
      refine asType_noting.adds.bind fun value => modifyBlock_adds fun b => ?_
      exact subset_append_left _ _
    cases e with
    | join source t => exact (used source).bind fun _ => last _ _
    | _ => exact use_noting.adds.bind fun _ => last _ _

lemma settleJoins_adds (g : Graph) : Respects AddsStatements (settleJoins g) := by
  have settle (fuel position : Nat) : Respects AddsStatements (settleFrom g fuel position) := by
    induction fuel generalizing position with
    | zero => exact .throw _
    | succ fuel ih =>
      refine .bind .get fun s => ?_
      split
      · exact (settleJoin_adds g _).bind fun _ => ih _
      · exact .pure _
  refine .bind .get fun s => (settle _ _).bind fun _ => .bind .get fun s => .discard (.foldlM ?_)
  intro counts id
  refine .bind .get fun s => .ite (.pure _) (.bind (.lift _) fun d => .ite (.pure _) ?_)
  refine ((modifyJoin_noted _ _).imp fun _ _ => Noted.adds).bind fun _ => ?_
  refine .bind (.modify fun s i => ?_) fun _ => .pure _
  exact Subset.refl _

end Errors

section Functions

variable {s : Session} {o : Options} {g : Graph}

instance : Noting (untouchedArgument place type) := by
  unfold untouchedArgument
  infer_instance

instance : Noting (declareParameter place name type) := by
  have named (n : String) : Noting (modify fun s : Session =>
      { s with argumentNames := s.argumentNames.insert place n }) :=
    .modify fun _ => .other
  unfold declareParameter
  split <;> infer_instance

instance declaredArguments_noting {f registers} : Noting (declaredArguments f registers) := by
  have parameter (registers : Registers) (slot : Slot) : Noting (do
      declareParameter slot.offset slot.name slot.type
      match slot.register with
      | some r => return registers.insert r (← untouchedArgument slot.offset slot.type)
      | none => return registers) := by
    refine .bind inferInstance fun _ => ?_
    split <;> infer_instance
  unfold declaredArguments
  infer_instance

instance usualArguments_noting : Noting (usualArguments registers) := by
  unfold usualArguments
  infer_instance

instance callerRegisters_noting : Noting callerRegisters := by
  unfold callerRegisters
  infer_instance

lemma evaluated_start (console : Console) (types : Types) (rodata : Rodata) (frame : Frame)
    (nodes : Array Node) :
    ({ console, types, rodata, frame, blocks := nodes.map fun _ => default } :
      Session).Evaluated := by
  have block (i) : ({ console, types, rodata, frame, blocks := nodes.map fun _ => default } :
      Session).block i = default := by
    simp only [block, getD_eq_getD_getElem?, Array.getElem?_map]
    cases nodes[i]? with
    | none | some _ => rfl
  have unused : ¬ (0 < (default : Temp).uses ∨ (default : Temp).exactlyOnce) := by decide
  refine ⟨⟨⟨fun id _ used => ?_, fun id value _ found => ?_, fun id => ?_, nodup_nil⟩,
    fun id => ?_, rfl⟩, fun i => ?_, fun i returns => ?_⟩
  · exact absurd used unused
  · cases found
  · constructor <;> rintro ⟨⟩
  · exact ⟨rfl, rfl⟩
  · rw [block]
    constructor <;> rintro _ ⟨⟩
  · rw [block] at returns
    exact absurd rfl returns

lemma spreadReturns_evaluated (h : s.Evaluated) :
    Ensures s (spreadReturns g) fun _ s' => s'.Evaluated := by
  let marks := spread g (s.blocks.map (·.hasCall)) (s.blocks.map (·.customReturn))
  let s1 : Session := { s with
    blocks := s.blocks.mapIdx fun n b => { b with customReturn := marks.getD n false } }
  have block (i) : ∃ mark, s1.block i = { s.block i with customReturn := mark } := by
    simp only [s1, block, getD_eq_getD_getElem?, Array.getElem?_mapIdx]
    cases s.blocks[i]? with
    | none | some b => exact ⟨_, rfl⟩
  have same : s.Recounted none s1 := .of_same rfl rfl rfl rfl
  refine .modify ?_
  refine ⟨same.clean h.toClean, fun i => ?_, fun i returns => ?_⟩
  · obtain ⟨mark, marked⟩ := block i
    have covers := (h.results i).grows same.grows
    rw [marked]
    exact ⟨covers.statements, covers.condition, covers.switchValue⟩
  · obtain ⟨mark, marked⟩ := block i
    rw [marked] at returns
    exact h.exits i returns

def Session.Ready (g : Graph) (s : Session) : Prop :=
  s.Evaluated ∧ s.blocks.size = g.nodes.size

lemma Session.Ready.noting (h : s.Ready g) {x : Evaluation α} {f} {Q : β → Session → Prop}
    (noting : Noting x) (next : ∀ a s', s'.Ready g → Ensures s' (f a) Q) : Ensures s (x >>= f) Q :=
  ((noting.evaluated h.1).and noting.noted.ensures).bind fun a s' ⟨h', noted⟩ =>
    next a s' ⟨h', noted.blocks ▸ h.2⟩

lemma evalEntered_resolved (tree : g.DominatorTree) (some_node : 0 < g.nodes.size) (h : s.Ready g)
    (signature? : Option C.Signature) (returnType : TypeId) (registers : Registers) :
    Ensures s (evalEntered o g signature? returnType registers) fun _ s' =>
      s'.HasError ∨ s'.Resolved := by
  refine .get (Ensures.bind (evalFrom_evaluated tree some_node h.1 h.2) fun _ s h => ?_)
  rcases h with error | h
  · refine (spreadReturns_adds g).ensures.bind fun _ s1 first => .get ?_
    refine (settleReturns_adds _ _).ensures.bind fun _ s2 second => ?_
    refine (settleJoins_adds g).ensures.bind fun _ s3 third => .pure (.inl ?_)
    exact ((error.adds first).adds second).adds third
  · refine (spreadReturns_evaluated h).bind fun _ s1 h1 => .get ?_
    refine (settleReturns_settling h1 _ _).bind fun _ s2 h2 => ?_
    exact (settleJoins_resolved g h2).bind fun _ s3 h3 => .pure (.inr h3)

/-- A function that is evaluated without errors has all joins resolved. -/
lemma evalFunction_resolved (tree : g.DominatorTree) (some_node : 0 < g.nodes.size) (name : String)
    (console : Console) (types : Types) (rodata : Rodata) :
    Ensures { console, types, rodata } (evalFunction o name g) fun _ s' =>
      s'.HasError ∨ s'.Resolved := by
  have rest (signature?) (returnType) (registers) (first second) (s) (h : s.Ready g) :
      Ensures s (do
        if o.debug then
          printOut first
          printOut second
        evalEntered o g signature? returnType registers) fun _ s' => s'.HasError ∨ s'.Resolved := by
    have entered {s : Session} (h : s.Ready g) := evalEntered_resolved (o := o) tree some_node h
    refine .ite (fun _ => ?_) fun _ => entered h _ _ _
    refine h.noting printOut_noting fun _ s1 h1 => ?_
    exact h1.noting printOut_noting fun _ s2 h2 => entered h2 _ _ _
  refine .bind_lift fun frame _ => ?_
  refine .bind (P := fun _ s' => s'.Ready g) (.modify ?_) fun _ s1 h1 => ?_
  · exact ⟨evaluated_start _ _ _ _ _, size_map ..⟩
  refine h1.noting callerRegisters_noting fun registers s2 h2 => .get ?_
  generalize s2.signature? name = signature?
  have variadic : Noting (modify fun s : Session => { s with isVariadic := true }) :=
    .modify fun _ => .other
  cases signature? with
  | none =>
    refine h2.noting freshType_noting fun returnType s3 h3 => ?_
    exact h3.noting usualArguments_noting fun registers s4 h4 => rest _ _ _ _ _ s4 h4
  | some f =>
    cases result : f.result <;> simp only [Option.bind_some, result]
    all_goals
      refine h2.noting (by infer_instance) fun returnType s3 h3 => .ite (fun _ => ?_) fun _ => ?_
      · refine h3.noting variadic fun _ s4 h4 => .ite (fun _ => ?_) fun _ => ?_
        · exact h4.noting declaredArguments_noting fun _ s5 h5 => rest _ _ _ _ _ s5 h5
        · exact h4.noting usualArguments_noting fun _ s5 h5 => rest _ _ _ _ _ s5 h5
      · refine .ite (fun _ => ?_) fun _ => ?_
        · exact h3.noting declaredArguments_noting fun _ s4 h4 => rest _ _ _ _ _ s4 h4
        · exact h3.noting usualArguments_noting fun _ s4 h4 => rest _ _ _ _ _ s4 h4

end Functions

inductive Session.Shows (s : Session) : Expr → JoinId → Prop where
  | here {id t} :
    s.Shows (.join id t) id
  | replaced {id t value k} :
    (s.join id).replacement = some value →
    s.Shows value k →
    s.Shows (.join id t) k
  | part {e x k} :
    x ∈ s.parts e →
    s.Shows x k →
    s.Shows e k

/-- A join is met when a statement is written: in an expression, or as the variable that is set. -/
inductive Session.ShowsIn (s : Session) : Stmt → JoinId → Prop where
  | temp {id k} :
    s.Shows (s.temp id).value k →
    s.ShowsIn (.setTemp id) k
  | value {id value k} :
    s.Shows value k →
    s.ShowsIn (.setJoin id value) k
  | target {id value k} :
    s.destination id = .ok k →
    s.ShowsIn (.setJoin id value) k
  | run {value k} :
    s.Shows value k →
    s.ShowsIn (.run value) k
  | stored {value dest k} :
    s.Shows value k →
    s.ShowsIn (.store value dest) k
  | place {value dest k} :
    s.Shows dest k →
    s.ShowsIn (.store value dest) k

/-- A join is met when a function is written: in a statement that is written, a condition, the value
of a switch or a value that is returned. -/
inductive Session.Prints (s : Session) : JoinId → Prop where
  | statement :
    s.shown i = .ok stmts →
    stmt ∈ stmts →
    s.ShowsIn stmt k →
    s.Prints k
  | condition :
    (s.block i).condition = some e →
    s.Shows e k →
    s.Prints k
  | switchValue :
    (s.block i).switchValue = some e →
    s.Shows e k →
    s.Prints k
  | returnValue :
    (s.block i).returnValue = some e →
    s.Shows e k →
    s.Prints k

def Session.Recast (s : Session) (id : JoinId) : Prop :=
  (s.join id).replacement = none ∧ ∃ i target t type reinterpret silent,
    .setJoin target (.cast (.join id t) type reinterpret silent) ∈ (s.block i).statements ∧
      (s.join id).usedBy = some target

section Printing

variable {s : Session} {e value : Expr} {id k : JoinId} {i : Nat}

lemma Session.Sound.shows (sound : s.Sound (fun _ => False) fun _ => False)
    (counted : s.Counted e) (shows : s.Shows e k) :
    0 < (s.join k).uses ∧ (s.join k).usedBy = none := by
  induction shows with
  | here =>
    cases counted with
    | join pos code => exact ⟨pos, code⟩
    | parts _ noJoin _ => exact absurd rfl (noJoin _ _)
  | replaced found _ ih => exact ih (sound.replacements _ _ nofun found)
  | part mem _ ih =>
    cases counted with
    | @temp id _ pos =>
      rw [parts] at mem
      split at mem
      · cases mem
      · exact ih (mem_singleton.1 mem ▸ sound.values id nofun (.inl pos))
    | join => cases mem
    | parts _ _ counted => exact ih (counted _ mem)

lemma Session.Resolved.declared_of_counted (h : s.Resolved) (counted : s.Counted e)
    (shows : s.Shows e k) : s.Declared k :=
  have used := h.sound.shows counted shows
  h.declared k used.1 used.2

lemma Session.Resolved.shows_join (h : s.Resolved) (shows : s.Shows (.join id t) k) :
    k = id ∨ s.Declared k := by
  cases shows with
  | here => exact .inl rfl
  | replaced found shows =>
    exact .inr (h.declared_of_counted (h.sound.replacements _ _ nofun found) shows)
  | part mem => cases mem

lemma Session.Resolved.destination_declared (h : s.Resolved) (pos : 0 < (s.join id).uses)
    (found : s.destination id = .ok k) : s.Declared k := by
  obtain ⟨code, rfl | ⟨user, usedBy⟩⟩ := destinationFrom_last found
  · exact h.declared k pos code
  · exact h.declared k ((h.sound.listed k).2 (h.users user k usedBy).1) code

lemma run_lift_ok {x : Except Failure α} {a} (h : x = .ok a) :
    (liftM x : Evaluation α).run s = (.ok a, s) := by
  rw [h]
  rfl

lemma core_cast (s : Session) (operand : Expr) (type : TypeId) (reinterpret silent : Bool) :
    s.core (.cast operand type reinterpret silent) = .cast operand type reinterpret silent := by
  cases s.reach with
  | zero | succ _ => rfl

lemma Session.SetsJoin.uses_source (set : s.SetsJoin done id (.join source t)) :
    (s.join source).usedBy = none ∨ (s.join source).usedBy = some id := by
  rcases set.value with counted | ⟨source', t', casted | ⟨_, no⟩, -, users⟩
  · cases counted with
    | join _ code => exact .inl code
    | parts _ noJoin _ => exact absurd rfl (noJoin _ _)
  · cases casted
    exact users
  · cases no

section

variable (h : s.Resolved)

include h

/-- Whether a join is set is known, and it is set to what is written. -/
lemma Session.Resolved.isWritten_setJoin (set : s.SetsJoin s.usedJoins.toList id value) :
    ∃ answer, (isWritten (.setJoin id value)).run s = (.ok answer, s) ∧
      (answer = true → ∀ source t, value = .join source t → (s.join source).usedBy = none) ∧
      ∀ operand type reinterpret silent, value = .cast operand type reinterpret silent →
        answer = true := by
  obtain ⟨dest, before, found⟩ := h.destination ((h.sound.listed id).2 set.settled)
  have start : (isWritten (.setJoin id value)).run s =
      ((liftM (s.destination id) : Evaluation JoinId) >>= fun dest => _).run s := rfl
  rw [start, run_bind_of_ok (run_lift_ok found)]
  cases value with
  | join source t =>
    rcases set.uses_source with code | usedBy
    · rw [run_bind_of_ok (run_lift_ok (destination_self code)), if_neg (by simp)]
      dsimp only
      split <;> exact ⟨_, rfl, fun _ _ _ same => by cases same; exact code, by simp⟩
    · have forwarded : s.destination source = .ok dest := by
        rw [destination, destinationFrom, usedBy]
        exact before
      have other : dest ≠ source := by
        rintro rfl
        rw [(destinationFrom_last found).1] at usedBy
        cases usedBy
      rw [run_bind_of_ok (run_lift_ok forwarded), if_pos (by simpa using other), expect,
        if_pos (beq_self_eq_true dest)]
      exact ⟨false, rfl, by simp, by simp⟩
  | cast operand type reinterpret silent =>
    dsimp only
    rw [core_cast]
    exact ⟨true, rfl, by simp, fun _ _ _ _ _ => rfl⟩
  | _ =>
    dsimp only
    split <;> exact ⟨_, rfl, by simp, by simp⟩

lemma Session.Resolved.isWritten (mem : stmt ∈ (s.block i).statements) :
    ∃ answer, (isWritten stmt).run s = (.ok answer, s) := by
  cases stmt with
  | setJoin id value =>
    obtain ⟨answer, run, -⟩ := h.isWritten_setJoin ((h.results i).statements _ mem)
    exact ⟨answer, run⟩
  | _ => exact ⟨_, rfl⟩

lemma Session.Resolved.shown (i : Nat) : ∃ stmts, s.shown i = .ok stmts ∧ ∀ stmt, stmt ∈ stmts ↔
      stmt ∈ (s.block i).statements ∧ (Eval.isWritten stmt).run s = (.ok true, s) := by
  let answer (stmt : Stmt) : Bool := ((Eval.isWritten stmt).run s).1.toOption.getD false
  have run : ∀ stmt ∈ (s.block i).statements,
      (Eval.isWritten stmt).run s = (.ok (answer stmt), s) := by
    intro stmt mem
    obtain ⟨_, run⟩ := h.isWritten mem
    simp only [answer, run]
    rfl
  refine ⟨(s.block i).statements.filter answer, congrArg Prod.fst (run_filterM run), fun stmt => ?_⟩
  rw [List.mem_filter]
  refine and_congr_right fun mem => ?_
  rw [run stmt mem]
  refine ⟨fun yes => by rw [yes], fun same => ?_⟩
  exact Except.ok.inj (Prod.mk.inj same).1

/-- The joins in a statement that is written are declared or recast. -/
lemma Session.Resolved.showsIn (mem : stmt ∈ (s.block i).statements)
    (written : (Eval.isWritten stmt).run s = (.ok true, s)) (shows : s.ShowsIn stmt k) :
    s.Declared k ∨ s.Recast k := by
  have covers := (h.results i).statements stmt mem
  cases shows with
  | @temp id _ shows =>
    refine .inl (h.declared_of_counted (h.sound.values id nofun ?_) shows)
    have answer : (if (s.temp id).exactlyOnce then (s.temp id).uses != 1 else
        (s.temp id).isVariable) = true := Except.ok.inj (Prod.mk.inj written).1
    split at answer
    case isTrue once => exact .inr once
    case isFalse =>
      simp only [Temp.isVariable, Bool.and_eq_true, decide_eq_true_eq] at answer
      exact .inl (by omega)
  | @value id value _ shows =>
    rcases covers.value with counted | ⟨source, t, rfl | ⟨type, rfl⟩, pos, users⟩
    · exact .inl (h.declared_of_counted counted shows)
    · obtain ⟨answer, run, plain, -⟩ := h.isWritten_setJoin covers
      have yes : answer := Except.ok.inj (Prod.mk.inj (run.symm.trans written)).1
      rcases h.shows_join shows with rfl | declared
      · exact .inl (h.declared k pos (plain yes k t rfl))
      · exact .inl declared
    · obtain _ | _ | ⟨part, shows⟩ := shows
      obtain rfl := mem_singleton.1 part
      rcases h.shows_join shows with rfl | declared
      · by_cases unreplaced : (s.join k).replacement = none
        · rcases users with code | usedBy
          · exact .inl (h.declared k pos code)
          · exact .inr ⟨unreplaced, i, id, t, type, true, false, mem, usedBy⟩
        · exact .inl (.inl unreplaced)
      · exact .inl declared
  | target found =>
    exact .inl (h.destination_declared ((h.sound.listed _).2 covers.settled) found)
  | run shows => exact .inl (h.declared_of_counted covers shows)
  | stored shows => exact .inl (h.declared_of_counted covers.1 shows)
  | place shows => exact .inl (h.declared_of_counted covers.2 shows)

lemma Session.Resolved.recast (recast : s.Recast id) : s.Prints id ∧ ¬ s.Declared id := by
  obtain ⟨unreplaced, i, target, t, type, reinterpret, silent, mem, usedBy⟩ := recast
  obtain ⟨answer, run, -, isCast⟩ := h.isWritten_setJoin ((h.results i).statements _ mem)
  obtain ⟨stmts, shown, mem_iff⟩ := h.shown i
  refine ⟨.statement shown ((mem_iff _).2 ⟨mem, ?_⟩) (.value (.part mem_cons_self .here)), ?_⟩
  · rw [run, isCast _ _ _ _ rfl]
  · rintro (replaced | ⟨-, listed⟩)
    · exact replaced unreplaced
    · rw [(h.named id listed).2] at usedBy
      cases usedBy

lemma Session.Resolved.prints_undeclared (id : JoinId) :
    s.Prints id ∧ ¬ s.Declared id ↔ s.Recast id := by
  refine ⟨fun ⟨prints, undeclared⟩ => ?_, h.recast⟩
  cases prints with
  | @statement i stmts stmt _ shown mem shows =>
    obtain ⟨stmts', shown', mem_iff⟩ := h.shown i
    cases shown.symm.trans shown'
    obtain ⟨mem, written⟩ := (mem_iff stmt).1 mem
    exact (h.showsIn mem written shows).resolve_left undeclared
  | @condition i e _ found shows =>
    exact absurd (h.declared_of_counted ((h.results i).condition e found) shows) undeclared
  | @switchValue i e _ found shows =>
    exact absurd (h.declared_of_counted ((h.results i).switchValue e found) shows) undeclared
  | @returnValue i e _ found shows =>
    exact absurd (h.declared_of_counted (h.returned i e found) shows) undeclared

end

/-- In a function that is evaluated without an error, every join that is met when statements,
conditions, values of switches and returned values are written has a value or a variable, with one
kind of exception: a join that only serves to set another one is handed on to that one, but if it is
cast there, it is written nevertheless. -/
theorem prints_undeclared_iff_recast {rodata : Rodata} {body : List Item}
    {console console' : Console} {g : Graph}
    (made : (Graph.ofBody rodata body).run console = (.ok g, console'))
    {o : Options} {name : String} {types : Types} {t : TypeId} {s : Session}
    (run : (evalFunction o name g).run { console := console', types, rodata } = (.ok t, s))
    (noError : ∀ i, (s.block i).statements.any isComment = false) :
    (∀ i, ∃ stmts, s.shown i = .ok stmts) ∧
      ∀ id, s.Prints id ∧ ¬ s.Declared id ↔ s.Recast id := by
  have tree := Graph.ofBody_tree made
  obtain ⟨-, n, found, -⟩ := Graph.ofBody_rooted made
  have some_node : 0 < g.nodes.size := (Array.getElem?_eq_some_iff.1 found).1
  have resolved : s.Resolved := by
    rcases evalFunction_resolved tree some_node name console' types rodata t s run with
      ⟨i, error⟩ | resolved
    · rw [noError i] at error
      cases error
    · exact resolved
  refine ⟨fun i => ?_, resolved.prints_undeclared⟩
  obtain ⟨stmts, shown, -⟩ := resolved.shown i
  exact ⟨stmts, shown⟩

end Printing

section Examples

/-- A register is set on one of two ways, and again on one of two ways after an instruction. -/
def setAgain (between : Instruction) : List (List Instruction) :=
  [[⟨"mtc1", ["a1", "f2"], .unknown⟩,
    ⟨"beqz", ["a0", .target "L1"], .unknown⟩,
    ⟨"nop", [], .unknown⟩],
   [⟨"mtc1", ["a2", "f2"], .unknown⟩],
   [between,
    ⟨"beqz", ["a3", .target "L2"], .unknown⟩,
    ⟨"nop", [], .unknown⟩],
   [⟨"mtc1", ["a1", "f2"], .unknown⟩],
   [⟨"cvt.s.w", ["f0", "f2"], .unknown⟩,
    ⟨"jr", ["ra"], .unknown⟩,
    ⟨"nop", [], .unknown⟩]]

def setAgainBody (between : Instruction) : List Item :=
  let block (i : Nat) : List Item := ((setAgain between).getD i []).map .instruction
  block 0 ++ block 1 ++ .label "L1" :: block 2 ++ block 3 ++ .label "L2" :: block 4

def setAgainGraph (between : Instruction) : Graph :=
  let block (i : Nat) (label : Option String) (approxLabel : String) : Block :=
    ⟨i, label, approxLabel, (setAgain between).getD i []⟩
  ⟨#[{ block := block 0 none "initial", emitGoto := false, link := .branch 2 1,
       dominators := ⟨1⟩, immediatelyDominates := [1, 2] },
     { block := block 1 none "initial.1", emitGoto := false, link := .next 2, parents := [0],
       dominators := ⟨3⟩, immediateDominator := some 0 },
     { block := block 2 (some "L1") "L1", emitGoto := false, link := .branch 4 3, parents := [1, 0],
       dominators := ⟨5⟩, immediateDominator := some 0, immediatelyDominates := [3, 4] },
     { block := block 3 none "L1.1", emitGoto := false, link := .next 4, parents := [2],
       dominators := ⟨13⟩, immediateDominator := some 2 },
     { block := block 4 (some "L2") "L2", emitGoto := false, link := .exit 0, parents := [3, 2],
       dominators := ⟨21⟩, immediateDominator := some 2 }]⟩

def setAgainRun (between : Instruction) : Except Failure TypeId × Session :=
  (evalFunction { file := "f.s" } "f" (setAgainGraph between)).run { rodata := {} }

def addTwice : Instruction :=
  ⟨"add.s", ["f4", "f2", "f2"], .unknown⟩

def doNothing : Instruction :=
  ⟨"nop", [], .unknown⟩

def setJoin? : Stmt → Option JoinId
  | .setJoin id _ => some id
  | _ => none

def castJoin? : Stmt → Option JoinId
  | .setJoin _ (.cast (.join source _) _ _ _) => some source
  | _ => none

def shownList (s : Session) (node : Nat) : List Stmt :=
  (s.shown node).toOption.getD []

def shownTexts (s : Session) (node : Nat) : Option (List String) :=
  (((shownList s node).mapM (stmtText false)).run s).1.toOption

lemma shown_of_mem (mem : stmt ∈ shownList s node) : s.shown node = .ok (shownList s node) := by
  unfold shownList at mem ⊢
  cases shown : s.shown node with
  | error _ =>
    rw [shown] at mem
    cases mem
  | ok _ => rfl

lemma any_block {s : Session} (none : (s.blocks.toList.all fun b => !b.statements.any p))
    (i : Nat) : (s.block i).statements.any p = false := by
  rw [block, getD_eq_getD_getElem?]
  cases found : s.blocks[i]? with
  | none => rfl
  | some b =>
    have mem : b ∈ s.blocks.toList := mem_toList_iff.2 (mem_of_getElem? found)
    simpa using all_eq_true.1 none b mem

/-- The first of two joins is only used to set the second one. So it needs no variable. -/
theorem prints_undeclared_iff_recast_doNothing :
    (Graph.ofBody {} (setAgainBody doNothing)).run {} = (.ok (setAgainGraph doNothing), {}) ∧
    ∃ t s, (evalFunction { file := "f.s" } "f" (setAgainGraph doNothing)).run { rodata := {} } =
        (.ok t, s) ∧
      (∀ i, (s.block i).statements.any isComment = false) ∧ (s.join 0).usedBy = some 1 ∧
      s.Prints 1 ∧ ∀ id, s.Prints id → s.Declared id := by
  have made : (Graph.ofBody {} (setAgainBody doNothing)).run {} =
      (.ok (setAgainGraph doNothing), {}) := by cbv
  have checked : (setAgainRun doNothing).1.toOption = some 25 ∧
      ((setAgainRun doNothing).2.blocks.toList.all fun b => !b.statements.any isComment) = true ∧
      ((setAgainRun doNothing).2.blocks.toList.all fun b =>
        !b.statements.any fun stmt => (castJoin? stmt).isSome) = true ∧
      ((setAgainRun doNothing).2.join 0).usedBy = some 1 ∧
      ((setAgainRun doNothing).2.destination 0).toOption = some 1 ∧
      ((shownList (setAgainRun doNothing).2 0).any fun stmt => setJoin? stmt == some 0) = true := by
    decide +kernel
  obtain ⟨ok, clean, plain, usedBy, destination, set⟩ := checked
  have run := eq_of_toOption ok
  obtain ⟨-, undeclared⟩ := prints_undeclared_iff_recast made run (any_block clean)
  refine ⟨made, 25, (setAgainRun doNothing).2, run, any_block clean, usedBy, ?_,
    fun id prints => ?_⟩
  · obtain ⟨stmt, mem, set⟩ := List.any_eq_true.1 set
    cases stmt with
    | setJoin id value =>
      cases beq_iff_eq.1 set
      exact .statement (shown_of_mem mem) mem (.target (ok_of_toOption destination))
    | _ => cases set
  · by_contra other
    obtain ⟨-, i, target, t, type, reinterpret, silent, mem, -⟩ := (undeclared id).1 ⟨prints, other⟩
    exact List.any_eq_false.1 (any_block plain i) _ mem rfl

/-- If the first of two joins is added to itself, it is a float and the second one is not. Then it
is cast to set the second one, and the text holds a name that is no variable. -/
theorem prints_undeclared_addTwice :
    (Graph.ofBody {} (setAgainBody addTwice)).run {} = (.ok (setAgainGraph addTwice), {}) ∧
    ∃ t s, (evalFunction { file := "f.s" } "f" (setAgainGraph addTwice)).run { rodata := {} } =
        (.ok t, s) ∧
      (∀ i, (s.block i).statements.any isComment = false) ∧ s.Prints 0 ∧ ¬ s.Declared 0 ∧
      shownTexts s 2 = some ["phi_f2 = (bitwise s32) unnamed-phi(f2);"] := by
  have made : (Graph.ofBody {} (setAgainBody addTwice)).run {} =
      (.ok (setAgainGraph addTwice), {}) := by cbv
  have checked : (setAgainRun addTwice).1.toOption = some 25 ∧
      ((setAgainRun addTwice).2.blocks.toList.all fun b => !b.statements.any isComment) = true ∧
      ((shownList (setAgainRun addTwice).2 2).any fun stmt => castJoin? stmt == some 0) = true ∧
      ((setAgainRun addTwice).2.join 0).replacement.isNone = true ∧
      ((setAgainRun addTwice).2.join 0).name = none ∧
      shownTexts (setAgainRun addTwice).2 2 = some ["phi_f2 = (bitwise s32) unnamed-phi(f2);"] := by
    decide +kernel
  obtain ⟨ok, clean, cast, unreplaced, unnamed, texts⟩ := checked
  have run := eq_of_toOption ok
  refine ⟨made, 25, (setAgainRun addTwice).2, run, any_block clean, ?_, ?_, texts⟩
  · obtain ⟨stmt, mem, cast⟩ := List.any_eq_true.1 cast
    have cast := beq_iff_eq.1 cast
    unfold castJoin? at cast
    split at cast
    · cases cast
      exact .statement (shown_of_mem mem) mem (.value (.part List.mem_cons_self .here))
    · cases cast
  · rintro (replaced | ⟨hasName, -⟩)
    · exact replaced (Option.isNone_iff_eq_none.1 unreplaced)
    · exact hasName unnamed

end Examples

end Decompiler.Eval
