import Decompiler.Eval.Function
import Decompiler.Proofs.RegisterWrites

/-!
# Evaluating along the tree of dominators

The nodes of a graph are evaluated along the tree of dominators, so each of them gets one result.

Main statement: `ofBody_evaluated_once`.
-/

namespace Decompiler.Eval

open Asm Code Infer Decompiler.Flow List

section

variable {α β γ : Type} {x : Evaluation α}

def Total (x : Evaluation α) : Prop :=
  ∀ s, ∃ a s', x.run s = (.ok a, s')

namespace Total

lemma pure (a : α) : Total (pure a : Evaluation α) :=
  fun s => ⟨a, s, rfl⟩

lemma get : Total get :=
  fun s => ⟨s, s, rfl⟩

lemma modify (f : Session → Session) : Total (modify f : Evaluation Unit) :=
  fun s => ⟨(), f s, rfl⟩

lemma lift {x : Except Failure α} (h : ∃ a, x = .ok a) : Total (liftM x : Evaluation α) := by
  obtain ⟨a, rfl⟩ := h
  exact fun s => ⟨a, s, rfl⟩

lemma bind (hx : Total x) (hf : ∀ a, Total (f a)) : Total (x >>= f) := by
  intro s
  obtain ⟨a, s1, run⟩ := hx s
  rw [run_bind_of_ok run]
  exact hf a s1

lemma ite [Decidable c] (hx : Total x) (hy : Total y) : Total (if c then x else y) := by
  split
  · exact hx
  · exact hy

lemma tryCatch (hh : ∀ e, Total (h e)) : Total (tryCatch x h) := by
  intro s
  rw [run_tryCatch]
  rcases x.run s with ⟨e | a, s'⟩
  · exact hh e s'
  · exact ⟨a, s', rfl⟩

lemma forM {l : List γ} {f} (round : ∀ a ∈ l, Total (f a)) : Total (l.forM f) := by
  induction l with
  | nil => exact .pure _
  | cons a l ih =>
    refine (round a mem_cons_self).bind fun _ => ?_
    exact ih fun b mem => round b (mem_cons_of_mem _ mem)

lemma foldlM {l : List γ} {f : β → γ → Evaluation β} (round : ∀ b a, Total (f b a)) :
    Total (l.foldlM f b) := by
  induction l generalizing b with
  | nil => exact .pure _
  | cons a l ih =>
    exact (round b a).bind fun _ => ih

end Total

def Fails (x : Evaluation α) : Prop :=
  ∀ s, ∃ e s', x.run s = (.error e, s')

namespace Fails

lemma throw (e : Failure) : Fails (throw e : Evaluation α) :=
  fun s => ⟨e, s, rfl⟩

lemma lift {x : Except Failure α} (h : ∃ e, x = .error e) : Fails (liftM x : Evaluation α) := by
  obtain ⟨e, rfl⟩ := h
  exact fun s => ⟨e, s, rfl⟩

lemma bind (hx : Fails x) : Fails (x >>= f) := by
  intro s
  obtain ⟨e, s1, run⟩ := hx s
  exact ⟨e, s1, run_bind_of_error run⟩

lemma after (hf : ∀ a, Fails (f a)) : Fails (x >>= f) := by
  intro s
  rcases run : x.run s with ⟨e | a, s1⟩
  · exact ⟨e, s1, run_bind_of_error run⟩
  · rw [run_bind_of_ok run]
    exact hf a s1

lemma forM {l : List γ} {f c} (mem : c ∈ l) (h : Fails (f c)) : Fails (l.forM f) := by
  induction mem with
  | head l => exact bind h
  | tail a _ ih => exact after fun _ => ih

end Fails

lemma freshType_total (n : TypeNode) : Total (freshType n) :=
  fun _ => ⟨_, _, rfl⟩

end

def isComment : Stmt → Bool
  | .comment _ => true
  | _ => false

structure BlockResult.Failed (b : BlockResult) : Prop where
  comment : b.statements.any isComment
  returnValue : b.returnValue = none

section

variable {o : Options} {g : Graph} {fx : Effects}

/-- Evaluates a node that starts with the given registers; unless errors are to stop the evaluation,
comments take the place of a block that fails. -/
def evalNode (o : Options) (g : Graph) (i : Nat) (registers : Registers) :
    Evaluation BlockResult := do
  if o.debug then printOut ("\nNode in question: " ++ g.nodeText i ++ "\n")
  modify fun s => { s with work := { registers := registers } }
  let evaluate : Evaluation BlockResult := do
    let b ← runNode (g.nodes.getD i default)
    if o.debug then printOut ((← resultText b) ++ "\n")
    return b
  tryCatch evaluate fun e => do
    if o.stopOnError then throw e
    failedResult e

def record (g : Graph) (i : Nat) (b : BlockResult) : Evaluation Unit := do
  modifyBlock i fun _ => b
  if (g.nodes.getD i default).isExit then modify fun s => { s with exits := s.exits.push i }

/-- Evaluates a function whose arguments are known. -/
def evalEntered (o : Options) (g : Graph) (signature? : Option C.Signature) (returnType : TypeId)
    (registers : Registers) : Evaluation TypeId := do
  evalFrom o g (graphEffects (← get).types.context g) (g.nodes.size + 1) 0 registers
  spreadReturns g
  settleReturns (returnsValue o signature? (← get)) returnType
  settleJoins g
  return returnType

lemma evalFrom_parts (o : Options) (g : Graph) (fx : Effects) (depth i : Nat)
    (registers : Registers) :
    evalFrom o g fx (depth + 1) i registers =
      evalNode o g i registers >>= fun b => record g i b >>= fun _ =>
        (g.children i).forM fun child =>
          startRegisters g fx child b.registers >>= evalFrom o g fx depth child := by
  rw [evalFrom]
  unfold evalNode record
  cases o.debug <;> cases o.stopOnError <;> cases (g.nodes.getD i default).isExit <;> rfl

lemma evalNode_eq (o : Options) (g : Graph) (i : Nat) (registers : Registers) :
    evalNode o g i registers =
      (if o.debug then printOut ("\nNode in question: " ++ g.nodeText i ++ "\n") else pure ⟨⟩) >>=
        fun _ => (modify fun s => { s with work := { registers } }) >>= fun _ =>
        tryCatch
          (runNode (g.nodes.getD i default) >>= fun b =>
            (if o.debug then resultText b >>= fun text => printOut (text ++ "\n") else pure ⟨⟩) >>=
              fun _ => pure b)
          fun e => if o.stopOnError then throw e else failedResult e := by
  unfold evalNode
  cases o.debug <;> cases o.stopOnError <;>
    simp only [bind_assoc, if_true, Bool.false_eq_true, if_false] <;> rfl

lemma failedResult_total (e : Failure) : Total (failedResult e) := by
  unfold failedResult printOut printErr errorExpr
  repeat' first
    | with_reducible refine .bind ?_ fun _ => ?_
    | split
    | exact .modify _
    | exact .pure _
    | exact .get
    | exact freshType_total _

lemma failedResult_failed (e : Failure) : Ensures s (failedResult e) fun b _ => b.Failed := by
  have any {α} {s} {x : Evaluation α} : Ensures s x fun _ _ => True :=
    fun _ _ _ => trivial
  have rest {place} {x} {message} {s} :
      Ensures s (printErr "\n" >>= fun _ => x >>= fun e => get >>= fun now => pure
        ({ statements := .comment message :: place, returnValue := none, switchValue := none,
           condition := some e, registers := now.work.registers, customReturn := false,
           hasCall := false } : BlockResult)) fun b _ => b.Failed :=
    any.bind fun _ _ _ => any.bind fun _ _ _ => .get (.pure ⟨rfl, rfl⟩)
  refine .ite (fun _ => any.bind fun _ _ _ => any.bind fun message _ _ => ?_)
    fun _ => any.bind fun _ _ _ => any.bind fun message _ _ => ?_
  all_goals
    split
    · exact any.bind fun _ _ _ => any.bind fun _ _ _ => rest
    · exact any.bind fun _ _ _ => rest

lemma evalNode_total (goesOn : o.stopOnError = false) : Total (evalNode o g i registers) := by
  rw [evalNode_eq, goesOn]
  refine .bind (.ite (.modify _) (.pure _)) fun _ => .bind (.modify _) fun _ => .tryCatch ?_
  exact failedResult_total

lemma record_total (b : BlockResult) : Total (record g i b) :=
  .bind (.modify _) fun _ => .ite (.modify _) (.pure _)

lemma startRegisters_total (known : ∀ m, ∃ effects, fx.at m = .ok effects)
    (idom : g.idom? i = some d) (before : Registers) : Total (startRegisters g fx i before) := by
  obtain ⟨changed, run, -⟩ := changedRegisters_spec known idom
  refine .bind (.lift ⟨changed, run⟩) fun changed => .foldlM fun registers r => ?_
  obtain ⟨answer, run, -⟩ := isAlwaysSet_spec known idom r (before.contains r)
  refine .bind (.lift ⟨answer, run⟩) fun _ => .ite ?_ (.pure _)
  refine .bind ?_ fun _ => .pure _
  exact (freshType_total _).bind fun _ => .bind .get fun _ => .bind (.modify _) fun _ => .pure _

def SameBlocks (s s' : Session) : Prop :=
  s'.blocks = s.blocks

instance : IsPreorder Session SameBlocks where
  refl _ := rfl
  trans _ _ _ h h' := Eq.trans h' h

lemma sameBlocks_allows : Allows SameBlocks True fun _ => True where
  noted h := h.blocks
  working _ _ := rfl
  pass _ _ := rfl
  temp _ _ := rfl
  set _ _ := rfl
  clear _ := rfl
  force _ _ _ := rfl

lemma failedResult_noting : Noting (failedResult e) := by
  unfold failedResult
  repeat' first | infer_instance | split

lemma runNode_sameBlocks (node : Node) : Respects SameBlocks (runNode node) := by
  have used (e : Option Expr) : Respects SameBlocks (e.forM use) := by
    cases e with
    | none => exact .pure _
    | some e => exact sameBlocks_allows.noting use_noting
  refine .bind (.forM fun i _ => .tryCatch ?_ fun _ => .throw _) fun _ => ?_
  · exact (runInstruction_does node.link i).respects sameBlocks_allows
  · refine .bind .get fun s => (used _).bind fun _ => ?_
    refine .bind .get fun s => (used _).bind fun _ => ?_
    exact .bind .get fun s => .pure _

lemma evalNode_sameBlocks : Respects SameBlocks (evalNode o g i registers) := by
  rw [evalNode_eq]
  refine .bind (sameBlocks_allows.noting inferInstance) fun _ => .bind (.modify fun _ => rfl) fun _ => ?_
  refine .tryCatch ?_ fun e => .ite (.throw _) (sameBlocks_allows.noting failedResult_noting)
  refine (runNode_sameBlocks _).bind fun b => .bind ?_ fun _ => .pure _
  exact sameBlocks_allows.noting inferInstance

lemma startRegisters_sameBlocks (before : Registers) :
    Respects SameBlocks (startRegisters g fx i before) := by
  refine .bind (.lift _) fun changed => .foldlM fun registers r => ?_
  refine .bind (.lift _) fun _ => .ite ?_ (.pure _)
  refine .bind ?_ fun _ => .pure _
  refine (sameBlocks_allows.noting freshType_noting).bind fun _ => .bind .get fun _ => ?_
  exact .bind (.modify fun _ => rfl) fun _ => .pure _

end

section

variable {o : Options} {g : Graph} {fx : Effects} {depth i : Nat} {registers : Registers}
  {given : List (Nat × BlockResult)}

/-- Evaluates a node and all nodes that it dominates, and adds their results to those that have been
given before. No node may get a second result. -/
def evalListed (o : Options) (g : Graph) (fx : Effects) :
    Nat → Nat → Registers → List (Nat × BlockResult) → Evaluation (List (Nat × BlockResult))
  | 0, _, _, _ => throw .endless
  | depth + 1, i, registers, given => do
    let b ← evalNode o g i registers
    expect (given.all (·.1 != i))
    record g i b
    (g.children i).foldlM (fun given child => do
      evalListed o g fx depth child (← startRegisters g fx child b.registers) given)
      (given ++ [(i, b)])

def Extends {α : Type} (x : Evaluation Unit) (y : Evaluation α) (Q : α → Prop) : Prop :=
  ∀ s, (∃ e s', x.run s = (.error e, s') ∧ y.run s = (.error e, s')) ∨
    ∃ a s', x.run s = (.ok (), s') ∧ y.run s = (.ok a, s') ∧ Q a

namespace Extends

variable {α β γ : Type}

lemma pure (h : Q a) : Extends (pure ()) (pure a) Q :=
  fun s => .inr ⟨a, s, rfl, rfl, h⟩

lemma throw (e : Failure) : Extends (throw e) (throw e : Evaluation α) Q :=
  fun s => .inl ⟨e, s, rfl, rfl⟩

lemma imp (h : Extends x y Q) (weaker : ∀ a, Q a → Q' a) : Extends x y Q' := by
  intro s
  rcases h s with failed | ⟨a, s', hx, hy, holds⟩
  · exact .inl failed
  · exact .inr ⟨a, s', hx, hy, weaker a holds⟩

lemma common {z : Evaluation β} (h : ∀ b, Extends (f b) (f' b) Q) :
    Extends (z >>= f) (z >>= f') Q := by
  intro s
  rcases run : z.run s with ⟨e | b, s1⟩
  · exact .inl ⟨e, s1, run_bind_of_error run, run_bind_of_error run⟩
  · rw [run_bind_of_ok run, run_bind_of_ok run]
    exact h b s1

lemma bind (h : Extends x y Q) (hf : ∀ a, Q a → Extends x' (f a) P) :
    Extends (x >>= fun _ => x') (y >>= f) P := by
  intro s
  rcases h s with ⟨e, s1, hx, hy⟩ | ⟨a, s1, hx, hy, holds⟩
  · exact .inl ⟨e, s1, run_bind_of_error hx, run_bind_of_error hy⟩
  · rw [run_bind_of_ok hx, run_bind_of_ok hy]
    exact hf a holds s1

lemma forM {l : List γ} {f : γ → Evaluation Unit}
    {keys : α → List Nat} (nodup : (keys a ++ l.flatMap added).Nodup)
    (round : ∀ c ∈ l, ∀ a, (keys a ++ added c).Nodup →
      Extends (f c) (f' a c) fun a' => keys a' = keys a ++ added c) :
    Extends (l.forM f) (l.foldlM f' a) fun a' => keys a' = keys a ++ l.flatMap added := by
  induction l generalizing a with
  | nil => exact .pure (by simp)
  | cons c l ih =>
    rw [flatMap_cons, ← append_assoc] at nodup ⊢
    refine (round c mem_cons_self a nodup.of_append_left).bind fun a' same => ?_
    rw [← same] at nodup ⊢
    exact ih nodup fun c' mem => round c' (mem_cons_of_mem _ mem)

end Extends

/-- The results are listed on the way, one for each node of the tree. -/
lemma evalListed_extends (nodup : (given.map Prod.fst ++ g.treeFrom depth i).Nodup) :
    Extends (evalFrom o g fx depth i registers) (evalListed o g fx depth i registers given)
      fun given' => given'.map Prod.fst = given.map Prod.fst ++ g.treeFrom depth i := by
  induction depth generalizing i registers given with
  | zero => exact .throw _
  | succ depth ih =>
    have new : (given.all (·.1 != i)) := by
      have apart := (nodup_append.1 nodup).2.2
      rw [all_eq_true]
      intro p mem
      exact bne_iff_ne.2 (apart _ (mem_map_of_mem mem) i mem_cons_self)
    have keys (b) : given.map Prod.fst ++ g.treeFrom (depth + 1) i =
        (given ++ [(i, b)]).map Prod.fst ++ (g.children i).flatMap (g.treeFrom depth) := by
      simp [Graph.treeFrom]
    rw [evalFrom_parts]
    refine .common fun b => ?_
    rw [expect, if_pos new]
    refine .common fun _ => ?_
    rw [keys b] at nodup ⊢
    refine .forM nodup fun child _ given nodup => ?_
    exact .common fun registers => ih nodup

structure Recorded (g : Graph) (given : List (Nat × BlockResult)) (s : Session) : Prop where
  size : s.blocks.size = g.nodes.size
  given : ∀ p ∈ given, s.blocks[p.1]? = some p.2

lemma Recorded.of_sameBlocks (h : Recorded g given s) (same : SameBlocks s s') :
    Recorded g given s' := by
  exact ⟨same ▸ h.size, same ▸ h.given⟩

lemma Recorded.record (h : Recorded g given s) (lt : i < g.nodes.size) (new : ∀ p ∈ given, p.1 ≠ i)
    (b : BlockResult) : Ensures s (record g i b) fun _ s' => Recorded g (given ++ [(i, b)]) s' := by
  have recorded : Ensures s (modifyBlock i fun _ => b) fun _ s' =>
      Recorded g (given ++ [(i, b)]) s' := by
    apply Ensures.modify
    constructor
    · rw [Array.size_modify, h.size]
    · intro p mem
      rw [Array.getElem?_modify]
      rcases mem_append.1 mem with mem | mem
      · rw [if_neg (new p mem).symm]
        exact h.given p mem
      · obtain rfl := mem_singleton.1 mem
        rw [if_pos rfl, Array.getElem?_eq_getElem (h.size.symm ▸ lt)]
        rfl
  refine recorded.bind fun _ s1 recorded => .ite (fun _ => ?_) fun _ => ?_
  · exact .modify ⟨recorded.size, recorded.given⟩
  · exact .pure recorded

/-- The results that are listed are those that are kept. -/
lemma evalListed_recorded (tree : g.DominatorTree) (lt : i < g.nodes.size)
    (before : Recorded g given s) : Ensures s (evalListed o g fx depth i registers given)
      fun given' s' => Recorded g given' s' := by
  induction depth generalizing i registers given s with
  | zero => exact .throw _
  | succ depth ih =>
    refine evalNode_sameBlocks.ensures.bind fun b s1 same => ?_
    have before := before.of_sameBlocks same
    have checked : Ensures s1 (expect (given.all (·.1 != i))) fun _ s2 =>
        Recorded g given s2 ∧ ∀ p ∈ given, p.1 ≠ i := by
      refine .expect fun new => ⟨before, fun p mem => ?_⟩
      exact bne_iff_ne.1 (all_eq_true.1 new p mem)
    refine checked.bind fun _ s2 ⟨before, new⟩ => ?_
    refine (before.record lt new b).bind fun _ s3 recorded => ?_
    refine .foldlM recorded fun child mem given s4 recorded => ?_
    refine (startRegisters_sameBlocks b.registers).ensures.bind fun registers s5 same => ?_
    exact ih (tree.child_closest lt mem).1 (recorded.of_sameBlocks same)

lemma forM_congr {l : List γ} {f f' : γ → Evaluation PUnit} (h : ∀ c ∈ l, f c = f' c) :
    l.forM f = l.forM f' := by
  induction l with
  | nil => rfl
  | cons c l ih =>
    rw [forM_eq_forM, forM_cons, h c (.head _)]
    exact bind_congr fun _ => ih fun c mem => h c (.tail _ mem)

lemma evalFrom_depth_succ (tree : g.DominatorTree) (lt : i < g.nodes.size)
    (enough : g.nodes.size < depth + g.rank i) :
    evalFrom o g fx (depth + 1) i registers = evalFrom o g fx depth i registers := by
  induction depth generalizing i registers with
  | zero =>
    have bound := g.rank_le i
    omega
  | succ depth ih =>
    rw [evalFrom_parts, evalFrom_parts o g fx depth]
    refine bind_congr fun b => bind_congr fun _ => forM_congr fun child mem => ?_
    have more := tree.rank_child lt mem
    refine bind_congr fun registers => ?_
    exact ih (tree.child_closest lt mem).1 (by omega)

lemma evalFrom_depth (tree : g.DominatorTree) (lt : i < g.nodes.size)
    (enough : g.nodes.size < depth + g.rank i) (more : depth ≤ depth') :
    evalFrom o g fx depth' i registers = evalFrom o g fx depth i registers := by
  induction depth', more using Nat.le_induction with
  | base => rfl
  | succ depth' more ih => rw [evalFrom_depth_succ tree lt (by omega), ih]

lemma evalFrom_total (tree : g.DominatorTree) (lt : i < g.nodes.size)
    (enough : g.nodes.size < depth + g.rank i) (goesOn : o.stopOnError = false)
    (known : ∀ m, ∃ effects, fx.at m = .ok effects) :
    Total (evalFrom o g fx depth i registers) := by
  induction depth generalizing i registers with
  | zero =>
    have bound := g.rank_le i
    omega
  | succ depth ih =>
    rw [evalFrom_parts]
    refine (evalNode_total goesOn).bind fun b => (record_total b).bind fun _ => ?_
    refine .forM fun child mem => ?_
    obtain ⟨ltc, idom⟩ := (tree.mem_children lt).1 mem
    have more := tree.rank_child lt mem
    refine (startRegisters_total known idom b.registers).bind fun registers => ?_
    exact ih ltc (by omega)

/-- In the graph of a body, the links to the immediate dominators are a tree that holds every node
once, so no node gets a second result, and an evaluation that comes to its end has given every node
its result. It does come to its end if errors are not to stop it and no operand is missing. -/
theorem ofBody_evaluated_once {rodata : Rodata} {body : List Item} {console console' : Console}
    (made : (Graph.ofBody rodata body).run console = (.ok g, console')) :
    (∀ i < g.nodes.size, i ≠ 0 → ∃ d, g.idom? i = some d ∧ ∀ e, g.Closest e i ↔ e = d) ∧
    (g.treeFrom g.nodes.size 0).Perm (List.range g.nodes.size) ∧
    ∀ o fx depth registers, g.nodes.size ≤ depth →
      evalFrom o g fx depth 0 registers = evalFrom o g fx g.nodes.size 0 registers ∧
      Extends (evalFrom o g fx depth 0 registers) (evalListed o g fx depth 0 registers [])
        (fun given => (given.map Prod.fst).Perm (List.range g.nodes.size)) ∧
      (∀ s : Session, s.blocks.size = g.nodes.size →
        Ensures s (evalListed o g fx depth 0 registers []) fun given s' =>
          ∀ p ∈ given, s'.blocks[p.1]? = some p.2) ∧
      ∀ context, fx = graphEffects context g → o.stopOnError = false → Complete context g →
        Total (evalFrom o g fx depth 0 registers) := by
  have tree := Graph.ofBody_tree made
  obtain ⟨-, n, found, -⟩ := Graph.ofBody_rooted made
  have some_node : 0 < g.nodes.size := (Array.getElem?_eq_some_iff.1 found).1
  have self : 0 < g.rank 0 := Graph.rank_pos tree.toRooted some_node
  refine ⟨?_, Graph.treeFrom_perm tree some_node le_rfl, ?_⟩
  · intro i lt other
    obtain ⟨d, idom, closest⟩ := tree.closest i lt other
    refine ⟨d, idom, fun e => ⟨fun h => h.unique tree.toRooted lt closest, ?_⟩⟩
    rintro rfl
    exact closest
  · intro o fx depth registers enough
    refine ⟨evalFrom_depth tree some_node (by omega) enough, ?_, ?_, ?_⟩
    · have nodup : (([] : List (Nat × BlockResult)).map Prod.fst ++ g.treeFrom depth 0).Nodup :=
        Graph.treeFrom_nodup tree some_node
      refine (evalListed_extends nodup).imp fun given same => ?_
      exact same ▸ Graph.treeFrom_perm tree some_node enough
    · intro s size
      refine (evalListed_recorded tree some_node ⟨size, ?_⟩).imp fun given s' h => h.given
      exact fun p mem => absurd mem List.not_mem_nil
    · rintro context rfl goesOn complete
      refine evalFrom_total tree some_node (by omega) goesOn fun m => ?_
      exact ⟨_, graphEffects_at complete m⟩

def returnsTwice : List Item :=
  [inLine 1 "beqz" ["a0", .target "L1"],
   inLine 2 "nop" [],
   inLine 3 "b" [.target "L2"],
   inLine 4 "nop" [],
   .label "L1",
   inLine 5 "jal" [.symbol "step"],
   inLine 6 "nop" [],
   .label "L2",
   inLine 7 "jr" ["ra"],
   inLine 8 "nop" []]

theorem ofBody_evaluated_once_returnsTwice :
    ∃ g console, (Graph.ofBody {} returnsTwice).run {} = (.ok g, console) ∧ Complete none g ∧
      g.nodes.size = 5 ∧ (g.treeFrom 5 0).Perm [0, 1, 2, 3, 4] ∧
      (∃ d, g.idom? 4 = some d ∧ ∀ e, g.Closest e 4 ↔ e = d) ∧
      Total (evalFrom { file := "" } g (graphEffects none g) 6 0 (.ofList [])) ∧
      Extends (evalFrom { file := "" } g (graphEffects none g) 6 0 (.ofList []))
        (evalListed { file := "" } g (graphEffects none g) 6 0 (.ofList []) [])
        fun given => (given.map Prod.fst).Perm [0, 1, 2, 3, 4] := by
  have checked : Graph.makes {} returnsTwice fun g =>
      (g.nodes.toList.all fun n => n.block.instructions.all (hasOperands none)) &&
        g.nodes.size == 5 := by cbv
  obtain ⟨g, console, run, checked⟩ := Graph.exists_of_makes checked
  obtain ⟨all, size⟩ := Bool.and_eq_true_iff.1 checked
  have size : g.nodes.size = 5 := beq_iff_eq.1 size
  have complete := complete_of_hasOperands all
  obtain ⟨closest, perm, walk⟩ := ofBody_evaluated_once run
  obtain ⟨-, listed, -, total⟩ :=
    walk { file := "" } (graphEffects none g) 6 (.ofList []) (by omega)
  rw [size] at perm listed
  exact ⟨g, console, run, complete, size, perm, closest 4 (by omega) (by decide),
    total none rfl rfl complete, listed⟩

lemma evalFrom_fails (mem : child ∈ g.children i)
    (unknown : ∃ e, changedRegisters g fx child = .error e) :
    Fails (evalFrom o g fx depth i registers) := by
  cases depth with
  | zero => exact .throw _
  | succ depth =>
    rw [evalFrom_parts]
    refine .after fun b => .after fun _ => .forM mem ?_
    exact .bind (.bind (.lift unknown))

def movesNothing : List Item :=
  [inLine 1 "beqz" ["a0", .target "L1"],
   inLine 2 "nop" [],
   inLine 3 "mtc1" [],
   .label "L1",
   inLine 4 "jr" ["ra"],
   inLine 5 "nop" []]

/-- A move without operands stops an evaluation, even if errors are not to stop it; nodes are left
without a result. -/
theorem evalFrom_unfinished :
    ∃ g console, (Graph.ofBody {} movesNothing).run {} = (.ok g, console) ∧
      ∀ o depth registers, Fails (evalFrom o g (graphEffects none g) depth 0 registers) := by
  have checked : Graph.makes {} movesNothing fun g => (g.children 0).any fun child =>
      (changedRegisters g (graphEffects none g) child).toOption.isNone := by cbv
  obtain ⟨g, console, run, checked⟩ := Graph.exists_of_makes checked
  obtain ⟨child, mem, unknown⟩ := List.any_eq_true.1 checked
  refine ⟨g, console, run, fun o depth registers => evalFrom_fails mem ?_⟩
  cases run : changedRegisters g (graphEffects none g) child with
  | error e => exact ⟨e, rfl⟩
  | ok changed =>
    rw [run] at unknown
    cases unknown

end

end Decompiler.Eval
