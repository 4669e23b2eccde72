import Decompiler.Proofs.TreeWalk
import Decompiler.Proofs.UseCounts

/-!
# Uses in blocks

While a block is evaluated, every expression that goes into a statement is used first.
-/

namespace Decompiler.Eval

open Asm Code Infer Decompiler.Flow Array List Session

def Session.Covers (setting : JoinId → Expr → Prop) (s : Session) : Stmt → Prop
  | .setTemp _ => True
  | .setJoin id value => setting id value
  | .run value => s.Counted value
  | .store value dest => s.Counted value ∧ s.Counted dest
  | .comment _ => True

def noSetting : JoinId → Expr → Prop :=
  fun _ _ => False

structure Session.Clean (s : Session) : Prop where
  sound : s.Sound (fun _ => False) fun _ => False
  joins : ∀ id, (s.join id).usedBy = none ∧ (s.join id).replacement = none
  joinVariables : s.joinVariables = #[]

structure Session.Tidy (s : Session) : Prop extends s.Clean where
  statements : ∀ stmt ∈ s.work.statements.toList, s.Covers noSetting stmt

structure Session.Grows (s s' : Session) : Prop where
  temps : ∀ id, 0 < (s.temp id).uses → 0 < (s'.temp id).uses
  joins : ∀ id, 0 < (s.join id).uses → (s.join id).usedBy = none →
    0 < (s'.join id).uses ∧ (s'.join id).usedBy = none

structure Session.Works (s s' : Session) : Prop extends s.Grows s' where
  tidy : s.Tidy → s'.Tidy
  blocks : s'.blocks = s.blocks
  exits : s'.exits = s.exits

def Working {α : Type} (x : Evaluation α) : Prop :=
  ∀ s : Session, Ensures s x fun _ s' => s.Works s'

section

variable {s s' : Session}

lemma Session.Counted.grows (h : s.Counted e) (grows : s.Grows s') : s'.Counted e :=
  h.mono grows.temps grows.joins

lemma Session.Covers.grows (h : s.Covers setting stmt) (grows : s.Grows s') :
    s'.Covers setting stmt := by
  cases stmt with
  | setTemp | setJoin | comment => exact h
  | run => exact Counted.grows h grows
  | store => exact ⟨h.1.grows grows, h.2.grows grows⟩

lemma Session.Covers.imp (h : s.Covers setting stmt)
    (weaker : ∀ id value, setting id value → setting' id value) : s.Covers setting' stmt := by
  cases stmt with
  | setJoin id value => exact weaker id value h
  | _ => exact h

lemma Session.Grows.refl : s.Grows s :=
  ⟨fun _ => id, fun _ pos code => ⟨pos, code⟩⟩

lemma Session.Grows.trans (h : s.Grows s') (h' : s'.Grows s'') : s.Grows s'' where
  temps id pos := h'.temps id (h.temps id pos)
  joins id pos code :=
    have more := h.joins id pos code
    h'.joins id more.1 more.2

lemma Session.Works.refl : s.Works s :=
  ⟨.refl, id, rfl, rfl⟩

lemma Session.Works.trans (h : s.Works s') (h' : s'.Works s'') : s.Works s'' where
  toGrows := h.toGrows.trans h'.toGrows
  tidy tidy := h'.tidy (h.tidy tidy)
  blocks := h'.blocks.trans h.blocks
  exits := h'.exits.trans h.exits

lemma Session.Grows.of_grown (temps : ∀ id, (s.temp id).Grown (s'.temp id))
    (joins : ∀ id, (s.join id).Grown user (s'.join id)) : s.Grows s' where
  temps id pos := lt_of_lt_of_le pos (temps id).uses
  joins id pos code := ⟨lt_of_lt_of_le pos (joins id).uses, (joins id).code pos code⟩

lemma Session.Recounted.grows (h : s.Recounted user s') : s.Grows s' :=
  .of_grown h.temps h.joins

lemma Session.Recounted.clean (h : s.Recounted none s') (clean : s.Clean) : s'.Clean := by
  refine ⟨h.sound _ _ clean.sound, fun id => ⟨?_, ?_⟩, h.joinVariables.trans clean.joinVariables⟩
  · rw [Option.eq_none_iff_forall_ne_some]
    intro u by_u
    rcases (h.joins id).usedBy u by_u with before | ⟨_, _, by_none⟩
    · rw [(clean.joins id).1] at before
      cases before
    · cases by_none
  · rw [(h.joins id).replacement]
    exact (clean.joins id).2

lemma Session.Recounted.works (h : s.Recounted none s') (noted : s.Noted s') : s.Works s' := by
  refine ⟨h.grows, fun tidy => ⟨h.clean tidy.toClean, fun stmt mem => ?_⟩, noted.blocks,
    noted.exits⟩
  rw [noted.work] at mem
  exact (tidy.statements stmt mem).grows h.grows

end

namespace Working

variable {α β γ : Type}

lemma pure (a : α) : Working (pure a : Evaluation α) :=
  fun _ => .pure .refl

lemma bind (hx : Working x) (hf : ∀ a, Working (f a)) : Working (x >>= f) :=
  fun s => (hx s).bind fun a s1 first => (hf a s1).imp fun _ _ second => first.trans second

lemma get {f : Session → Evaluation β} (h : ∀ s, Working (f s)) : Working (get >>= f) :=
  fun s => .get (h s s)

lemma ite [Decidable c] (hx : Working x) (hy : Working y) : Working (if c then x else y) := by
  split
  · exact hx
  · exact hy

lemma rethrow {h : Failure → Failure} (hx : Working x) :
    Working (tryCatch x fun e => throw (h e)) :=
  fun s => (hx s).tryCatch fun _ _ => .throw _

lemma forM {l : List γ} {f} (round : ∀ a, Working (f a)) : Working (l.forM f) := by
  intro s
  refine .forM .refl fun a _ s1 first => ?_
  exact (round a s1).imp fun _ _ second => first.trans second

end Working

lemma Notes.working {x : Evaluation α} (h : Noting x) : Working x :=
  fun _ => (h.recounted.and h.noted.ensures).imp fun _ _ ⟨recounted, noted⟩ =>
    recounted.works noted

section

variable {s : Session} {e : Expr}

lemma works_of_work (statements : w.statements = s.work.statements) :
    s.Works { s with work := w } := by
  have same : s.Recounted none { s with work := w } := .of_same rfl rfl rfl rfl
  refine ⟨same.grows, fun tidy => ⟨same.clean tidy.toClean, fun stmt mem => ?_⟩, rfl, rfl⟩
  exact (tidy.statements stmt (statements ▸ mem)).grows same.grows

lemma modifyWork_working (h : ∀ w, (f w).statements = w.statements) : Working (modifyWork f) :=
  fun s => .modify (works_of_work (h s.work))

lemma write_works (covers : s.Covers noSetting stmt) :
    Ensures s (write stmt) fun _ s' => s.Works s' := by
  let s' : Session := { s with work := { s.work with statements := s.work.statements.push stmt } }
  have same : s.Recounted none s' := .of_same rfl rfl rfl rfl
  refine .modify ?_
  refine ⟨same.grows, fun tidy => ⟨same.clean tidy.toClean, fun other mem => ?_⟩, rfl, rfl⟩
  rw [toList_push] at mem
  rcases mem_append.1 mem with mem | mem
  · exact (tidy.statements other mem).grows same.grows
  · obtain rfl := mem_singleton.1 mem
    exact covers.grows same.grows

lemma write_run_works (counted : s.Counted e) : Ensures s (write (.run e)) fun _ s' => s.Works s' :=
  write_works counted

lemma use_works (e : Expr) : Ensures s (use e) fun _ s' => s.Works s' ∧ s'.Counted e :=
  ((use_noting.working s).and (use_recounted e)).imp fun _ _ ⟨works, _, counted⟩ =>
    ⟨works, counted⟩

lemma runUsed_working (e : Expr) : Working (use e >>= fun _ => write (.run e)) := by
  intro s
  refine (use_works e).bind fun _ s1 ⟨first, counted⟩ => ?_
  exact (write_run_works counted).imp fun _ _ second => first.trans second

lemma works_withTemp (unused : t.uses = 0) (once : t.exactlyOnce → s.Counted t.value) :
    s.Works (s.withTemp t) := by
  have grows : s.Grows (s.withTemp t) := by
    refine ⟨fun id pos => ?_, fun _ pos code => ⟨pos, code⟩⟩
    have known : id ≠ s.temps.size := by
      rintro rfl
      rw [temp, getD_eq_getD_getElem?, Array.getElem?_eq_none (le_refl _)] at pos
      cases pos
    rwa [temp_withTemp_of_ne known]
  refine ⟨grows, fun tidy => ⟨⟨⟨fun id _ used => ?_, fun id value other found => ?_, ?_, ?_⟩,
    tidy.joins, tidy.joinVariables⟩, fun stmt mem => ?_⟩, rfl, rfl⟩
  · by_cases new : id = s.temps.size
    · rw [new, temp_withTemp_self, unused] at used
      rw [new, temp_withTemp_self]
      exact (once (used.resolve_left (lt_irrefl 0))).grows grows
    · rw [temp_withTemp_of_ne new] at used ⊢
      exact (tidy.sound.values id (by simp) used).grows grows
  · exact (tidy.sound.replacements id value other found).grows grows
  · exact tidy.sound.listed
  · exact tidy.sound.nodup
  · rw [withTemp, toList_push] at mem
    rcases mem_append.1 mem with mem | mem
    · exact (tidy.statements stmt mem).grows grows
    · obtain rfl := mem_singleton.1 mem
      exact trivial

/-- A new temporary may be set without being used. -/
lemma newTemp_working (value : Expr) (register : String) (exactlyOnce isTrivial : Bool) :
    Working (newTemp value register exactlyOnce isTrivial) := by
  have made {s : Session} (once : exactlyOnce → s.Counted value) :
      Ensures s (do
        expect (register != "")
        let stem := "temp_" ++ if register == "condition_bit" then "cond" else register
        let id := (← get).temps.size
        modify fun s => { s with temps := s.temps.push {
          value := value
          type := value.type
          stem := stem
          exactlyOnce := exactlyOnce
          trivial := isTrivial } }
        write (.setTemp id)
        return Expr.temp id value.type) fun _ s' => s.Works s' := by
    refine .bind_expect fun _ => ?_
    intro _ _ run
    cases run
    exact works_withTemp rfl once
  intro s
  refine .ite (fun once => ?_) fun other => made fun once => absurd once other
  refine (use_works value).bind fun _ s1 ⟨first, counted⟩ => ?_
  exact (made fun _ => counted).imp fun _ _ second => first.trans second

lemma hold_working (r : Register) (e : Expr) : Working (hold r e) :=
  Notes.expect.working.bind fun _ => modifyWork_working fun _ => rfl

lemma protect_working (p : Session → Expr → Bool) : Working (protect p) := by
  refine .get fun s => .forM fun r => peek_noting.working.bind fun e => ?_
  split
  · exact .pure _
  · exact .pure _
  · refine .get fun s => .ite ?_ (.pure _)
    split
    on_goal 1 => refine (Working.pure _).bind fun e => ?_
    on_goal 2 => refine (newTemp_working _ _ _ _).bind fun e => ?_
    all_goals
      dsimp only
      split
      · exact hold_working _ _
      · exact .pure _

lemma runStored_working (value dest : Expr) : Working (do
    use value
    use dest
    protectFromStore dest
    protectCalls
    write (.store value dest)) := by
  intro s
  refine (use_works _).bind fun _ s1 ⟨h1, value⟩ => (use_works _).bind fun _ s2 ⟨h2, dest⟩ => ?_
  refine (protect_working _ s2).bind fun _ s3 h3 => (protect_working _ s3).bind fun _ s4 h4 => ?_
  have later := h3.trans h4
  have covers : s4.Covers noSetting (.store _ _) :=
    ⟨value.grows (h2.trans later).toGrows, dest.grows later.toGrows⟩
  exact (write_works covers).imp fun _ _ h5 => ((h1.trans h2).trans later).trans h5

lemma Doing.working_of {x : Evaluation α} (h : Doing calls free x) : Working x := by
  induction h with
  | noting h => exact h.working
  | working h => exact modifyWork_working fun w => (h w).2.1
  | pass => exact modifyWork_working fun _ => rfl
  | hold => exact hold_working _ _
  | clear h => exact modifyWork_working fun _ => rfl
  | newTemp => exact newTemp_working _ _ _ _
  | protect p => exact protect_working p
  | run e => exact runUsed_working e
  | fail => exact fun s => write_run_works (.parts nofun nofun nofun)
  | store value dest => exact runStored_working value dest
  | seq _ gives _ ihx ihf =>
    intro s
    refine ((ihx s).and (gives s)).bind ?_
    rintro a s1 ⟨first, given⟩
    exact (ihf a given s1).imp fun _ _ second => first.trans second

lemma runInstruction_working (link : Link) (i : Instruction) : Working (runInstruction link i) :=
  (runInstruction_does link i).working_of

structure Session.CoversResult (setting : JoinId → Expr → Prop) (s : Session) (b : BlockResult) :
    Prop where
  statements : ∀ stmt ∈ b.statements, s.Covers setting stmt
  condition : ∀ e, b.condition = some e → s.Counted e
  switchValue : ∀ e, b.switchValue = some e → s.Counted e

lemma Session.CoversResult.grows (h : s.CoversResult setting b)
    (grows : s.Grows s') : s'.CoversResult setting b where
  statements stmt mem := (h.statements stmt mem).grows grows
  condition e found := (h.condition e found).grows grows
  switchValue e found := (h.switchValue e found).grows grows

structure Session.CoversNode (s : Session) (node : Node) (b : BlockResult) : Prop
    extends s.CoversResult noSetting b where
  exit : b.returnValue ≠ none → node.isExit = true

lemma Session.CoversResult.imp
    (h : s.CoversResult setting b) (weaker : ∀ id value, setting id value → setting' id value) :
    s.CoversResult setting' b :=
  ⟨fun stmt mem => (h.statements stmt mem).imp weaker, h.condition, h.switchValue⟩

lemma runInstructions_working (node : Node) : Working (runInstructions node) :=
  .forM fun i => (runInstruction_working node.link i).rethrow

lemma runNode_covers (node : Node) (tidy : s.Tidy) :
    Ensures s (runNode node) fun b s' => s.Works s' ∧ s'.CoversNode node b := by
  have used (e) (s) : Ensures s (e.forM use) fun _ s' =>
      s.Works s' ∧ s'.work = s.work ∧ ∀ e', e = some e' → s'.Counted e' := by
    cases e with
    | none => exact .pure ⟨.refl, rfl, nofun⟩
    | some e =>
      refine ((use_works e).and use_noting.noted.ensures).imp
        fun _ s' ⟨⟨works, counted⟩, noted⟩ => ?_
      exact ⟨works, noted.work, fun e' same => Option.some.inj same ▸ counted⟩
  refine (runInstructions_working node s).bind fun _ s1 h1 => .get ?_
  refine (used _ s1).bind fun _ s2 ⟨h2, work2, condition⟩ => .get ?_
  refine (used _ s2).bind fun _ s3 ⟨h3, work3, switchValue⟩ => .get (.pure ?_)
  have works := (h1.trans h2).trans h3
  refine ⟨works, ⟨(works.tidy tidy).statements, fun e found => ?_, fun e found => ?_⟩,
    fun returns => ?_⟩
  · refine (condition e ?_).grows h3.toGrows
    rw [← found, work3, work2]
  · refine switchValue e ?_
    rw [← found, work3]
  · by_contra other
    exact returns (if_neg other)

end

section

variable {s s' : Session} {o : Options} {g : Graph}

structure Session.Evaluated (s : Session) : Prop extends s.Clean where
  results : ∀ i, s.CoversResult noSetting (s.block i)
  exits : ∀ i, (s.block i).returnValue ≠ none → i ∈ s.exits.toList

lemma block_of_blocks (same : s'.blocks = s.blocks) (i : Nat) : s'.block i = s.block i := by
  rw [block, block, same]

lemma block_modify (s : Session) (n k : Nat) (f : BlockResult → BlockResult) :
    { s with blocks := s.blocks.modify n f }.block k = s.block k ∧
        (k = n → s.block k = default) ∨
      k = n ∧ { s with blocks := s.blocks.modify n f }.block k = f (s.block k) := by
  simp only [block, getD_eq_getD_getElem?, Array.getElem?_modify]
  split
  case isTrue same =>
    subst same
    cases s.blocks[n]? with
    | none => exact .inl ⟨rfl, fun _ => rfl⟩
    | some b => exact .inr ⟨rfl, rfl⟩
  case isFalse other => exact .inl ⟨rfl, fun same => absurd same.symm other⟩

lemma Session.Evaluated.of_grows (h : s.Evaluated) (clean : s'.Clean) (grows : s.Grows s')
    (blocks : s'.blocks = s.blocks) (exits : s'.exits = s.exits) : s'.Evaluated := by
  refine ⟨clean, fun i => ?_, fun i returns => ?_⟩
  · rw [block_of_blocks blocks]
    exact (h.results i).grows grows
  · rw [block_of_blocks blocks] at returns
    exact exits ▸ h.exits i returns

lemma Notes.evaluated {x : Evaluation α} (noting : Noting x) (h : s.Evaluated) :
    Ensures s x fun _ s' => s'.Evaluated :=
  (noting.recounted.and noting.noted.ensures).imp fun _ _ ⟨recounted, noted⟩ =>
    h.of_grows (recounted.clean h.toClean) recounted.grows noted.blocks noted.exits

lemma evalNode_covers (h : s.Evaluated) : Ensures s (evalNode o g i registers) fun b s' =>
    b.Failed ∨ s'.Evaluated ∧ s'.CoversNode (g.nodes.getD i default) b := by
  rw [evalNode_eq]
  refine (Notes.evaluated inferInstance h).bind fun _ s h => .bind_modify ?_
  let s1 : Session := { s with work := { registers := registers } }
  have same : s.Recounted none s1 := .of_same rfl rfl rfl rfl
  have h1 : s1.Evaluated := h.of_grows (same.clean h.toClean) same.grows rfl rfl
  have tidy : s1.Tidy := ⟨h1.toClean, nofun⟩
  refine .tryCatch ?_ fun e s' => .ite (fun _ => .throw e) fun _ =>
    (failedResult_failed e).imp fun _ _ => .inl
  refine (runNode_covers _ tidy).bind fun b s2 ⟨works, covers⟩ => ?_
  refine (Notes.working inferInstance s2).bind fun _ s3 later => .pure (.inr ⟨?_, ?_⟩)
  · have works := works.trans later
    exact h1.of_grows (works.tidy tidy).toClean works.toGrows works.blocks works.exits
  · exact ⟨covers.grows later.toGrows, covers.exit⟩

/-- A new join is not used yet. -/
lemma newJoin_evaluated (h : s.Evaluated) (r : Register) (node : Nat) :
    Ensures s (newJoin r node) fun _ s' => s'.Evaluated := by
  refine (freshType_noting.evaluated h).bind fun type s1 h1 => .get ?_
  let j : Join := { register := r, node := node, type := type }
  let s2 : Session := { s1 with joins := s1.joins.push j }
  have joins (id) : s2.join id = s1.join id ∨
      s2.join id = j ∧ (s1.join id).uses = 0 := by
    simp only [s2, join, getD_eq_getD_getElem?, getElem?_push]
    split
    case isTrue new =>
      refine .inr ⟨rfl, ?_⟩
      rw [new, Array.getElem?_eq_none (le_refl _)]
      rfl
    case isFalse => exact .inl rfl
  have used (id) : (s2.join id).uses = (s1.join id).uses := by
    rcases joins id with same | ⟨new, unused⟩
    · rw [same]
    · rw [new, unused]
  have grows : s1.Grows s2 := by
    refine ⟨fun _ => id, fun id pos code => ?_⟩
    rcases joins id with same | ⟨_, unused⟩
    · rw [same]
      exact ⟨pos, code⟩
    · exact absurd unused (ne_of_gt pos)
  have clean : s2.Clean := by
    have none (id) : (s2.join id).usedBy = none ∧ (s2.join id).replacement = none := by
      rcases joins id with same | ⟨new, _⟩
      · rw [same]
        exact h1.joins id
      · rw [new]
        exact ⟨rfl, rfl⟩
    refine ⟨⟨fun id _ used => ?_, fun id value _ found => ?_, fun id => ?_, ?_⟩, none, ?_⟩
    · exact (h1.sound.values id (by simp) used).grows grows
    · rw [(none id).2] at found
      cases found
    · rw [used]
      exact h1.sound.listed id
    · exact h1.sound.nodup
    · exact h1.joinVariables
  refine .bind_modify ?_
  exact .pure (h1.of_grows clean grows rfl rfl)

lemma startRegisters_evaluated (h : s.Evaluated) (before : Registers) :
    Ensures s (startRegisters g fx i before) fun _ s' => s'.Evaluated := by
  refine .bind_lift fun changed _ => .foldlM h fun r _ registers s1 h1 => .bind_lift fun _ _ => ?_
  refine .ite (fun _ => ?_) fun _ => .pure h1
  exact (newJoin_evaluated h1 r i).bind fun _ _ h2 => .pure h2

lemma record_evaluated (h : s.Evaluated) (covers : s.CoversNode (g.nodes.getD i default) b) :
    Ensures s (record g i b) fun _ s' => s'.Evaluated := by
  let s1 : Session := { s with blocks := s.blocks.modify i fun _ => b }
  have results (k) : s1.block k = s.block k ∨ k = i ∧ s1.block k = b :=
    (block_modify s i k _).imp_left And.left
  have same : s.Recounted none s1 := .of_same rfl rfl rfl rfl
  have covered (k) : s1.CoversResult noSetting (s1.block k) := by
    rcases results k with same' | ⟨_, new⟩
    · rw [same']
      exact (h.results k).grows same.grows
    · rw [new]
      exact covers.grows same.grows
  have clean := same.clean h.toClean
  refine .bind_modify ?_
  refine .ite (fun _ => .modify ?_) fun goesOn => .pure ?_
  · let s2 : Session := { s1 with exits := s.exits.push i }
    have more : s1.Recounted none s2 := .of_same rfl rfl rfl rfl
    refine ⟨more.clean clean, fun k => (covered k).grows more.grows, fun k returns => ?_⟩
    rw [toList_push]
    rcases results k with same' | ⟨rfl, _⟩
    · exact mem_append_left _ (h.exits k (same' ▸ returns))
    · exact mem_append_right _ mem_cons_self
  · refine ⟨clean, covered, fun k returns => ?_⟩
    rcases results k with same' | ⟨_, new⟩
    · exact h.exits k (same' ▸ returns)
    · exact absurd (covers.exit (new ▸ returns)) goesOn

def FailedOrEvaluated (given : List (Nat × BlockResult)) (s : Session) : Prop :=
  (∃ p ∈ given, p.2.Failed) ∨ s.Evaluated

lemma evalListed_evaluated (before : FailedOrEvaluated given s) :
    Ensures s (evalListed o g fx depth i registers given) FailedOrEvaluated := by
  have failed {α} {given : List (Nat × BlockResult)} {s : Session} {x : Evaluation α}
      {Q : α → Session → Prop} (h : FailedOrEvaluated given s)
      (good : s.Evaluated → Ensures s x Q) :
      Ensures s x fun a s' => (∃ p ∈ given, p.2.Failed) ∨ Q a s' := by
    rcases h with failed | h
    · exact fun _ _ _ => .inl failed
    · exact (good h).imp fun _ _ => .inr
  induction depth generalizing i registers given s with
  | zero => exact .throw _
  | succ depth ih =>
    refine (failed before evalNode_covers).bind fun b s1 h1 => ?_
    refine .bind_expect fun _ => ?_
    have recorded : Ensures s1 (record g i b) fun _ s' =>
        FailedOrEvaluated (given ++ [(i, b)]) s' := by
      rcases h1 with ⟨p, mem, failed⟩ | failed | ⟨h1, covers⟩
      · exact fun _ _ _ => .inl ⟨p, mem_append_left _ mem, failed⟩
      · exact fun _ _ _ => .inl ⟨(i, b), mem_append_right _ mem_cons_self, failed⟩
      · exact (record_evaluated h1 covers).imp fun _ _ => .inr
    refine recorded.bind fun _ s2 h2 => ?_
    refine .foldlM h2 fun child _ given s3 h3 => ?_
    refine (failed h3 fun h => startRegisters_evaluated h b.registers).bind fun _ s4 h4 => ?_
    exact ih h4

def Session.HasError (s : Session) : Prop :=
  ∃ i, (s.block i).statements.any isComment = true

/-- After all blocks, every expression in a statement is used. -/
lemma evalFrom_evaluated (tree : g.DominatorTree) (some_node : 0 < g.nodes.size)
    (h : s.Evaluated) (size : s.blocks.size = g.nodes.size) :
    Ensures s (evalFrom o g fx depth 0 registers) fun _ s' => s'.HasError ∨ s'.Evaluated := by
  have nodup : (([] : List (Nat × BlockResult)).map Prod.fst ++ g.treeFrom depth 0).Nodup :=
    Graph.treeFrom_nodup tree some_node
  intro _ s' run
  rcases @evalListed_extends o g fx depth 0 registers [] nodup s with
    ⟨_, _, failed, _⟩ | ⟨given, _, ok, listed, _⟩
  · cases failed.symm.trans run
  · cases ok.symm.trans run
    rcases evalListed_evaluated (.inr h) _ _ listed with ⟨p, mem, failed⟩ | evaluated
    · have recorded := evalListed_recorded tree some_node ⟨size, forall_mem_nil _⟩ _ _ listed
      refine .inl ⟨p.1, ?_⟩
      rw [block, getD_eq_getD_getElem?, recorded.given p mem]
      exact failed.comment
    · exact .inr evaluated

end

end Decompiler.Eval
