import Decompiler.Eval.Block
import Decompiler.Proofs.Steps

/-!
# What steps leave alone

A step of an evaluation leads from one state to another, also if it fails. Where it is enough to
know how the two states are related, it is enough to know it for the parts of a step.
-/

namespace Decompiler.Eval

open Asm Code Infer Decompiler.Flow List

def Respects {α : Type} (R : Session → Session → Prop) (x : Evaluation α) : Prop :=
  ∀ s, R s (x.run s).2

namespace Respects

variable {α β γ : Type} {x : Evaluation α}

lemma imp (h : Respects R x) (weaker : ∀ s s', R s s' → R' s s') : Respects R' x :=
  fun s => weaker s _ (h s)

lemma modify (h : ∀ s, R s (f s)) : Respects R (modify f : Evaluation Unit) :=
  h

lemma modifyGet (h : ∀ s, R s (f s).2) : Respects R (modifyGet f : Evaluation α) :=
  h

lemma ite [Decidable c] (hx : Respects R x) (hy : Respects R y) :
    Respects R (if c then x else y) := by
  split
  · exact hx
  · exact hy

variable [IsPreorder Session R]

@[simp]
lemma pure (a : α) : Respects R (pure a : Evaluation α) :=
  refl_of R

@[simp]
lemma throw (e : Failure) : Respects R (throw e : Evaluation α) :=
  refl_of R

@[simp]
lemma get : Respects R get :=
  refl_of R

@[simp]
lemma lift (x : Except Failure α) : Respects R (liftM x : Evaluation α) := by
  intro s
  cases x with
  | error _ | ok _ => exact refl_of R s

/-- What follows a step only has to be known for the results of the step. -/
lemma seq {P : α → Prop} (hx : Respects R x) (gives : ∀ s, Ensures s x fun a _ => P a)
    (hf : ∀ a, P a → Respects R (f a)) : Respects R (x >>= f) := by
  intro s
  change R s (ExceptT.bindCont f (x.run s).1 (x.run s).2).2
  have first := hx s
  rcases run : x.run s with ⟨_ | a, s1⟩
  all_goals rw [run] at first
  · exact first
  · exact trans_of R first (hf a (gives s a s1 run) s1)

lemma bind (hx : Respects R x) (hf : ∀ a, Respects R (f a)) : Respects R (x >>= f) :=
  hx.seq (P := fun _ => True) (fun _ _ _ _ => trivial) fun a _ => hf a

@[simp]
lemma map (g : α → β) (h : Respects R x) : Respects R (g <$> x) := by
  exact h.bind fun _ => .pure _

@[simp]
lemma discard (h : Respects R x) : Respects R (discard x) :=
  h.map _

lemma tryCatch (hx : Respects R x) (hh : ∀ e, Respects R (h e)) : Respects R (tryCatch x h) := by
  intro s
  rw [run_tryCatch]
  have first := hx s
  rcases e : x.run s with ⟨_ | a, s'⟩ <;> rw [e] at first
  · exact trans_of R first (hh _ s')
  · exact first

@[simp]
lemma expect : Respects R (expect holds message : Evaluation Unit) := by
  exact .ite (.pure _) (.throw _)

lemma forM {l : List γ} {f} (round : ∀ a ∈ l, Respects R (f a)) : Respects R (l.forM f) := by
  induction l with
  | nil => exact .pure _
  | cons a l ih =>
    refine (round a mem_cons_self).bind fun _ => ?_
    exact ih fun b mem => round b (mem_cons_of_mem _ mem)

lemma foldlM {l : List γ} {f : β → γ → Evaluation β} (round : ∀ b a, Respects R (f b a)) :
    Respects R (l.foldlM f b) := by
  induction l generalizing b with
  | nil => exact .pure _
  | cons a l ih =>
    exact (round b a).bind fun _ => ih

omit [IsPreorder Session R] in
lemma ensures {s} (h : Respects R x) : Ensures s x fun _ s' => R s s' := by
  intro a s' run
  have kept := h s
  rwa [run] at kept

end Respects

structure Session.Untouched (s s' : Session) : Prop where
  work : s'.work = s.work
  blocks : s'.blocks = s.blocks
  exits : s'.exits = s.exits
  temps : s'.temps = s.temps
  joins : s'.joins = s.joins
  usedJoins : s'.usedJoins = s.usedJoins
  joinVariables : s'.joinVariables = s.joinVariables
  rodata : s'.rodata = s.rodata
  frame : s'.frame = s.frame

lemma Session.Untouched.other {s : Session} {console types fields argumentTypes stackTypes symbolTypes
    memberTypes locals arguments argumentNames isVariadic stems offsetBases} :
    s.Untouched { s with
      console, types, fields, argumentTypes, stackTypes, symbolTypes, memberTypes, locals, arguments,
      argumentNames, isVariadic, stems, offsetBases } :=
  ⟨rfl, rfl, rfl, rfl, rfl, rfl, rfl, rfl, rfl⟩

/-- A step that only takes notes: it changes nothing but types and what is known about variables and
members, names temporaries and, where that is allowed, counts uses. -/
inductive Notes (uses : Bool) : {α : Type} → Evaluation α → Prop where
  | pure {α : Type} (a : α) :
    Notes uses (Pure.pure a)
  | throw {α : Type} (e : Failure) :
    Notes uses (MonadExcept.throw e : Evaluation α)
  | get :
    Notes uses (MonadState.get : Evaluation Session)
  | lift {α : Type} (x : Except Failure α) :
    Notes uses (liftM x : Evaluation α)
  | modify {f : Session → Session} :
    (∀ s : Session, s.Untouched (f s)) →
    Notes uses (modify f)
  | modifyGet {α : Type} {f : Session → α × Session} :
    (∀ s : Session, s.Untouched (f s).2) →
    Notes uses (modifyGet f)
  | name (id : TempId) (name : String) :
    Notes uses (modifyTemp id fun t => { t with name := some name })
  | use (e : Expr) :
    uses = true →
    Notes uses (use e)
  | bind {α β : Type} {x : Evaluation α} {f : α → Evaluation β} :
    Notes uses x →
    (∀ a, Notes uses (f a)) →
    Notes uses (x >>= f)

abbrev Noting {α : Type} (x : Evaluation α) : Prop :=
  Notes true x

abbrev Quiet {α : Type} (x : Evaluation α) : Prop :=
  Notes false x

attribute [class] Notes
attribute [instance] Notes.pure Notes.throw Notes.get Notes.lift Notes.name

namespace Notes

variable {α β γ : Type}

instance {f : α → Evaluation β} [hx : Notes u x] [hf : ∀ a, Notes u (f a)] : Notes u (x >>= f) :=
  hx.bind hf

instance : Notes u (reject why : Evaluation α) :=
  .throw _

instance ite {c : Prop} [Decidable c] [hx : Notes u x] [hy : Notes u y] :
    Notes u (if c then x else y) := by
  split
  · exact hx
  · exact hy

instance {g : α → β} [Notes u x] : Notes u (g <$> x) := by
  rw [map_eq_pure_bind]
  infer_instance

instance [Notes u x] : Notes u (discard x) :=
  inferInstanceAs (Notes u (_ <$> x))

instance expect : Notes u (expect holds message : Evaluation Unit) := by
  unfold Decompiler.expect
  infer_instance

variable {l : List γ}

instance {f : γ → Evaluation β} [∀ a, Notes u (f a)] : Notes u (l.mapM f) := by
  induction l with
  | nil => exact .pure _
  | cons a l ih =>
    rw [mapM_cons]
    infer_instance

instance forM {f} [∀ a, Notes u (f a)] : Notes u (l.forM f) := by
  induction l with
  | nil => exact .pure _
  | cons a l ih => exact .bind inferInstance fun _ => ih

instance {f : β → γ → Evaluation β} {b} [∀ b a, Notes u (f b a)] : Notes u (l.foldlM f b) := by
  induction l generalizing b with
  | nil => exact .pure _
  | cons a l ih =>
    rw [foldlM_cons]
    infer_instance

instance filterMapM {f : γ → Evaluation (Option β)} [∀ a, Notes u (f a)] :
    Notes u (l.filterMapM f) := by
  have loop (found : List β) : Notes u (filterMapM.loop f l found) := by
    induction l generalizing found with
    | nil => exact .pure _
    | cons a l ih =>
      refine .bind inferInstance fun b => ?_
      cases b with
      | none | some _ => exact ih _
  exact loop []

end Notes

structure Session.Noted (s s' : Session) : Prop where
  work : s'.work = s.work := by rfl
  blocks : s'.blocks = s.blocks := by rfl
  exits : s'.exits = s.exits := by rfl
  rodata : s'.rodata = s.rodata := by rfl
  frame : s'.frame = s.frame := by rfl
  values : s'.temps.map (·.value) = s.temps.map (·.value) := by rfl

instance : IsPreorder Session Session.Noted where
  refl _ := {}
  trans _ _ _ h h' :=
    ⟨h'.work.trans h.work, h'.blocks.trans h.blocks, h'.exits.trans h.exits,
      h'.rodata.trans h.rodata, h'.frame.trans h.frame, h'.values.trans h.values⟩

lemma Session.Untouched.noted {s s' : Session} (h : s.Untouched s') : s.Noted s' :=
  ⟨h.work, h.blocks, h.exits, h.rodata, h.frame, by rw [h.temps]⟩

lemma modifyTemp_noted {id f} (h : ∀ t, (f t).value = t.value) :
    Respects Session.Noted (modifyTemp id f) := by
  refine .modify fun s => { values := ?_ }
  refine Array.ext (by simp) fun k lt lt' => ?_
  simp only [Array.getElem_map, Array.getElem_modify]
  split
  · exact h _
  · rfl

lemma modifyJoin_noted (id : JoinId) (f : Join → Join) : Respects Session.Noted (modifyJoin id f) :=
  .modify fun _ => {}

lemma infer_noted (step : Inference α) : Respects Session.Noted (infer step) := by
  refine .bind (.modifyGet fun _ => {}) fun types => ?_
  refine .bind (.modify fun _ => {}) fun _ => ?_
  exact .lift _

lemma countJoin_noted (id : JoinId) (user : Option JoinId) :
    Respects Session.Noted (countJoin id user) := by
  refine .bind .get fun _ => .bind .expect fun _ => .bind .get fun s => ?_
  split
  · refine .bind (.modify fun _ => {}) fun _ => ?_
    exact (modifyJoin_noted _ _).bind fun _ => modifyJoin_noted _ _
  · exact modifyJoin_noted _ _

lemma useTemp_noted (h : ∀ e, Respects Session.Noted (useValue e)) (id : TempId) :
    Respects Session.Noted (useTemp useValue id) := by
  refine .bind .get fun s => .bind .expect fun _ => ?_
  refine .bind (modifyTemp_noted ?_) fun _ => .bind .get fun s => ?_
  · exact fun _ => rfl
  · exact .ite (h _) (.pure _)

lemma useFrom_noted (depth : Nat) (e : Expr) : Respects Session.Noted (useFrom depth e) := by
  induction depth generalizing e with
  | zero => exact .throw _
  | succ depth ih =>
    cases e with
    | comma => exact .throw _
    | cast operand type => exact (infer_noted _).discard.bind fun _ => ih operand
    | temp id => exact useTemp_noted ih id
    | forced id =>
      refine .bind (modifyTemp_noted ?_) fun _ => ?_
      · exact fun _ => rfl
      · exact (useTemp_noted ih id).bind fun _ => useTemp_noted ih id
    | join id =>
      refine (countJoin_noted _ _).bind fun _ => .bind .get fun s => ?_
      cases (s.join id).replacement with
      | some value => exact ih value
      | none => exact .pure _
    | _ => exact .bind .get fun s => .forM fun e _ => ih e

/-- Steps that only note something leave the code alone. -/
lemma Notes.noted {x : Evaluation α} (h : Notes u x) : Respects Session.Noted x := by
  induction h with
  | pure a => exact .pure a
  | throw e => exact .throw e
  | get => exact .get
  | lift x => exact .lift x
  | modify h => exact .modify fun s => (h s).noted
  | modifyGet h => exact .modifyGet fun s => (h s).noted
  | name id name => exact modifyTemp_noted fun _ => rfl
  | use e _ => exact .bind .get fun s => useFrom_noted s.reach e
  | bind _ _ ihx ihf => exact ihx.bind ihf

section

instance infer_noting {α : Type} {step : Inference α} : Notes u (infer step) := by
  refine .bind (.modifyGet fun _ => .other) fun types => ?_
  refine .bind (.modify fun _ => .other) fun _ => ?_
  exact .lift _

instance freshType_noting : Notes u (freshType n) :=
  infer_noting

instance unifyTypes_noting : Notes u (unifyTypes a b) :=
  infer_noting

instance tryUnify_noting : Notes u (tryUnify a b) := by
  unfold tryUnify
  infer_instance

instance : Notes u (isPointer t) := by
  unfold isPointer
  infer_instance

instance sizeBits_noting : Notes u (sizeBits t) := by
  unfold sizeBits
  infer_instance

instance : Notes u (literal value) := by
  unfold literal
  infer_instance

instance : Notes u (errorExpr why) := by
  unfold errorExpr
  infer_instance

instance : Notes u (newField name) :=
  .modifyGet fun _ => .other

instance : Notes u (memberAt base offset size name type) := by
  unfold memberAt
  infer_instance

instance printOut_noting : Notes u (printOut text) :=
  .modify fun _ => .other

instance : Notes u (printErr text) :=
  .modify fun _ => .other

instance use_noting : Noting (use e) :=
  .use e rfl

instance : Notes u (noteAccess base offset) := by
  unfold noteAccess
  split
  · refine .bind .get fun _ => .modify fun s => ?_
    split <;> exact .other
  · infer_instance

end

section

instance asType_noting : Notes u (asType e type silent) := by
  unfold asType
  infer_instance

instance asNew_noting : Notes u (asNew e type silent) := by
  unfold asNew
  infer_instance

instance : Notes u (apply o left op right) := by
  unfold apply
  infer_instance

instance negate_noting : Notes u (negate e) := by
  fun_induction negate e <;> infer_instance

instance : Notes u (builtin name args result) := by
  unfold builtin
  infer_instance

end

section

lemma sharedType_noting [BEq κ] {table keep} (h : ∀ (s : Session) t, s.Untouched (keep s t))
    {key : κ} : Notes u (sharedType table keep key) := by
  refine .bind .get fun s => ?_
  cases (table s).get? key with
  | some t => exact .pure t
  | none =>
    refine freshType_noting.bind fun t => ?_
    exact .bind (.modify fun s => h s _) fun _ => .pure t

instance : Notes u (argumentType place) :=
  sharedType_noting fun _ _ => .other

instance : Notes u (stackType place) :=
  sharedType_noting fun _ _ => .other

instance symbol_noting : Notes u (symbol name) :=
  (sharedType_noting fun _ _ => .other).bind fun _ => .pure _

instance : Notes u (memberType base offset) := by
  refine .bind .get fun s => ?_
  split
  · infer_instance
  · refine freshType_noting.bind fun t => ?_
    exact .bind (.modify fun _ => .other) fun _ => .pure t

instance declareLocal_noting : Notes u (declareLocal place type) :=
  .modify fun _ => .other

instance declareArgument_noting : Notes u (declareArgument place type) :=
  .modify fun _ => .other

instance argumentAt_noting : Notes u (argumentAt place) := by
  unfold argumentAt
  infer_instance

instance : Notes u (stackVariable place isStore) := by
  unfold stackVariable
  infer_instance

instance addressOfSymbol_noting : Notes u (addressOfSymbol name) := by
  repeat' first | infer_instance | split | refine .bind ?_ fun _ => ?_

instance readFrom_noting : Noting (readFrom registers r) := by
  unfold readFrom
  split
  · infer_instance
  · split <;> infer_instance

instance read_noting : Noting (read r) := by
  unfold read
  infer_instance

instance peek_noting : Notes u (peek r) := by
  unfold peek
  infer_instance

end

section

instance : Notes u (foldMultiple? e) := by
  unfold foldMultiple?
  infer_instance

instance : Notes u (arrayAccess?.finish size takeAddress base index target scale offset) := by
  unfold arrayAccess?.finish
  infer_instance

instance accessAt_noting : Notes u (accessAt base offset size) := by
  unfold accessAt
  dsimp only
  repeat' first | infer_instance | split | refine .bind ?_ fun _ => ?_

instance access_noting : Noting (access a size isStore) := by
  cases a <;> unfold access <;> infer_instance

instance : Notes u (pointerPlus source n imm) := by
  repeat' first | infer_instance | split | refine .bind ?_ fun _ => ?_

instance : Notes u (plus source imm) := by
  unfold plus
  repeat' first | infer_instance | split

end

section

variable {args : List Operand} {index : Nat}

instance valueAt_noting : Noting (valueAt args index) := by
  unfold valueAt
  infer_instance

instance : Noting (wordLiteral? e) := by
  cases e <;> unfold wordLiteral? <;> infer_instance

instance : Noting (constant operand) := by
  induction operand <;> unfold constant <;> infer_instance

instance : Noting (immediateAt args index) := by
  refine .bind inferInstance fun _ => .bind inferInstance fun _ => .bind inferInstance fun e => ?_
  cases e <;> infer_instance

instance : Noting (signedAt args index) := by
  refine .bind inferInstance fun e => ?_
  cases e <;> infer_instance

end

section

variable {args : List Operand}

instance : Noting (accessUnaligned a isStore) := by
  unfold accessUnaligned
  infer_instance

instance loadLowerBytes_noting : Noting (loadLowerBytes args old) := by
  repeat' first | infer_instance | split | refine .bind ?_ fun _ => ?_

variable {mnemonic : String}

lemma storeRule?_noting (h : storeRule? mnemonic = some rule) : Noting (rule args) := by
  unfold storeRule? at h
  split at h <;> cases h
  all_goals repeat' first | infer_instance | split | refine .bind ?_ fun _ => ?_

lemma valueRule?_noting (h : valueRule? mnemonic = some rule) : Noting (rule args) := by
  unfold valueRule? at h
  split at h <;> cases h
  all_goals repeat' first | infer_instance | split | refine .bind ?_ fun _ => ?_ | dsimp only

lemma branchRule?_noting (h : branchRule? mnemonic = some rule) : Noting (rule args) := by
  unfold branchRule? at h
  split at h <;> cases h
  all_goals repeat' first | infer_instance | split | refine .bind ?_ fun _ => ?_

lemma floatCompareRule?_noting (h : floatCompareRule? mnemonic = some rule) :
    Noting (rule args) := by
  unfold floatCompareRule? at h
  split at h
  · split at h <;> cases h
    all_goals repeat' first | infer_instance | split | refine .bind ?_ fun _ => ?_
  · cases h

lemma highLowRule?_noting (h : highLowRule? mnemonic = some rule) : Noting (rule args) := by
  unfold highLowRule? at h
  split at h <;> cases h
  all_goals repeat' first | infer_instance | split | refine .bind ?_ fun _ => ?_

lemma effectRule?_noting (h : effectRule? mnemonic = some rule) : Noting (rule args) := by
  unfold effectRule? at h
  split at h <;> cases h
  all_goals repeat' first | infer_instance | split | refine .bind ?_ fun _ => ?_

end

section

instance : Notes u (nextName stem) :=
  .bind .get fun _ => .bind (.modify fun _ => .other) fun _ => .pure _

instance {id} : Notes u (tempName id) := by
  unfold tempName
  dsimp only
  repeat' first | infer_instance | split | refine .bind ?_ fun _ => ?_

instance : Notes u (fieldName base offset size field) := by
  refine .bind .get fun s => ?_
  split
  · infer_instance
  · infer_instance
  · split
    · infer_instance
    · exact infer_noting.bind fun _ => .bind (.modify fun _ => .other) fun _ => .pure _

instance : Notes u (hasDeclaredType base offset size field) := by
  unfold hasDeclaredType
  dsimp only
  repeat' first | infer_instance | split | refine .bind ?_ fun _ => ?_

instance : Notes u (withoutCastsFrom depth e) := by
  induction depth generalizing e with
  | zero => exact .pure _
  | succ depth ih =>
    refine .bind .get fun s => ?_
    split <;> infer_instance

instance : Notes u (withoutCasts e) := by
  unfold withoutCasts
  infer_instance

lemma texts_noting (depth : Nat) :
    (∀ e, Notes u (exprTextFrom skipCasts depth e)) ∧
      ∀ stmt, Notes u (stmtTextFrom skipCasts depth stmt) := by
  induction depth with
  | zero => exact ⟨fun _ => .throw _, fun _ => .throw _⟩
  | succ depth ih =>
    obtain ⟨expr, stmt⟩ := ih
    constructor
    · intro e
      unfold exprTextFrom
      cases e <;> dsimp only
      all_goals repeat' first | infer_instance | split | refine .bind ?_ fun _ => ?_
    · intro e
      unfold stmtTextFrom
      cases e <;> dsimp only
      all_goals repeat' first | infer_instance | split

instance : Notes u (exprText skipCasts e) :=
  .bind .get fun s => (texts_noting (s.reach + e.depth)).1 e

instance wholeText_noting : Notes u (wholeText skipCasts e) := by
  unfold wholeText
  infer_instance

instance : Notes u (stmtText skipCasts stmt) :=
  .bind .get fun s => (texts_noting (s.reach + 1)).2 stmt

instance : Notes u (isWritten stmt) := by
  repeat' first | infer_instance | split | refine .bind ?_ fun _ => ?_

instance : Notes u (quoted e) := by
  unfold quoted
  infer_instance

instance resultText_noting : Notes u (resultText b) := by
  unfold resultText
  repeat' first | infer_instance | split

end

end Decompiler.Eval
