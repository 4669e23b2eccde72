import Decompiler.Proofs.BodyGraph
import Decompiler.Proofs.Writing
import Decompiler.Structure.Build

/-!
# Where nodes occur in a body

A node occurs in a body if its statements stand there, or if its test is one of those joined in a
condition. This module says what one step of building a body adds to it.
-/

namespace Decompiler.Structure

open Code Eval Decompiler.Flow Infer List

/-- A part of a body, at any depth. -/
inductive Within (part : Part) : Body → Prop where
  | here {body} :
    part ∈ body →
    Within part body
  | inThen {body indent condition thenBody elseBody} :
    .branch indent condition thenBody elseBody ∈ body →
    Within part thenBody →
    Within part body
  | inElse {body indent condition thenBody elseBody} :
    .branch indent condition thenBody (some elseBody) ∈ body →
    Within part elseBody →
    Within part body

lemma Within.mono (h : Within part a) (sub : a ⊆ b) : Within part b := by
  cases h with
  | here mem => exact .here (sub mem)
  | inThen mem h => exact .inThen (sub mem) h
  | inElse mem h => exact .inElse (sub mem) h

lemma Within.mem (h : Within part body) (flat : ∀ n c t e, .branch n c t e ∉ body) :
    part ∈ body := by
  cases h with
  | here mem => exact mem
  | inThen mem _ | inElse mem _ => exact (flat _ _ _ _ mem).elim

lemma within_append : Within part (a ++ b) ↔ Within part a ∨ Within part b := by
  constructor
  · intro h
    cases h with
    | here mem => exact (mem_append.1 mem).imp .here .here
    | inThen mem h => exact (mem_append.1 mem).imp (.inThen · h) (.inThen · h)
    | inElse mem h => exact (mem_append.1 mem).imp (.inElse · h) (.inElse · h)
  · rintro (h | h)
    · exact h.mono (subset_append_left _ _)
    · exact h.mono (subset_append_right _ _)

lemma within_branch :
    Within part [.branch indent c thenBody elseBody] ↔
      part = .branch indent c thenBody elseBody ∨ Within part (thenBody ++ elseBody.getD []) := by
  rw [within_append]
  constructor
  · intro h
    cases h with
    | here mem => exact .inl (mem_singleton.1 mem)
    | inThen mem h =>
      cases mem_singleton.1 mem
      exact .inr (.inl h)
    | inElse mem h =>
      cases mem_singleton.1 mem
      exact .inr (.inr h)
  · rintro (rfl | h | h)
    · exact .here (mem_singleton_self _)
    · exact .inThen (mem_singleton_self _) h
    · cases elseBody with
      | none => cases h <;> contradiction
      | some elseBody => exact .inElse (mem_singleton_self _) h

inductive Signed (x : Expr) : Expr → Prop where
  | same :
    Signed x x
  | opposite {y s s'} :
    (negate x).run s = (.ok y, s') →
    Signed x y

def Tests (s : Session) (i : Nat) (x : Expr) : Prop :=
  ∃ c statements, (s.block i).condition = some c ∧ s.shown i = .ok statements ∧
    x = if statements.isEmpty then c else .comma statements c

inductive Joins (s : Session) (first : Nat) : Expr → List Nat → Prop where
  | first {c y} :
    (s.block first).condition = some c →
    Signed c y →
    Joins s first y []
  | next {left nodes op i x y type} :
    Joins s first left nodes →
    Tests s i x →
    Signed x y →
    Joins s first (.binary left op y type false) (nodes ++ [i])

inductive Occurs (s : Session) (body : Body) (i : Nat) : Prop where
  | block {indent statements header} :
    s.shown i = .ok statements →
    Within (.block indent i statements header) body →
    Occurs s body i
  | test :
    Within (.branch indent condition thenBody elseBody) body →
    Joins s first condition nodes →
    i ∈ nodes →
    Occurs s body i

lemma Occurs.mono (h : Occurs s a i) (sub : ∀ part, Within part a → Within part b) :
    Occurs s b i := by
  cases h with
  | block shown within => exact .block shown (sub _ within)
  | test within joins mem => exact .test (sub _ within) joins mem

namespace Plan

def onward (p : Plan) (i : Nat) : List Nat :=
  match (p.node i).link with
  | .next s =>
    if (p.node i).emitGoto then (i + 1) :: (if p.isCopy s then [s] else []) else [s]
  | .branch t f => if (p.node i).emitGoto then [f] else [t, f]
  | .select _ => [i + 1]
  | .exit copy =>
    if (p.node i).emitGoto && copy == 0 && p.graph.returnNode? != some i then [i + 1] else []

def Inner (p : Plan) (i : Nat) : Prop :=
  (p.node i).parents.length ≤ 1 ∧ ∃ k t, (p.node k).link = .branch t i ∧ t ≠ i

def JumpsTo (p : Plan) (t : Nat) : Prop :=
  p.isCopy t = false ∧ ∃ k, (p.node k).emitGoto ∧
    ((p.node k).link = .next t ∨ ∃ f, (p.node k).link = .branch t f)

end Plan

/-- What a piece of a body holds: the nodes in it, where control goes on from them, and the nodes
that were written before and after it. The code still has to go on at the nodes in `due`. -/
structure Lays (p : Plan) (s : Session) (due : Nat → Prop) (o : Outline) (body : Body)
    (o' : Outline) (nodes : List Nat) : Prop where
  occurs : ∀ i ∈ nodes, Occurs s body i
  labelled : ∀ i ∈ nodes, p.isCopy i ∨ p.Inner i ∨ ∃ indent, Within (.label indent i) body
  onward : ∀ i ∈ nodes, ∀ j ∈ p.onward i, j ∈ nodes ∨ o.emitted.contains j ∨ due j
  emitted : ∀ i, o.emitted.contains i → o'.emitted.contains i
  fresh : ∀ i, o'.emitted.contains i →
    o.emitted.contains i ∨ i ∈ nodes ∧ ∃ indent, Within (.label indent i) body
  gotos : ∀ i, o.gotos.contains i → o'.gotos.contains i
  jumps : ∀ indent t, Within (.goto indent t) body →
    o'.gotos.contains t ∧ (o'.emitted.contains t ∨ p.JumpsTo t)

namespace Lays

variable {p : Plan} {s : Session} {o o1 o' : Outline}

lemma nodeless (emitted : o'.emitted = o.emitted)
    (gotos : ∀ i, o.gotos.contains i → o'.gotos.contains i)
    (jumps : ∀ indent t, Within (.goto indent t) a →
      o'.gotos.contains t ∧ (o.emitted.contains t ∨ p.JumpsTo t)) : Lays p s due o a o' [] where
  occurs _ mem := (not_mem_nil mem).elim
  labelled _ mem := (not_mem_nil mem).elim
  onward _ mem := (not_mem_nil mem).elim
  emitted _ h := emitted ▸ h
  fresh _ h := .inl (emitted ▸ h)
  gotos := gotos
  jumps := emitted ▸ jumps

lemma plain (emitted : o'.emitted = o.emitted) (gotos : o'.gotos = o.gotos)
    (none : ∀ indent t, ¬ Within (.goto indent t) a) : Lays p s due o a o' [] :=
  nodeless emitted (fun _ h => gotos ▸ h) fun indent t h => (none indent t h).elim

lemma block (shown : s.shown i = .ok statements)
    (mem : .block indent i statements header ∈ a) (none : ∀ n t, ¬ Within (.goto n t) a)
    (label : p.isCopy i ∨ ∃ n, Within (.label n i) a) :
    Lays p s (· ∈ p.onward i) o a o [i] where
  occurs j hj := by
    cases mem_singleton.1 hj
    exact .block shown (.here mem)
  labelled j hj := by
    cases mem_singleton.1 hj
    exact label.imp_right .inr
  onward j hj k hk := by
    cases mem_singleton.1 hj
    exact .inr (.inr hk)
  emitted _ h := h
  fresh _ h := .inl h
  gotos _ h := h
  jumps n t h := (none n t h).elim

lemma noting (h : Lays p s due o a o' ns) (valued : Bool) (searches : Searches) :
    Lays p s due o a { o' with returnsValue := valued, searches := searches } ns :=
  ⟨h.occurs, h.labelled, h.onward, h.emitted, h.fresh, h.gotos, h.jumps⟩

/-- Code is put together; what the first part needs must be in one of the two. -/
lemma append (first : Lays p s due1 o a o1 ns) (second : Lays p s due o1 b o' ms)
    (meet : ∀ j, due1 j → j ∈ ns ∨ o.emitted.contains j ∨ j ∈ ms ∨ o1.emitted.contains j ∨ due j) :
    Lays p s due o (a ++ b) o' (ns ++ ms) where
  occurs i mem := by
    rcases mem_append.1 mem with mem | mem
    · exact (first.occurs i mem).mono fun _ h => within_append.2 (.inl h)
    · exact (second.occurs i mem).mono fun _ h => within_append.2 (.inr h)
  labelled i mem := by
    rcases mem_append.1 mem with mem | mem
    · exact (first.labelled i mem).imp_right
        (.imp_right fun ⟨n, h⟩ => ⟨n, within_append.2 (.inl h)⟩)
    · exact (second.labelled i mem).imp_right
        (.imp_right fun ⟨n, h⟩ => ⟨n, within_append.2 (.inr h)⟩)
  onward i mem j hj := by
    have known (h : o1.emitted.contains j) :
        j ∈ ns ++ ms ∨ o.emitted.contains j ∨ due j := by
      rcases first.fresh j h with h | ⟨h, -⟩
      · exact .inr (.inl h)
      · exact .inl (mem_append_left _ h)
    rcases mem_append.1 mem with mem | mem
    · rcases first.onward i mem j hj with h | h | h
      · exact .inl (mem_append_left _ h)
      · exact .inr (.inl h)
      · rcases meet j h with h | h | h | h | h
        · exact .inl (mem_append_left _ h)
        · exact .inr (.inl h)
        · exact .inl (mem_append_right _ h)
        · exact known h
        · exact .inr (.inr h)
    · rcases second.onward i mem j hj with h | h | h
      · exact .inl (mem_append_right _ h)
      · exact known h
      · exact .inr (.inr h)
  emitted i h := second.emitted i (first.emitted i h)
  fresh i h := by
    rcases second.fresh i h with h | ⟨h, n, within⟩
    · rcases first.fresh i h with h | ⟨h, n, within⟩
      · exact .inl h
      · exact .inr ⟨mem_append_left _ h, n, within_append.2 (.inl within)⟩
    · exact .inr ⟨mem_append_right _ h, n, within_append.2 (.inr within)⟩
  gotos i h := second.gotos i (first.gotos i h)
  jumps indent t h := by
    rcases within_append.1 h with h | h
    · obtain ⟨goto, target⟩ := first.jumps indent t h
      exact ⟨second.gotos t goto, target.imp_left (second.emitted t)⟩
    · exact second.jumps indent t h

lemma weaken (h : Lays p s due1 o a o' ns)
    (sub : ∀ j, due1 j → j ∈ ns ∨ o.emitted.contains j ∨ due j) : Lays p s due o a o' ns := by
  refine { h with onward := fun i mem j hj => ?_ }
  rcases h.onward i mem j hj with h | h | h
  · exact .inl h
  · exact .inr (.inl h)
  · exact sub j h

/-- Tests that are joined in a condition are laid with it. -/
lemma branch (h : Lays p s due o (a ++ elseBody.getD []) o' ns)
    (joins : Joins s first c ms) (inner : ∀ i ∈ ms, p.Inner i)
    (goes : ∀ i ∈ ms, ∀ j ∈ p.onward i, j ∈ ms ++ ns ∨ o.emitted.contains j ∨ due j) :
    Lays p s due o [.branch indent c a elseBody] o' (ms ++ ns) where
  occurs i mem := by
    rcases mem_append.1 mem with mem | mem
    · exact .test (.here (mem_singleton_self _)) joins mem
    · exact (h.occurs i mem).mono fun _ w => within_branch.2 (.inr w)
  labelled i mem := by
    rcases mem_append.1 mem with mem | mem
    · exact .inr (.inl (inner i mem))
    · exact (h.labelled i mem).imp_right
        (.imp_right fun ⟨n, w⟩ => ⟨n, within_branch.2 (.inr w)⟩)
  onward i mem j hj := by
    rcases mem_append.1 mem with mem | mem
    · exact goes i mem j hj
    · exact (h.onward i mem j hj).imp_left (mem_append_right _)
  emitted := h.emitted
  fresh i mem := (h.fresh i mem).imp_right fun ⟨mem, n, w⟩ =>
    ⟨mem_append_right _ mem, n, within_branch.2 (.inr w)⟩
  gotos := h.gotos
  jumps n t w := by
    rcases within_branch.1 w with e | w
    · cases e
    · exact h.jumps n t w

lemma guarded (h : Lays p s due o a o' ns) (joins : Joins s first c []) :
    Lays p s due o [.branch indent c a none] o' ns := by
  have h : Lays p s due o (a ++ Option.getD none []) o' ns := by simpa using h
  exact h.branch joins (by simp) (by simp)

end Lays

def Gives {α : Type} (s : Session) (x : Evaluation α) (Q : α → Prop) : Prop :=
  ∀ s1 a s2, s.Agrees s1 → x.run s1 = (.ok a, s2) → s.Agrees s2 ∧ Q a

def Yields {α : Type} (s : Session) (x : Build α) (o : Outline) (Q : α → Outline → Prop) : Prop :=
  Gives s (x.run o) fun r => Q r.1 r.2

namespace Gives

variable {α β : Type}

lemma pure (h : Q a) : Gives s (pure a) Q := by
  intro s1 _ _ agrees e
  cases e
  exact ⟨agrees, h⟩

lemma bind (hx : Gives s x Q) (hf : ∀ a, Q a → Gives s (f a) R) : Gives s (x >>= f) R := by
  intro s1 b s2 agrees e
  obtain ⟨a, s', e1, e2⟩ := run_bind_ok e
  obtain ⟨agrees', h⟩ := hx _ _ _ agrees e1
  exact hf a h _ _ _ agrees' e2

lemma of_quiet (h : Quiet x) : Gives s x fun _ => True :=
  fun _ _ _ agrees e => ⟨agrees.trans (h.agrees.ensures _ _ e), trivial⟩

end Gives

namespace Yields

variable {α β : Type}

lemma pure (h : Q a o) : Yields s (pure a) o Q :=
  Gives.pure h

lemma throw (e : Failure) : Yields s (throw e : Build α) o Q := by
  intro s1 _ _ _ e
  cases e

lemma bind (hx : Yields s x o Q) (hf : ∀ a o', Q a o' → Yields s (f a) o' R) :
    Yields s (x >>= f) o R :=
  Gives.bind hx fun r h => hf r.1 r.2 h

lemma bind_same {P : α → Prop} (hx : Yields s x o fun a o' => P a ∧ o' = o)
    (hf : ∀ a, P a → Yields s (f a) o R) : Yields s (x >>= f) o R := by
  refine hx.bind ?_
  rintro a _ ⟨h, rfl⟩
  exact hf a h

lemma imp (hx : Yields s x o Q) (h : ∀ a o', Q a o' → Q' a o') : Yields s x o Q' :=
  fun _ _ _ agrees e => (hx _ _ _ agrees e).imp_right (h _ _)

lemma ite [Decidable c] (hx : c → Yields s x o Q) (hy : ¬ c → Yields s y o Q) :
    Yields s (if c then x else y) o Q := by
  split
  case isTrue h => exact hx h
  case isFalse h => exact hy h

lemma get : Yields s (get : Build Outline) o fun a o' => a = o ∧ o' = o :=
  Gives.pure ⟨rfl, rfl⟩

lemma modify (f : Outline → Outline) : Yields s (modify f : Build Unit) o fun _ o' => o' = f o :=
  Gives.pure rfl

lemma lift (h : Gives s y P) : Yields s (liftM y) o fun a o' => P a ∧ o' = o :=
  Gives.bind h fun _ h => .pure ⟨h, rfl⟩

lemma except (y : Except Failure α) :
    Yields s (liftM y : Build α) o fun a o' => y = .ok a ∧ o' = o := by
  cases y with
  | error e => exact .throw e
  | ok a => exact .pure ⟨rfl, rfl⟩

lemma expect (holds : Bool) (message : String) :
    Yields s (expect holds message : Build Unit) o fun _ o' => o' = o :=
  .ite (fun _ => .pure rfl) fun _ => .throw _

lemma mapM {f} {R : γ → α → Prop} {cs} (h : ∀ c o, Yields s (f c) o fun a _ => R c a) :
    Yields s (cs.mapM f) o fun as _ => Forall₂ R cs as := by
  induction cs generalizing o with
  | nil => exact .pure .nil
  | cons c cs ih =>
    rw [mapM_cons]
    exact .bind (h c o) fun a o1 ha => .bind ih fun as o2 has => .pure (.cons ha has)

end Yields

section

variable {p : Plan} {s : Session} {o : Outline}

lemma blockOf_yields : Yields s (blockOf i) o fun b o' => b = s.block i ∧ o' = o := by
  intro s1 r s2 agrees e
  cases e
  exact ⟨agrees, agrees.block i, rfl⟩

lemma isWritten_gives (stmt : Stmt) :
    Gives s (isWritten stmt) fun b => (isWritten stmt).run s = (.ok b, s) := by
  intro s1 b s2 agrees e
  obtain ⟨r, e', e1⟩ := isWritten_still agrees stmt
  cases e.symm.trans e1
  exact ⟨agrees, e'⟩

lemma statementsOf_yields :
    Yields s (statementsOf i) o fun statements o' => s.shown i = .ok statements ∧ o' = o := by
  have aux (l acc : List Stmt) :
      Yields s (l.filterAuxM (fun stmt => (isWritten stmt : Evaluation Bool)) acc) o fun r o' =>
        ((l.filterAuxM isWritten acc).run s).1 = .ok r ∧ o' = o := by
    induction l generalizing acc with
    | nil => exact .pure ⟨rfl, rfl⟩
    | cons stmt l ih =>
      refine .bind_same (.lift (isWritten_gives stmt)) fun b run => ?_
      refine (ih _).imp fun r o' h => ?_
      rwa [filterAuxM, run_bind_of_ok run]
  refine .bind_same blockOf_yields fun b block => .bind_same (aux b.statements []) fun r run => ?_
  subst block
  refine .pure ⟨?_, rfl⟩
  rcases e : ((s.block i).statements.filterAuxM isWritten []).run s with ⟨x, s'⟩
  rw [e] at run
  cases run
  have whole : ((s.block i).statements.filterM isWritten).run s = (.ok r.reverse, s') :=
    run_bind_of_ok e
  exact (congrArg Prod.fst whole :)

lemma meetingNode_yields :
    Yields s (meetingNode g i stop) o fun meet o' => ∃ searches,
      (immediatePostdominator g i stop).run o.searches = .ok (meet, searches) ∧
      o' = { o with searches := searches } := by
  refine .bind_same .get fun a same => .bind_same (.except _) fun found run => ?_
  subst same
  exact .bind (.modify _) fun _ o' same => .pure ⟨found.2, run, same⟩

lemma conditionOf_yields :
    Yields s (conditionOf i) o fun c o' => (s.block i).condition = some c ∧ o' = o := by
  refine .bind_same blockOf_yields fun b block => ?_
  subst block
  split
  · exact .pure ⟨by assumption, rfl⟩
  · exact .throw _

lemma conditionWithStatements_yields :
    Yields s (conditionWithStatements i) o fun x o' => Tests s i x ∧ o' = o := by
  refine .bind_same conditionOf_yields fun c condition => ?_
  refine .bind_same statementsOf_yields fun statements shown => ?_
  exact .pure ⟨⟨c, statements, condition, shown, rfl⟩, rfl⟩

lemma textOf_yields (e : Expr) : Yields s (textOf p e) o fun _ o' => o' = o :=
  (Yields.lift (.of_quiet wholeText_noting)).imp fun _ _ h => h.2

lemma Plan.onward_copy (h : p.isCopy i) : p.onward i = [] := by
  unfold isCopy at h
  unfold onward
  split at h
  case h_1 e => simp [e]
  case h_2 => cases h

end

end Decompiler.Structure
