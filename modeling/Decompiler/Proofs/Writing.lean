import Decompiler.Proofs.Footprint

/-!
# What writing leaves alone

Writing code gives names to variables and members and may settle types. It changes neither the
results of blocks nor which of their statements are written.
-/

namespace Decompiler.Eval

open Asm Code Infer Array

def Temp.unnamed (t : Temp) : Temp :=
  { t with name := none }

structure Session.Agrees (s s' : Session) : Prop where
  blocks : s'.blocks = s.blocks
  joins : s'.joins = s.joins
  usedJoins : s'.usedJoins = s.usedJoins
  temps : s'.temps.map Temp.unnamed = s.temps.map Temp.unnamed

instance : IsPreorder Session Session.Agrees where
  refl _ := ⟨rfl, rfl, rfl, rfl⟩
  trans _ _ _ h h' :=
    ⟨h'.blocks.trans h.blocks, h'.joins.trans h.joins, h'.usedJoins.trans h.usedJoins,
      h'.temps.trans h.temps⟩

lemma Session.Agrees.refl {s : Session} : s.Agrees s :=
  refl_of Agrees s

lemma Session.Agrees.trans {s s' s'' : Session} (h : s.Agrees s') (h' : s'.Agrees s'') :
    s.Agrees s'' :=
  trans_of Agrees h h'

lemma Session.Untouched.agrees {s s' : Session} (h : s.Untouched s') : s.Agrees s' :=
  ⟨h.blocks, h.joins, h.usedJoins, by rw [h.temps]⟩

lemma Notes.agrees {x : Evaluation α} (h : Quiet x) : Respects Session.Agrees x := by
  induction h with
  | pure a => exact .pure a
  | throw e => exact .throw e
  | get => exact .get
  | lift x => exact .lift x
  | modify h => exact .modify fun s => (h s).agrees
  | modifyGet h => exact .modifyGet fun s => (h s).agrees
  | name id name =>
    refine .modify fun s => ⟨rfl, rfl, rfl, ext (by simp) fun i _ _ => ?_⟩
    simp only [getElem_map, getElem_modify]
    split
    · rfl
    · rfl
  | use e no => cases no
  | bind _ _ ihx ihf => exact ihx.bind ihf

def Still {α : Type} (s s' : Session) (x : Evaluation α) : Prop :=
  ∃ r, x.run s = (r, s) ∧ x.run s' = (r, s')

namespace Still

variable {α β : Type} {x : Evaluation α}

lemma pure (a : α) : Still s s' (pure a : Evaluation α) :=
  ⟨.ok a, rfl, rfl⟩

lemma throw (e : Failure) : Still s s' (throw e : Evaluation α) :=
  ⟨.error e, rfl, rfl⟩

lemma lift (x : Except Failure α) : Still s s' (liftM x : Evaluation α) := by
  cases x with
  | error e => exact .throw e
  | ok a => exact .pure a

lemma bind (hx : Still s s' x) (hf : ∀ a, Still s s' (f a)) : Still s s' (x >>= f) := by
  obtain ⟨r, e, e'⟩ := hx
  have run (s : Session) : (x >>= f).run s = ExceptT.bindCont f (x.run s).1 (x.run s).2 := rfl
  rw [Still, run, run, e, e']
  cases r with
  | error _ => exact ⟨_, rfl, rfl⟩
  | ok a => exact hf a

lemma get {f : Session → Evaluation β} (same : f s' = f s) (h : Still s s' (f s)) :
    Still s s' (get >>= f) := by
  obtain ⟨r, e, e'⟩ := h
  exact ⟨r, e, (congrArg (·.run s') same).trans e'⟩

lemma ite [Decidable c] (hx : Still s s' x) (hy : Still s s' y) :
    Still s s' (if c then x else y) := by
  split
  · exact hx
  · exact hy

end Still

section

variable {s s' : Session}

section

variable (h : s.Agrees s')

include h

lemma Session.Agrees.temp (id : TempId) : (s'.temp id).unnamed = (s.temp id).unnamed := by
  have unnamed (a : Array Temp) : (a.getD id default).unnamed =
      (a.map Temp.unnamed).getD id default := by
    simp only [getD_eq_getD_getElem?, getElem?_map]
    cases a[id]? <;> rfl
  rw [Session.temp, Session.temp, unnamed, unnamed, h.temps]

lemma Session.Agrees.value (id : TempId) : (s'.temp id).value = (s.temp id).value :=
  (congrArg (·.value) (h.temp id) :)

lemma Session.Agrees.reach : s'.reach = s.reach := by
  have size : s'.temps.size = s.temps.size := by simpa using congrArg size h.temps
  rw [Session.reach, Session.reach, size, h.joins]

lemma Session.Agrees.core (e : Expr) : s'.core e = s.core e := by
  have deep (depth) (e) : s'.coreFrom depth e = s.coreFrom depth e := by
    induction depth generalizing e with
    | zero => rfl
    | succ depth ih =>
      unfold coreFrom
      split
      · rw [ih, h.value]
      · rw [ih, h.value]
      · rfl
  rw [Session.core, Session.core, h.reach, deep]

lemma Session.Agrees.destination (id : JoinId) : s'.destination id = s.destination id := by
  have deep (depth) (id) :
      s'.destinationFrom depth id = s.destinationFrom depth id := by
    induction depth generalizing id with
    | zero => rfl
    | succ depth ih =>
      unfold destinationFrom
      rw [join, join, h.joins]
      split
      · exact ih _
      · rfl
  rw [Session.destination, Session.destination, h.joins, deep]

/-- Writing does not change which statements are written. -/
lemma isWritten_still (stmt : Stmt) : Still s s' (isWritten stmt) := by
  cases stmt with
  | setTemp id =>
    refine .get ?_ (.pure _)
    have once : (s'.temp id).exactlyOnce = (s.temp id).exactlyOnce :=
      (congrArg (·.exactlyOnce) (h.temp id) :)
    have uses : (s'.temp id).uses = (s.temp id).uses := (congrArg (·.uses) (h.temp id) :)
    have trivial : (s'.temp id).trivial = (s.temp id).trivial := (congrArg (·.trivial) (h.temp id) :)
    simp only [Temp.isVariable, once, uses, trivial]
  | setJoin id value =>
    refine .get ?_ (.bind (.lift _) fun dest => ?_)
    · simp only [h.destination, h.core]
    · dsimp only
      split
      · refine .bind (.lift _) fun forwarded => .ite (.bind ?_ fun _ => .pure _) ?_
        · exact .ite (.pure _) (.throw _)
        · split <;> exact .pure _
      · split <;> exact .pure _
  | run | store | comment => exact .get rfl (.pure _)

end

def Session.shown (s : Session) (node : Nat) : Except Failure (List Stmt) :=
  (((s.block node).statements.filterM fun stmt => isWritten stmt).run.run s).1

lemma Session.Agrees.block (h : s.Agrees s') (node : Nat) : s'.block node = s.block node := by
  rw [Session.block, Session.block, h.blocks]

end

end Decompiler.Eval
