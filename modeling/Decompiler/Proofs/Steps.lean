import Mathlib
import Decompiler.Failure

/-!
# Steps that may fail

Partial correctness of steps that may fail, with and without a state.
-/

namespace Decompiler

open List

lemma bind_ok {x : Except ε α} {f : α → Except ε β} {b} (h : x >>= f = .ok b) :
    ∃ a, x = .ok a ∧ f a = .ok b := by
  cases x with
  | error _ => cases h
  | ok a => exact ⟨a, rfl, h⟩

lemma mapM_of_ok {f : α → Except ε β} {g : α → β} {l : List α}
    (h : ∀ a ∈ l, f a = .ok (g a)) : l.mapM f = .ok (l.map g) := by
  induction l with
  | nil => rfl
  | cons a l ih =>
    rw [mapM_cons, h a (.head _), ih fun b mem => h b (.tail _ mem)]
    rfl

lemma exists_of_mem_mapM {ε α β : Type} {f : α → Except ε β} {l : List α} {bs : List β} {b}
    (h : l.mapM f = .ok bs) (mem : b ∈ bs) : ∃ a ∈ l, f a = .ok b := by
  induction l generalizing bs with
  | nil =>
    cases h
    cases mem
  | cons a l ih =>
    rw [mapM_cons] at h
    obtain ⟨b', first, h⟩ := bind_ok h
    obtain ⟨bs', others, h⟩ := bind_ok h
    cases h
    cases mem with
    | head => exact ⟨a, .head _, first⟩
    | tail _ mem =>
      obtain ⟨a', mem', run⟩ := ih others mem
      exact ⟨a', .tail _ mem', run⟩

section

variable {ε σ α β : Type} {x : ExceptT ε (StateM σ) α}

lemma run_bind_ok (h : (x >>= f).run s = (.ok b, s')) :
    ∃ a s1, x.run s = (.ok a, s1) ∧ (f a).run s1 = (.ok b, s') := by
  change ExceptT.bindCont f (x.run s).1 (x.run s).2 = _ at h
  rcases e : x.run s with ⟨_ | a, s1⟩ <;> rw [e] at h
  · cases h
  · exact ⟨a, s1, rfl, h⟩

lemma run_bind_of_ok (h : x.run s = (.ok a, s')) : (x >>= f).run s = (f a).run s' := by
  change ExceptT.bindCont f (x.run s).1 (x.run s).2 = _
  rw [h]
  rfl

lemma run_bind_of_error (h : x.run s = (.error e, s')) : (x >>= f).run s = (.error e, s') := by
  change ExceptT.bindCont f (x.run s).1 (x.run s).2 = _
  rw [h]
  rfl

lemma run_tryCatch :
    (tryCatch x h).run s = match x.run s with
      | (.ok a, s') => (.ok a, s')
      | (.error e, s') => (h e).run s' := by
  have bind {β : Type} (f : Except ε α → StateM σ β) :
      (x.run >>= f) s = f (x.run s).1 (x.run s).2 := rfl
  rw [ExceptT.run_tryCatch, bind]
  rcases x.run s with ⟨_ | a, s'⟩
  · rfl
  · rfl

end

lemma run_filterM {l : List α} {p : α → ExceptT ε (StateM σ) Bool} {q : α → Bool} {s}
    (h : ∀ a ∈ l, (p a).run s = (.ok (q a), s)) : (l.filterM p).run s = (.ok (l.filter q), s) := by
  have aux (acc : List α) :
      (l.filterAuxM p acc).run s = (.ok ((l.filter q).reverse ++ acc), s) := by
    induction l generalizing acc with
    | nil => rfl
    | cons a l ih =>
      rw [filterAuxM, run_bind_of_ok (h a (.head _)), ih fun b mem => h b (.tail _ mem)]
      cases here : q a <;> simp [here]
  refine (run_bind_of_ok (aux [])).trans ?_
  rw [append_nil]
  exact Prod.ext (congrArg Except.ok (reverse_reverse _)) rfl

lemma ok_of_toOption {x : Except ε α} {a} (h : x.toOption = some a) : x = .ok a := by
  cases x with
  | error _ => cases h
  | ok b =>
    cases h
    rfl

lemma eq_of_toOption {ε σ α : Type} {r : Except ε α × σ} {a} (h : r.1.toOption = some a) :
    r = (.ok a, r.2) :=
  Prod.ext (ok_of_toOption h) rfl

lemma lift_ok {x : Except Failure α} {a s s'}
    (h : (liftM x : ExceptT Failure (StateM σ) α).run s = (.ok a, s')) : x = .ok a := by
  cases x with
  | error _ => cases h
  | ok _ =>
    cases h
    rfl

def Ensures {σ α : Type} (s : σ) (x : ExceptT Failure (StateM σ) α) (Q : α → σ → Prop) : Prop :=
  ∀ a s', x.run s = (.ok a, s') → Q a s'

namespace Ensures

variable {σ α β : Type} {x : ExceptT Failure (StateM σ) α}

lemma pure (h : Q a s) : Ensures s (pure a) Q := by
  intro _ _ e
  cases e
  exact h

lemma throw (e : Failure) : Ensures s (throw e : ExceptT Failure (StateM σ) α) Q := by
  intro _ _ h
  cases h

lemma imp (h : Ensures s x P) (weaker : ∀ a s', P a s' → Q a s') : Ensures s x Q :=
  fun a s' e => weaker a s' (h a s' e)

lemma and (h : Ensures s x P) (h' : Ensures s x Q) : Ensures s x fun a s' => P a s' ∧ Q a s' :=
  fun a s' e => ⟨h a s' e, h' a s' e⟩

lemma bind (hx : Ensures s x P) (hf : ∀ a s1, P a s1 → Ensures s1 (f a) R) :
    Ensures s (x >>= f) R := by
  intro b s' h
  change ExceptT.bindCont f (x.run s).1 (x.run s).2 = _ at h
  rcases e : x.run s with ⟨_ | a, s1⟩ <;> rw [e] at h
  · cases h
  · exact hf a s1 (hx a s1 e) b s' h

lemma skip (h : ∀ a s1, Ensures s1 (f a) R) : Ensures s (x >>= f) R :=
  .bind (fun _ _ _ => trivial) fun a s1 _ => h a s1

lemma bind_throw (e : Failure) : Ensures s ((MonadExcept.throw e : _) >>= f) R :=
  .bind (P := fun _ _ => False) (.throw e) fun _ _ no => no.elim

lemma get {f} (h : Ensures s (f s) R) : Ensures s (get >>= f) R :=
  h

lemma bind_gets {g : σ → α} (h : Ensures s (f (g s)) R) :
    Ensures s ((do return g (← MonadState.get)) >>= f) R :=
  h

lemma bind_modify {f} (h : Ensures (g s) (f ()) R) : Ensures s (modify g >>= f) R :=
  h

lemma modify {Q} (h : Q () (f s)) : Ensures s (modify f : ExceptT Failure (StateM σ) Unit) Q := by
  intro _ _ e
  cases e
  exact h

lemma modifyGet (h : Q (f s).1 (f s).2) :
    Ensures s (modifyGet f : ExceptT Failure (StateM σ) α) Q := by
  intro _ _ e
  cases e
  exact h

lemma lift {x : Except Failure α} (h : ∀ a, x = .ok a → Q a s) :
    Ensures s (liftM x : ExceptT Failure (StateM σ) α) Q := by
  intro _ _ e
  cases x with
  | error _ => cases e
  | ok _ =>
    cases e
    exact h _ rfl

lemma bind_lift {x : Except Failure α} (h : ∀ a, x = .ok a → Ensures s (f a) R) :
    Ensures s (liftM x >>= f) R := by
  cases x with
  | error _ => exact .throw _
  | ok a => exact h a rfl

lemma ok {x : Except Failure α} (e : x = .ok a) (h : Ensures s (f a) R) :
    Ensures s (liftM x >>= f) R := by
  subst e
  exact h

lemma expect {holds : Bool} {Q : Unit → σ → Prop} (h : holds → Q () s) :
    Ensures s (expect holds message : ExceptT Failure (StateM σ) Unit) Q := by
  unfold Decompiler.expect
  split
  · exact .pure (h ‹_›)
  · exact .throw _

lemma bind_expect {holds : Bool} {f : Unit → ExceptT Failure (StateM σ) β}
    (h : holds → Ensures s (f ()) R) : Ensures s (Decompiler.expect holds message >>= f) R := by
  unfold Decompiler.expect
  split
  · exact h ‹_›
  · exact .throw _

lemma ite [Decidable c] (hx : c → Ensures s x Q) (hy : ¬ c → Ensures s y Q) :
    Ensures s (if c then x else y) Q := by
  split
  · exact hx ‹_›
  · exact hy ‹_›

lemma tryCatch (hx : Ensures s x Q) (hh : ∀ e s', Ensures s' (h e) Q) :
    Ensures s (tryCatch x h) Q := by
  intro a s' run
  rw [run_tryCatch] at run
  split at run
  case h_1 e => exact hx a s' (e.trans run)
  case h_2 => exact hh _ _ a s' run

lemma forM {l : List γ} {f} {I : σ → Prop} (start : I s)
    (round : ∀ a ∈ l, ∀ s, I s → Ensures s (f a) fun _ s' => I s') :
    Ensures s (l.forM f) fun _ s' => I s' := by
  induction l generalizing s with
  | nil => exact .pure start
  | cons a l ih =>
    refine (round a (.head _) s start).bind fun _ s1 h => ?_
    exact ih h fun b mem => round b (.tail _ mem)

/-- An invariant of a loop may depend on the elements that are still to come. -/
lemma forM_rest {l : List γ} {f} {I : List γ → σ → Prop} (start : I l s)
    (round : ∀ a l s, I (a :: l) s → Ensures s (f a) fun _ s' => I l s') :
    Ensures s (l.forM f) fun _ s' => I [] s' := by
  induction l generalizing s with
  | nil => exact .pure start
  | cons a l ih => exact (round a l s start).bind fun _ _ h => ih h

lemma foldlM {l : List γ} {f b} (start : R b s)
    (round : ∀ a ∈ l, ∀ b s, R b s → Ensures s (f b a) R) : Ensures s (l.foldlM f b) R := by
  induction l generalizing s b with
  | nil => exact .pure start
  | cons a l ih =>
    refine (round a (.head _) b s start).bind fun _ s1 h => ?_
    exact ih h fun b mem => round b (.tail _ mem)

end Ensures

end Decompiler
