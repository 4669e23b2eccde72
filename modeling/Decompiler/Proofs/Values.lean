import Decompiler.Eval.Value
import Decompiler.Proofs.Counting

/-!
# The values of instructions

What the expressions stand for that an instruction of a straight piece of code leads to, given what
its operands stand for. Looking behind a temporary gives an expression for the same word, and so
does reading a chain of operations as one multiplication.
-/

namespace Decompiler.Eval

open Asm Code Infer Session

inductive Amount (k : Nat) : Expr → Prop where
  | literal {t} : k < 32 → Amount k (.literal k t)
  | cast {e t silent} : Amount k e → Amount k (.cast e t true silent)

/-- The word that an expression without loads stands for, given the registers at the start and the
values of the temporaries so far. -/
inductive Means (start : Register → Word) (vals : List Word) : Expr → Word → Prop where
  | literal {n t} : Means start vals (.literal n t) (.ofInt 32 n)
  | argument {place copied t r} :
    argumentRegister? place = some r →
    Means start vals (.argument place copied t) (start r)
  | symbol {name t r} :
    symbolRegister? name = some r →
    Means start vals (.symbol name t) (start r)
  | temp {id t v} :
    vals[id]? = some v →
    Means start vals (.temp id t) v
  | cast {e t silent v} :
    Means start vals e v →
    Means start vals (.cast e t true silent) v
  | binary {l r op t f a b} :
    op.word? = some f →
    (op = .shiftLeft → ∃ k, Amount k r) →
    Means start vals l a →
    Means start vals r b →
    Means start vals (.binary l op r t false) (f a b)

/-- The word that the value of a temporary stands for where it is computed; it may be loaded. -/
inductive Gives (start : Register → Word) (vals : List Word) (m : Memory) : Expr → Word → Prop where
  | pure {e v} :
    Means start vals e v →
    Gives start vals m e v
  | load {base offset field t a} :
    Means start vals base a →
    Gives start vals m (.member base offset (some 4) field t) (m.read (a + .ofInt 32 offset))
  | cast {e t silent v} :
    Gives start vals m e v →
    Gives start vals m (.cast e t true silent) v

section

variable {vals : List Word} {e : Expr}

lemma Means.plain (h : Means start vals e v) : Plain vals.length e := by
  induction h with
  | literal => exact .literal
  | argument => exact .argument
  | symbol => exact .symbol
  | temp found => exact .temp (getElem?_eq_some_iff.1 found).1
  | cast _ ih => exact .cast ih
  | binary _ _ _ _ ihl ihr => exact .binary ihl ihr

lemma Gives.plain (h : Gives start vals m e v) : Plain vals.length e := by
  induction h with
  | pure means => exact means.plain
  | load means => exact .member means.plain
  | cast _ ih => exact .cast ih

lemma Means.mono (h : Means start vals e v) (more : vals <+: vals') : Means start vals' e v := by
  induction h with
  | literal => exact .literal
  | argument found => exact .argument found
  | symbol found => exact .symbol found
  | temp found =>
    obtain ⟨ws, rfl⟩ := more
    exact .temp (by rw [List.getElem?_append_left (getElem?_eq_some_iff.1 found).1, found])
  | cast _ ih => exact .cast ih
  | binary op amount _ _ ihl ihr => exact .binary op amount ihl ihr

lemma Gives.mono (h : Gives start vals m e v) (more : vals <+: vals') : Gives start vals' m e v := by
  induction h with
  | pure means => exact .pure (means.mono more)
  | load means => exact .load (means.mono more)
  | cast _ ih => exact .cast ih

lemma Means.word? (h : Means start vals e v) : e.word? start (vals[·]?) m = some v := by
  induction h with
  | literal => rfl
  | argument found | symbol found => rw [Expr.word?, found, Option.map_some]
  | temp found => exact found
  | cast _ ih => exact ih
  | binary op _ _ _ ihl ihr =>
    rw [Expr.word?, op, ihl, ihr]
    rfl

lemma Means.unique (h : Means start vals e v) (h' : Means start vals e v') : v = v' :=
  Option.some.inj ((h.word? (m := fun _ => 0)).symm.trans h'.word?)

lemma Means.same (h : Means start vals e v) (h' : Means start vals e' v') (same : e.same e') :
    v = v' := by
  cases h with
  | literal | argument found | symbol found | temp found =>
    cases h' <;> simp_all [Expr.same, Expr.identical]
  | cast means =>
    have eq := Expr.eq_of_identical (by simpa [Expr.same] using same)
    exact (cast means).unique (eq ▸ h')
  | binary op amount l r =>
    have eq := Expr.eq_of_identical (by simpa [Expr.same] using same)
    exact (binary op amount l r).unique (eq ▸ h')

end

structure View where
  start : Register → Word
  vals : List Word
  stale : TempId → Prop

structure Holds (w : View) (s : Session) (bound : Nat) (e : Expr) (v : Word) : Prop where
  means : Means w.start w.vals e v
  ripe : s.Ripe w.stale e
  flat : height e ≤ bound

structure Consistent (w : View) (s : Session) : Prop where
  ordered : s.Ordered
  length : w.vals.length = s.temps.size
  gives : ∀ id v, w.vals[id]? = some v → ∃ m, Gives w.start (w.vals.take id) m (s.value id) v
  flat : ∀ id, (s.value id).load? = none → height (s.value id) ≤ 6
  settled : ∀ id, s.Settled (fun _ => False) id

section

variable {w : View} {s s' : Session} {e : Expr}

lemma Holds.weaken (h : Holds w s bound e v) (le : bound ≤ bound') : Holds w s bound' e v :=
  ⟨h.means, h.ripe, le_trans h.flat le⟩

lemma Holds.advances (h : Holds w s bound e v) (advances : s.Advances s') : Holds w s' bound e v :=
  ⟨h.means, h.ripe.grown advances.temps, h.flat⟩

lemma Consistent.of_grown (h : Consistent w s) (size : s'.temps.size = s.temps.size)
    (grown : ∀ id, (s.temp id).Grown (s'.temp id))
    (settled : ∀ id, s.Settled (fun _ => False) id → s'.Settled (fun _ => False) id)
    : Consistent ⟨w.start, w.vals, D⟩ s' := by
  have value (id) : s'.value id = s.value id := (grown id).value
  refine ⟨h.ordered.of_grown size grown, h.length.trans size.symm, ?_, ?_, ?_⟩
  · intro id v found
    rw [value]
    exact h.gives id v found
  · intro id none
    rw [value] at none ⊢
    exact h.flat id none
  · exact fun id => settled id (h.settled id)

lemma Consistent.advances (h : Consistent w s) (advances : s.Advances s') : Consistent w s' :=
  h.of_grown advances.size advances.temps fun id => advances.settled _ id fun _ h => h.elim

lemma Session.Ripe.of_parts (other : ∀ id t, e ≠ .temp id t)
    (h : ∀ x ∈ s.parts e, s.Ripe D x) : s.Ripe D e := by
  intro j inlines hj
  cases inlines with
  | here => exact (other _ _ rfl).elim
  | part mem inlines => exact h _ mem j inlines hj

lemma Session.Ripe.part (h : s.Ripe D e) (mem : e' ∈ s.parts e) :
    s.Ripe D e' := fun j inlines hj =>
  h j (.part mem inlines) hj

lemma Session.Ripe.value {id t} (h : s.Ripe D (.temp id t))
    (settled : s.Settled (fun _ => False) id) : s.Ripe D (s.value id) := by
  intro j inlines hj
  by_cases var : (s.temp id).isVariable
  · obtain ⟨uses, -⟩ := Bool.and_eq_true_iff.1 var
    have := of_decide_eq_true uses
    exact settled.counted (by omega) j inlines trivial
  · exact h j (inlines.value var) hj

lemma Holds.literal (n : Int) (t : TypeId) : Holds w s 1 (.literal n t) (.ofInt 32 n) :=
  ⟨.literal, .of_parts (by simp) (by simp [parts]), le_refl _⟩

lemma Holds.casted (h : Holds w s bound e v) (casted : Casted e e') :
    Holds w s (bound + 1) e' v := by
  rcases casted with rfl | ⟨t, rfl⟩
  · exact h.weaken (Nat.le_succ _)
  · refine ⟨.cast h.means, .of_parts (by simp) ?_, Nat.succ_le_succ h.flat⟩
    simpa [parts] using h.ripe

lemma Holds.binary (operation : op.word? = some f) (amount : op = .shiftLeft → ∃ k, Amount k r)
    (hl : Holds w s bound l a) (hr : Holds w s bound r b) :
    Holds w s (bound + 1) (.binary l op r t false) (f a b) := by
  refine ⟨.binary operation amount hl.means hr.means, .of_parts (by simp) ?_, ?_⟩
  · simpa [parts] using ⟨hl.ripe, hr.ripe⟩
  · have := hl.flat
    have := hr.flat
    simp only [height]
    omega

lemma Holds.operands (h : Holds w s (bound + 1) (.binary l op r t floating) v) :
    ∃ f a b, op.word? = some f ∧ (op = .shiftLeft → ∃ k, Amount k r) ∧ v = f a b ∧
      Holds w s bound l a ∧ Holds w s bound r b := by
  obtain ⟨means, ripe, flat⟩ := h
  cases means with
  | binary operation amount hl hr =>
    simp only [height] at flat
    exact ⟨_, _, _, operation, amount, rfl, ⟨hl, ripe.part (.head _), by omega⟩,
      ⟨hr, ripe.part (.tail _ (.head _)), by omega⟩⟩

lemma Holds.value {id t} (c : Consistent w s) (h : Holds w s bound (.temp id t) v) :
    s.Ripe w.stale (s.value id) ∧ ∃ m, Gives w.start w.vals m (s.value id) v := by
  refine ⟨h.ripe.value (c.settled id), ?_⟩
  cases h.means with
  | temp found =>
    obtain ⟨m, gives⟩ := c.gives id v found
    exact ⟨m, gives.mono (List.take_prefix _ _)⟩

lemma Means.load?_eq_none (h : Means start vals e v) : e.load? = none := by
  induction h with
  | cast _ ih => exact ih
  | literal | argument | symbol | temp | binary => rfl

lemma Gives.means (h : Gives start vals m e v) (none : e.load? = none) : Means start vals e v := by
  induction h with
  | pure means => exact means
  | load => cases none
  | cast _ ih => exact .cast (ih none)

end

section

variable {w : View} {s : Session} {e : Expr}

lemma openedFrom_of_ne (other : ∀ id t, e ≠ .temp id t) : s.openedFrom depth e = e := by
  cases depth with
  | zero => rfl
  | succ depth =>
    unfold openedFrom
    split
    · exact (other _ _ rfl).elim
    · rfl

lemma openedFrom_holds (c : Consistent w s) (h : Holds w s 6 e v)
    (pure : (s.openedFrom depth e).load? = none) : Holds w s 6 (s.openedFrom depth e) v := by
  induction depth generalizing e with
  | zero => exact h
  | succ depth ih =>
    unfold openedFrom at pure ⊢
    split
    · rename_i id t
      dsimp only at pure
      split
      · rename_i isOpen
        rw [if_pos isOpen] at pure
        obtain ⟨ripe, m, gives⟩ := h.value c
        have none : (s.value id).load? = none := by
          cases load : (s.value id).load? with
          | none => rfl
          | some l =>
            change (s.openedFrom depth (s.value id)).load? = _ at pure
            rw [openedFrom_of_ne fun _ _ same => by simp [same, Expr.load?] at load, load] at pure
            exact pure
        exact ih ⟨gives.means none, ripe, c.flat id none⟩ pure
      · exact h
    · exact h

lemma opened_holds (c : Consistent w s) (h : Holds w s 6 e v) (opened : s.opened e = e')
    (pure : e'.load? = none) : Holds w s 6 e' v := by
  subst opened
  exact openedFrom_holds c h pure

/-- A large literal stands for itself. -/
lemma eq_of_large {e : Expr} (found : (match e with
      | .literal n _ =>
        if (n % 0x8000 == 0 || n % 0x8000 == 0x7fff) && n < 0x1000000 then some n else none
      | _ => none) = some n) (h : Holds w s 5 e z) : z = .ofInt 32 n := by
  split at found
  · obtain ⟨-, same⟩ := Option.ite_none_right_eq_some.1 found
    cases same
    cases h.means
    rfl
  · cases found

/-- Moving a constant from the base to the offset keeps the address. -/
lemma moveOffset_holds (c : Consistent w s) (h : Holds w s 1 base a) (offset : Int) :
    ∃ x, Holds w s 5 (moveOffset s base offset).1 x ∧
      x + .ofInt 32 (moveOffset s base offset).2 = a + .ofInt 32 offset := by
  have kept : ∃ x, Holds w s 5 (base, offset).1 x ∧
      x + .ofInt 32 (base, offset).2 = a + .ofInt 32 offset :=
    ⟨a, h.weaken (by decide), rfl⟩
  unfold moveOffset
  split
  · rename_i l r t floating opened
    have holds := opened_holds c (h.weaken (by decide)) opened rfl
    obtain ⟨f, x, y, operation, -, rfl, hl, hr⟩ := holds.operands
    cases operation
    dsimp only
    split
    · rename_i n found
      refine ⟨x, hl, ?_⟩
      rw [eq_of_large found hr, BitVec.ofInt_add]
      ac_rfl
    · rename_i n _ found
      refine ⟨y, hr, ?_⟩
      rw [eq_of_large found hl, BitVec.ofInt_add]
      ac_rfl
    · exact kept
  · exact kept

lemma Amount.lt (h : Amount k r) : k < 32 := by
  induction h with
  | literal lt => exact lt
  | cast _ ih => exact ih

lemma Amount.eq (h : Amount k r) (means : Means w.start w.vals r y) : y = .ofInt 32 k := by
  induction h with
  | literal => exact means.unique .literal
  | cast _ ih =>
    cases means with
    | cast means => exact ih means

lemma shiftLeft_eq_mul (amount : Amount k r) (means : Means w.start w.vals r y) :
    x <<< y = x * BitVec.ofInt 32 (Nat.pow 2 k : Nat) := by
  have lt := amount.lt
  have toNat : (BitVec.ofNat 32 k).toNat = k := Nat.mod_eq_of_lt (by omega)
  rw [amount.eq means, BitVec.shiftLeft_eq', BitVec.ofInt_natCast, toNat,
    BitVec.shiftLeft_eq_mul_twoPow, BitVec.ofInt_natCast]
  congr 1
  apply BitVec.eq_of_toNat_eq
  rw [BitVec.toNat_twoPow, BitVec.toNat_ofNat, Nat.pow_eq]

lemma Means.height_of_isTrivial (h : Means start vals e v) (trivial : e.isTrivial) :
    height e = 1 := by
  cases h with
  | literal | argument | symbol | temp => rfl
  | cast | binary => cases trivial

lemma literal_of_literal? (h : e.literal? = some n) : ∃ t, e = .literal n t := by
  unfold Expr.literal? at h
  split at h
  · cases h
    exact ⟨_, rfl⟩
  · cases h

lemma Means.of_literal (h : Means start vals e v) (found : e.literal? = some n) :
    v = .ofInt 32 n := by
  obtain ⟨t, rfl⟩ := literal_of_literal? found
  exact h.unique .literal

lemma shiftedLeft_eq (found : e.literal? = some j) (amount : Amount k e)
    (h : shiftedLeft n j = .ok p) : p = n * (Nat.pow 2 k : Nat) := by
  obtain ⟨t, rfl⟩ := literal_of_literal? found
  cases amount
  unfold shiftedLeft at h
  split at h
  · cases h
  · cases h
    rfl

lemma ofInt_sub (m n : Int) : BitVec.ofInt 32 (m - n) = BitVec.ofInt 32 m - BitVec.ofInt 32 n := by
  rw [Int.sub_eq_add_neg, BitVec.ofInt_add, BitVec.ofInt_neg, BitVec.sub_eq_add_neg]

/-- A chain of operations that is read as a multiplication keeps its word. -/
lemma multipleFrom_holds (c : Consistent w s) (pos : 0 < bound) (h : Holds w s bound e v)
    (run : multipleFrom s depth e top allowShift = .ok (base, n)) :
    ∃ x, Holds w s bound base x ∧ v = x * BitVec.ofInt 32 n := by
  induction depth generalizing e v bound top allowShift base n with
  | zero =>
    cases run
    exact ⟨v, h, by simp⟩
  | succ depth ih =>
    -- An expression that is no multiple of another one is once itself.
    have itself {base} {n} (run : (.ok (e, 1) : Except Failure _) = .ok (base, n)) :
        ∃ x, Holds w s bound base x ∧ v = x * BitVec.ofInt 32 n := by
      cases run
      exact ⟨v, h, by simp⟩
    unfold multipleFrom at run
    split at run
    · rename_i l op r t floating
      obtain ⟨bound, rfl⟩ : ∃ b, bound = b + 1 := ⟨bound - 1, by omega⟩
      have pos : 0 < bound := by
        have := h.flat
        have := height_pos l
        simp only [height] at *
        omega
      obtain ⟨f, a, b, operation, amount, rfl, hl, hr⟩ := h.operands
      obtain ⟨⟨l', m⟩, runl, run⟩ := bind_ok run
      obtain ⟨⟨r', k⟩, runr, run⟩ := bind_ok run
      obtain ⟨x, hx, ha⟩ := ih pos hl runl
      obtain ⟨y, hy, hb⟩ := ih pos hr runr
      have weaken := hx.weaken (Nat.le_succ bound)
      dsimp only at run
      split at run
      · have found := ‹r.literal? = some _›
        cases operation
        obtain ⟨k, amount⟩ := amount rfl
        split at run
        · split at run
          · exact itself run
          · obtain ⟨p, shifted, run⟩ := bind_ok run
            cases run
            refine ⟨x, weaken, ?_⟩
            show a <<< b = _
            rw [shiftLeft_eq_mul amount hr.means, ha, shiftedLeft_eq found amount shifted,
              BitVec.ofInt_mul, BitVec.mul_assoc]
        · exact itself run
      · have found := ‹r.literal? = some _›
        cases operation
        split at run
        · cases run
          refine ⟨x, weaken, ?_⟩
          show a * b = _
          rw [ha, hr.means.of_literal found, BitVec.ofInt_mul, BitVec.mul_assoc]
        · exact itself run
      · cases operation
        split at run
        · rename_i same
          cases run
          refine ⟨x, weaken, ?_⟩
          rw [ha, hb, hx.means.same hy.means same, BitVec.ofInt_add, BitVec.mul_add]
        · exact itself run
      · cases operation
        split at run
        · rename_i same
          cases run
          refine ⟨x, weaken, ?_⟩
          rw [ha, hb, hx.means.same hy.means same, ofInt_sub, BitVec.mul_sub]
        · exact itself run
      · exact itself run
    · split at run
      · exact itself run
      · obtain ⟨means, -⟩ := h
        cases means
    · rename_i id t
      split at run
      · obtain ⟨⟨base', n'⟩, deep, run⟩ := bind_ok run
        obtain ⟨ripe, m, gives⟩ := h.value c
        change multipleFrom s depth (s.value id) _ _ = _ at deep
        dsimp only at run
        split at run
        · rename_i other
          cases run
          obtain ⟨ne, trivial⟩ := Bool.and_eq_true_iff.1 other
          -- A load is no multiple of anything.
          have once {e} {top allow} (leaf : multipleFrom s depth e top allow = .ok (e, 1))
              (deep : multipleFrom s depth e top allow = .ok (base, n)) : False := by
            cases leaf.symm.trans deep
            simp at ne
          generalize e : s.value id = value at *
          cases gives with
          | pure means =>
            have holds : Holds w s 6 value v := ⟨means, ripe, ?_⟩
            · obtain ⟨x, hx, hv⟩ := ih (by decide) holds deep
              refine ⟨x, ⟨hx.means, hx.ripe, ?_⟩, hv⟩
              rw [hx.means.height_of_isTrivial trivial]
              exact pos
            · exact e ▸ c.flat id (e ▸ means.load?_eq_none)
          | load | cast =>
            refine (once ?_ deep).elim
            cases depth <;> rfl
        · exact itself run
      · exact itself run
    · exact itself run

end

end Decompiler.Eval
