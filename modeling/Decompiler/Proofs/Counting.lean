import Decompiler.Proofs.CodeRun
import Decompiler.Proofs.Typing

/-!
# Counted uses

A temporary is written in place as long as it is used once, so a temporary whose value must not be
computed again has to be used twice. This module follows the uses through the values of
temporaries.
-/

namespace Decompiler.Eval

open Asm Code Infer Session List

inductive Session.Inlines (s : Session) : Expr → TempId → Prop where
  | here {id t} :
    ¬ (s.temp id).isVariable →
    s.Inlines (.temp id t) id
  | part {e x id} :
    x ∈ s.parts e →
    s.Inlines x id →
    s.Inlines e id

structure Temp.Grown (t t' : Temp) : Prop where
  value : t'.value = t.value
  exactlyOnce : t'.exactlyOnce = t.exactlyOnce
  uses : t.uses ≤ t'.uses
  trivial : t'.trivial → t.trivial

namespace Temp.Grown

variable {t t' : Temp}

lemma refl : t.Grown t :=
  ⟨rfl, rfl, le_refl _, id⟩

lemma trans (h : t.Grown t') (h' : t'.Grown t'') : t.Grown t'' :=
  ⟨h'.value.trans h.value, h'.exactlyOnce.trans h.exactlyOnce, le_trans h.uses h'.uses,
    h.trivial ∘ h'.trivial⟩

lemma isVariable (h : t.Grown t') (var : t.isVariable) : t'.isVariable := by
  obtain ⟨uses, plain⟩ := Bool.and_eq_true_iff.1 var
  refine Bool.and_eq_true_iff.2 ⟨?_, ?_⟩
  · exact decide_eq_true (lt_of_lt_of_le (of_decide_eq_true uses) h.uses)
  · have := mt h.trivial (by simpa using plain)
    simpa using this

end Temp.Grown

def Session.Lasting (s : Session) (D : TempId → Prop) : Prop :=
  ∀ j, D j → (s.temp j).trivial = false

def Session.Ripe (s : Session) (D : TempId → Prop) (e : Expr) : Prop :=
  ∀ j, s.Inlines e j → D j → 0 < (s.temp j).uses

def Session.Free (s : Session) (D : TempId → Prop) (e : Expr) : Prop :=
  ∀ j, s.Inlines e j → ¬ D j

structure Session.Settled (s : Session) (D : TempId → Prop) (id : TempId) : Prop where
  ripe : s.Ripe D (s.value id)
  free : 0 < (s.temp id).uses → s.Free D (s.value id)
  counted : 0 < (s.temp id).uses → s.Ripe (fun _ => True) (s.value id)

section

variable {s s' : Session} {e x : Expr} {D : TempId → Prop} {id : TempId}
  (h : ∀ id, (s.temp id).Grown (s'.temp id))

include h

lemma parts_of_grown (mem : x ∈ s'.parts e) : x ∈ s.parts e := by
  cases e with
  | temp id t =>
    simp only [parts] at mem ⊢
    split at mem
    · cases mem
    · rename_i plain
      rw [if_neg fun var => plain ((h id).isVariable var), ← (h id).value]
      exact mem
  | _ => exact mem

lemma Session.Inlines.of_grown (inlines : s'.Inlines e id) : s.Inlines e id := by
  induction inlines with
  | here plain => exact .here fun var => plain ((h _).isVariable var)
  | part mem _ ih => exact .part (parts_of_grown h mem) ih

lemma Session.Ripe.grown (ripe : s.Ripe D e) : s'.Ripe D e := fun j inlines hj =>
  lt_of_lt_of_le (ripe j (inlines.of_grown h) hj) (h j).uses

lemma Session.Free.grown (free : s.Free D e) : s'.Free D e := fun j inlines =>
  free j (inlines.of_grown h)

lemma Session.Lasting.grown (lasting : s.Lasting D) : s'.Lasting D := fun j hj => by
  have := mt (h j).trivial (by simp [lasting j hj])
  simpa using this

lemma Session.Settled.grown (settled : s.Settled D id)
    (used : 0 < (s'.temp id).uses → 0 < (s.temp id).uses) : s'.Settled D id := by
  have value : s'.value id = s.value id := (h id).value
  refine ⟨?_, fun pos => ?_, fun pos => ?_⟩ <;> rw [value]
  · exact settled.ripe.grown h
  · exact (settled.free (used pos)).grown h
  · exact (settled.counted (used pos)).grown h

end

/-- An expression made of words, with temporaries below a bound. -/
inductive Plain (n : Nat) : Expr → Prop where
  | literal {v t} : Plain n (.literal v t)
  | argument {place copied t} : Plain n (.argument place copied t)
  | symbol {name t} : Plain n (.symbol name t)
  | temp {id t} : id < n → Plain n (.temp id t)
  | forced {id t} : id < n → Plain n (.forced id t)
  | cast {e t reinterpret silent} :
    Plain n e →
    Plain n (.cast e t reinterpret silent)
  | binary {l r op t floating} :
    Plain n l →
    Plain n r →
    Plain n (.binary l op r t floating)
  | member {base offset size field t} :
    Plain n base →
    Plain n (.member base offset size field t)

lemma Plain.mono (h : Plain n e) (le : n ≤ n') : Plain n' e := by
  induction h with
  | literal => exact .literal
  | argument => exact .argument
  | symbol => exact .symbol
  | temp lt => exact .temp (lt_of_lt_of_le lt le)
  | forced lt => exact .forced (lt_of_lt_of_le lt le)
  | cast _ ih => exact .cast ih
  | binary _ _ ihl ihr => exact .binary ihl ihr
  | member _ ih => exact .member ih

def height : Expr → Nat
  | .forced _ _ => 2
  | .cast e _ _ _ => height e + 1
  | .binary l _ r _ _ => max (height l) (height r) + 1
  | .member base _ _ _ _ => height base + 1
  | _ => 1

lemma height_pos (e : Expr) : 0 < height e := by
  cases e <;> simp [height]

structure Session.Ordered (s : Session) : Prop where
  plain : ∀ id < s.temps.size, Plain id (s.value id)
  shallow : ∀ id < s.temps.size, height (s.value id) ≤ 7
  once : ∀ id < s.temps.size, (s.temp id).exactlyOnce = false

namespace Session.Ordered

variable {s : Session}

lemma value_plain (h : s.Ordered) (id : TempId) : Plain s.temps.size (s.value id) := by
  rcases lt_or_ge id s.temps.size with lt | ge
  · exact (h.plain id lt).mono (le_of_lt lt)
  · rw [value, temp, Array.getD_eq_getD_getElem?, Array.getElem?_eq_none ge]
    exact .literal

lemma exactlyOnce (h : s.Ordered) (id : TempId) : (s.temp id).exactlyOnce = false := by
  rcases lt_or_ge id s.temps.size with lt | ge
  · exact h.once id lt
  · rw [temp, Array.getD_eq_getD_getElem?, Array.getElem?_eq_none ge]
    rfl

lemma of_grown {s' : Session} (h : s.Ordered) (size : s'.temps.size = s.temps.size)
    (grown : ∀ id, (s.temp id).Grown (s'.temp id)) : s'.Ordered := by
  have value (id) : s'.value id = s.value id := (grown id).value
  refine ⟨fun id lt => ?_, fun id lt => ?_, fun id lt => ?_⟩
  · rw [value]
    exact h.plain id (size ▸ lt)
  · rw [value]
    exact h.shallow id (size ▸ lt)
  · exact (grown id).exactlyOnce.trans (h.once id (size ▸ lt))

end Session.Ordered

/-- A part is lower, or it is the value of a temporary and has a smaller bound. -/
lemma Plain.part {s : Session} (h : Plain n e) (ordered : s.Ordered) (bound : n ≤ s.temps.size)
    (mem : x ∈ s.parts e) : ∃ n' ≤ n, Plain n' x ∧ height x + 8 * n' < height e + 8 * n := by
  cases h with
  | literal | argument | symbol => cases mem
  | @temp id t lt =>
    rw [parts] at mem
    split at mem
    · cases mem
    · rw [mem_singleton.1 mem]
      have lt' := lt_of_lt_of_le lt bound
      have shallow := ordered.shallow id lt'
      rw [value] at shallow
      refine ⟨id, le_of_lt lt, ordered.plain id lt', ?_⟩
      omega
  | forced lt =>
    rw [mem_singleton.1 mem]
    exact ⟨n, le_refl n, .temp lt, by simp only [height]; omega⟩
  | cast plain | member plain =>
    rw [mem_singleton.1 mem]
    exact ⟨n, le_refl n, plain, by simp only [height]; omega⟩
  | binary pl pr =>
    rw [parts, mem_cons, mem_singleton] at mem
    rcases mem with rfl | rfl
    · exact ⟨n, le_refl n, pl, by simp only [height]; omega⟩
    · exact ⟨n, le_refl n, pr, by simp only [height]; omega⟩

/-- Two states between which uses have been counted: the temporaries have grown, and those that may
be set where they stand still may. -/
structure Session.Advances (s s' : Session) : Prop where
  size : s'.temps.size = s.temps.size
  temps : ∀ id, (s.temp id).Grown (s'.temp id)
  settled : ∀ D id, s.Lasting D → s.Settled D id → s'.Settled D id
  joins : s'.joins = s.joins
  usedJoins : s'.usedJoins = s.usedJoins
  work : s'.work = s.work
  frame : s'.frame = s.frame
  blocks : s'.blocks = s.blocks
  exits : s'.exits = s.exits
  bare : s.types.Bare → s'.types.Bare

namespace Session.Advances

variable {s s' : Session}

lemma trans (h : s.Advances s') (h' : s'.Advances s'') : s.Advances s'' where
  size := h'.size.trans h.size
  temps id := (h.temps id).trans (h'.temps id)
  settled D id lasting settled :=
    h'.settled D id (lasting.grown h.temps) (h.settled D id lasting settled)
  joins := h'.joins.trans h.joins
  usedJoins := h'.usedJoins.trans h.usedJoins
  work := h'.work.trans h.work
  frame := h'.frame.trans h.frame
  blocks := h'.blocks.trans h.blocks
  exits := h'.exits.trans h.exits
  bare := h'.bare ∘ h.bare

lemma ordered (h : s.Advances s') (ordered : s.Ordered) : s'.Ordered :=
  ordered.of_grown h.size h.temps

end Session.Advances

lemma Session.Kept.advances {s s' : Session} (h : s.Kept s') : s.Advances s' := by
  have temp (id) : s'.temp id = s.temp id := by rw [temp, temp, h.temps]
  have grown (id) : (s.temp id).Grown (s'.temp id) := temp id ▸ .refl
  exact { h with
    size := congrArg Array.size h.temps
    temps := grown
    settled := fun _ id _ settled => settled.grown grown (by rw [temp]; exact fun pos => pos) }

lemma Session.Advances.refl {s : Session} : s.Advances s :=
  Kept.refl.advances

structure Session.Used (s s' : Session) (es : List Expr) : Prop where
  advances : s.Advances s'
  counted : ∀ e ∈ es, s'.Ripe (fun _ => True) e
  free : ∀ D, s.Lasting D → (∀ e ∈ es, s.Ripe D e) → ∀ e ∈ es, s'.Free D e

section

variable {s s1 s' : Session} {e : Expr} {id : TempId} {t : TypeId}

lemma Session.Used.nil : s.Used s [] :=
  ⟨.refl, by simp, by simp⟩

lemma Session.Used.cons (h : s.Used s1 [e]) (h' : s1.Used s' es) : s.Used s' (e :: es) := by
  have grown := h'.advances.temps
  refine ⟨h.advances.trans h'.advances, fun x mem => ?_, fun D lasting ripe x mem => ?_⟩
  · rcases mem_cons.1 mem with rfl | mem
    · exact (h.counted x (.head _)).grown grown
    · exact h'.counted x mem
  · rcases mem_cons.1 mem with rfl | mem
    · refine (h.free D lasting (fun y mem => ?_) x (.head _)).grown grown
      rw [mem_singleton.1 mem]
      exact ripe x (.head _)
    · refine h'.free D (lasting.grown h.advances.temps) (fun y mem => ?_) x mem
      exact (ripe y (.tail _ mem)).grown h.advances.temps

lemma Session.Used.after (h : s.Advances s1) (h' : s1.Used s' es) : s.Used s' es :=
  ⟨h.trans h'.advances, h'.counted, fun D lasting ripe =>
    h'.free D (lasting.grown h.temps) fun e mem => (ripe e mem).grown h.temps⟩

lemma Session.Used.single (advances : s.Advances s') (counted : s'.Ripe (fun _ => True) e)
    (free : ∀ D, s.Lasting D → s.Ripe D e → s'.Free D e) : s.Used s' [e] :=
  ⟨advances, by simpa using counted, by simpa using free⟩

lemma Session.Used.of_parts (parts : ∀ s : Session, s.parts e = es) (other : ∀ id t, e ≠ .temp id t)
    (h : s.Used s' es) : s.Used s' [e] := by
  have split {s : Session} {j : TempId} (inlines : s.Inlines e j) : ∃ x ∈ es, s.Inlines x j := by
    cases inlines with
    | here => exact (other _ _ rfl).elim
    | part mem inlines => exact ⟨_, parts s ▸ mem, inlines⟩
  refine .single h.advances (fun j inlines => ?_) fun D lasting ripe j inlines => ?_
  all_goals obtain ⟨y, mem, inlines⟩ := split inlines
  · exact h.counted y mem j inlines
  · refine h.free D lasting (fun z mem j inlines => ?_) y mem j inlines
    exact ripe j (.part (by rwa [parts]) inlines)

lemma Session.not_inlines_of_isVariable (h : (s.temp id).isVariable) (j : TempId) :
    ¬ s.Inlines (.temp id t) j := by
  intro inlines
  cases inlines with
  | here plain => exact plain h
  | part mem _ =>
    rw [parts, if_pos h] at mem
    cases mem

lemma Session.inlines_temp (h : s.Inlines (.temp id t) j) :
    ¬ (s.temp id).isVariable ∧ (j = id ∨ s.Inlines (s.value id) j) := by
  have plain : ¬ (s.temp id).isVariable := fun var => not_inlines_of_isVariable var j h
  refine ⟨plain, ?_⟩
  cases h with
  | here => exact .inl rfl
  | part mem inlines =>
    rw [parts, if_neg plain, mem_singleton] at mem
    exact .inr (by rwa [mem] at inlines)

lemma Session.Used.of_none (h : s.Advances s') (none : ∀ j, ¬ s'.Inlines e j) : s.Used s' [e] :=
  .single h (fun j inlines => (none j inlines).elim) fun _ _ _ j inlines => (none j inlines).elim

lemma Session.Inlines.value (plain : ¬ (s.temp id).isVariable) (h : s.Inlines (s.value id) j) :
    s.Inlines (.temp id t) j :=
  .part (by rw [parts, if_neg plain]; exact .head _) h

end

section

variable {s : Session} {id : TempId} {f : Temp → Temp}

lemma temp_modify_self (lt : id < s.temps.size) :
    { s with temps := s.temps.modify id f }.temp id = f (s.temp id) := by
  simp [temp, Array.getD_eq_getD_getElem?, lt, Array.getElem_modify]

lemma temp_modify_of_ne (ne : k ≠ id) :
    { s with temps := s.temps.modify id f }.temp k = s.temp k := by
  simp [temp, Array.getD_eq_getD_getElem?, Array.getElem?_modify, ne.symm]

lemma grown_modify (lt : id < s.temps.size) (grown : (s.temp id).Grown (f (s.temp id)))
    (k : TempId) :
    (s.temp k).Grown ({ s with temps := s.temps.modify id f }.temp k) := by
  by_cases h : k = id
  · rw [h, temp_modify_self lt]
    exact grown
  · rw [temp_modify_of_ne h]
    exact .refl

end

section

variable {s : Session} {id : TempId} {t : TypeId} {depth : Nat}

def Session.noteUse (s : Session) (id : TempId) : Session :=
  { s with temps := s.temps.modify id fun t => { t with uses := t.uses + 1 } }

section

variable (lt : id < s.temps.size)

include lt

lemma Session.grown_noteUse (k : TempId) : (s.temp k).Grown ((s.noteUse id).temp k) :=
  grown_modify lt ⟨rfl, rfl, Nat.le_succ _, fun h => h⟩ k

lemma Session.uses_noteUse : ((s.noteUse id).temp id).uses = (s.temp id).uses + 1 := by
  rw [noteUse, temp_modify_self lt]

/-- The first use of a temporary also uses its value. -/
lemma Session.Used.temp (h : (s.noteUse id).Used s' [s.value id])
    (first : (s.temp id).trivial = false → (s.temp id).uses = 0) : s.Used s' [.temp id t] := by
  have before := grown_noteUse lt
  have after := h.advances.temps
  have grown (k) := (before k).trans (after k)
  have uses : 0 < (s'.temp id).uses := by
    have := (after id).uses
    rw [uses_noteUse lt] at this
    exact lt_of_lt_of_le (Nat.succ_pos _) this
  have value : s'.value id = s.value id := (grown id).value
  -- The value is ripe where it stood, so that it is free now.
  have free {D : TempId → Prop} (lasting : s.Lasting D) (ripe : s.Ripe D (s.value id)) :
      s'.Free D (s.value id) := by
    refine h.free D (lasting.grown before) (fun x mem => ?_) _ (.head _)
    rw [mem_singleton.1 mem]
    exact ripe.grown before
  refine .single { h.advances with
    size := ?_, temps := grown, settled := fun D k lasting settled => ?_ } ?_ ?_
  · simpa [noteUse] using h.advances.size
  · by_cases same : k = id
    · rw [same] at settled ⊢
      refine ⟨?_, fun _ => ?_, fun _ => ?_⟩ <;> rw [value]
      · exact settled.ripe.grown grown
      · exact free lasting settled.ripe
      · exact h.counted _ (.head _)
    · refine h.advances.settled D k (lasting.grown before) (settled.grown before fun pos => ?_)
      rwa [noteUse, temp_modify_of_ne same] at pos
  · intro j inlines _
    rcases (inlines_temp inlines).2 with rfl | inlines
    · exact uses
    · rw [value] at inlines
      exact h.counted _ (.head _) j inlines trivial
  · intro D lasting ripe j inlines hj
    obtain ⟨plain, inlines⟩ := inlines_temp inlines
    have plain : ¬ (s.temp id).isVariable := fun var => plain ((grown id).isVariable var)
    rcases inlines with rfl | inlines
    · have := ripe j (.here plain) hj
      rw [first (lasting j hj)] at this
      exact lt_irrefl 0 this
    · rw [value] at inlines
      exact free lasting (fun k inlines hk => ripe k (inlines.value plain) hk) j inlines hj

lemma Session.Used.again (plain : (s.temp id).trivial = false)
    (pos : 0 < (s.temp id).uses) : s.Used (s.noteUse id) [.temp id t] := by
  have grown := grown_noteUse lt
  have var : ((s.noteUse id).temp id).isVariable := by
    rw [noteUse, temp_modify_self lt]
    simpa [Temp.isVariable, plain] using pos
  refine .of_none ⟨?_, grown, fun D k lasting settled => ?_, rfl, rfl, rfl, rfl, rfl, rfl,
    fun h => h⟩ (not_inlines_of_isVariable var)
  · simp [noteUse]
  · refine settled.grown grown fun h => ?_
    by_cases same : k = id
    · rwa [same]
    · rwa [noteUse, temp_modify_of_ne same] at h

end

lemma Session.Ordered.noteUse (h : s.Ordered) (lt : id < s.temps.size) : (s.noteUse id).Ordered :=
  h.of_grown (by simp [Session.noteUse]) (grown_noteUse lt)

lemma useTemp_noteUse (h : id < s.temps.size →
      ((s.temp id).trivial ∨ (s.temp id).uses = 0 ∧ (s.temp id).exactlyOnce = false →
        Ensures (s.noteUse id) (useValue (s.value id)) Q) ∧
      ((s.temp id).trivial = false → 0 < (s.temp id).uses ∨ (s.temp id).exactlyOnce →
        Q () (s.noteUse id))) : Ensures s (useTemp useValue id) Q := by
  refine .get (.bind_expect fun lt => .bind_modify (?_ : Ensures (s.noteUse id) _ _))
  have lt := of_decide_eq_true lt
  obtain ⟨deep, done⟩ := h lt
  have self : (s.noteUse id).temp id = { s.temp id with uses := (s.temp id).uses + 1 } :=
    temp_modify_self lt
  refine .get ?_
  rw [self]
  refine .ite (fun c => deep (by simpa using c)) fun c => .pure ?_
  simp only [Bool.or_eq_true, not_or, Bool.not_eq_true] at c
  refine done c.1 ?_
  simpa [or_iff_not_imp_left] using c.2

lemma useTemp_used (deep : ∀ (s : Session) (e : Expr), s.Ordered → Plain s.temps.size e →
      Ensures s (useFrom depth e) fun _ s' => s.Used s' [e])
    (ordered : s.Ordered) :
    Ensures s (useTemp (useFrom depth) id) fun _ s' =>
      s.Used s' [.temp id t] ∧ (s.temp id).uses < (s'.temp id).uses := by
  refine useTemp_noteUse fun lt => ⟨fun c => ?_, fun plain pos => ⟨.again lt plain ?_, ?_⟩⟩
  · have plain : Plain (s.noteUse id).temps.size (s.value id) := by
      simpa [noteUse] using ordered.value_plain id
    refine (deep _ _ (ordered.noteUse lt) plain).imp fun _ s' used => ⟨used.temp lt ?_, ?_⟩
    · exact fun lasting => (c.resolve_left (by simp [lasting])).1
    · exact lt_of_lt_of_le (by simp [uses_noteUse lt]) (used.advances.temps id).uses
  · exact pos.resolve_right (by simp [ordered.exactlyOnce id])
  · simp [uses_noteUse lt]

lemma useForced_used (temp : ∀ {s : Session}, s.Ordered →
      Ensures s (useTemp (useFrom depth) id) fun _ s' =>
        s.Used s' [.temp id t] ∧ (s.temp id).uses < (s'.temp id).uses)
    (ordered : s.Ordered) (lt : id < s.temps.size) :
    Ensures s (do
      modifyTemp id fun t => { t with trivial := false, forced := true }
      useTemp (useFrom depth) id
      useTemp (useFrom depth) id) fun _ s' => s.Used s' [.forced id t] := by
  let f (t : Temp) : Temp := { t with trivial := false, forced := true }
  let s1 : Session := { s with temps := s.temps.modify id f }
  have self : s1.temp id = f (s.temp id) := temp_modify_self lt
  have grown := grown_modify (f := f) lt ⟨rfl, rfl, le_refl _, by simp [f]⟩
  have size : s1.temps.size = s.temps.size := by simp [s1]
  have advances : s.Advances s1 := by
    refine ⟨size, grown, fun D k _ settled => settled.grown grown fun pos => ?_, rfl, rfl, rfl,
      rfl, rfl, rfl, fun h => h⟩
    by_cases same : k = id
    · rw [same, self] at pos
      rwa [same]
    · rwa [temp_modify_of_ne same] at pos
  refine .bind_modify ?_
  have ordered1 := advances.ordered ordered
  refine (temp ordered1).bind fun _ s2 ⟨used1, more1⟩ => ?_
  refine (temp (used1.advances.ordered ordered1)).imp fun _ s' ⟨used2, more2⟩ => ?_
  -- Two uses of what is not trivial make it a variable.
  have trivial : (s'.temp id).trivial = false := by
    have := mt (used1.advances.trans used2.advances |>.temps id).trivial (by simp [self, f])
    simpa using this
  have var : (s'.temp id).isVariable := by
    simp only [Temp.isVariable, trivial, Bool.not_false, Bool.and_true, decide_eq_true_eq]
    omega
  refine .of_none ((advances.trans used1.advances).trans used2.advances) fun j inlines => ?_
  cases inlines with
  | part mem inlines =>
    rw [parts, mem_singleton] at mem
    rw [mem] at inlines
    exact not_inlines_of_isVariable var j inlines

/-- Using an expression counts all that it is written with. -/
lemma useFrom_used (ordered : s.Ordered) (plain : Plain s.temps.size e) :
    Ensures s (useFrom depth e) fun _ s' => s.Used s' [e] := by
  induction depth generalizing s e with
  | zero =>
    exact .throw _
  | succ depth ih =>
    have all (es : List Expr) (s : Session) (ordered : s.Ordered)
        (plain : ∀ e ∈ es, Plain s.temps.size e) :
        Ensures s (es.forM (useFrom depth)) fun _ s' => s.Used s' es := by
      induction es generalizing s with
      | nil => exact .pure .nil
      | cons e es more =>
        refine (ih ordered (plain e (.head _))).bind fun _ s1 used => ?_
        refine (more s1 (used.advances.ordered ordered) fun x mem => ?_).imp fun _ _ => used.cons
        rw [used.advances.size]
        exact plain x (.tail _ mem)
    have temp {s} {id} {t} (ordered : s.Ordered) :
        Ensures s (useTemp (useFrom depth) id) fun _ s' =>
          s.Used s' [.temp id t] ∧ (s.temp id).uses < (s'.temp id).uses :=
      useTemp_used (fun _ _ ordered plain => ih ordered plain) ordered
    cases plain with
    | literal | argument | symbol =>
      exact (all [] s ordered (by simp)).imp fun _ _ => .of_parts (fun _ => rfl) (by simp)
    | temp => exact (temp ordered).imp fun _ _ h => h.1
    | forced lt => exact useForced_used temp ordered lt
    | cast plain =>
      refine Ensures.bind (tryUnify_keeps _ _) fun _ s1 ⟨kept, _⟩ => ?_
      have advances := kept.advances
      refine (ih (advances.ordered ordered) (advances.size ▸ plain)).imp fun _ s' used => ?_
      exact .of_parts (fun _ => rfl) (by simp) (used.after advances)
    | binary l r =>
      refine (all _ s ordered ?_).imp fun _ _ => .of_parts (fun _ => rfl) (by simp)
      simp [l, r]
    | member base =>
      refine (all _ s ordered ?_).imp fun _ _ => .of_parts (fun _ => rfl) (by simp)
      simp [base]

/-- After it is used, what an expression is written with has been counted. -/
lemma use_used (ordered : s.Ordered) (plain : Plain s.temps.size e) :
    Ensures s (use e) fun _ s' => s.Used s' [e] :=
  .get (useFrom_used ordered plain)

end

section

variable {s : Session} {e : Expr}

lemma mentionsFrom_part (mem : x ∈ s.parts e) (h : s.mentionsFrom p depth x) :
    s.mentionsFrom p (depth + 1) e := by
  rw [mentionsFrom, Bool.or_eq_true]
  exact .inr (any_eq_true.2 ⟨x, mem, h⟩)

lemma mentionsFrom_load (load : e.load? = some l) (h : p l) (deep : height e ≤ depth) :
    s.mentionsFrom p depth e := by
  induction depth generalizing e with
  | zero =>
    unfold Expr.load? at load
    split at load
    · simp [height] at deep
    · simp [height] at deep
    · cases load
  | succ depth ih =>
    unfold Expr.load? at load
    split at load
    · cases load
      rw [mentionsFrom, h, Bool.true_or]
    · exact mentionsFrom_part (.head _) (ih load (Nat.le_of_succ_le_succ deep))
    · cases load

lemma mentionsFrom_of_inlines (ordered : s.Ordered) (inlines : s.Inlines e j) (plain : Plain n e)
    (bound : n ≤ s.temps.size) (load : (s.value j).load? = some l) (h : p l)
    (deep : height e + 8 * n ≤ depth) : s.mentionsFrom p depth e := by
  -- The depth that is left covers one value of each temporary below the bound.
  induction inlines generalizing n depth with
  | @here id t var =>
    cases plain with
    | temp lt =>
      obtain ⟨d, rfl⟩ : ∃ d, depth = d + 1 := ⟨depth - 1, by omega⟩
      refine mentionsFrom_part (by rw [parts, if_neg var]; exact .head _) ?_
      refine mentionsFrom_load load h ?_
      have shallow := ordered.shallow id (lt_of_lt_of_le lt bound)
      rw [value] at shallow
      omega
  | part mem _ ih =>
    obtain ⟨n', le, plain', less⟩ := plain.part ordered bound mem
    obtain ⟨d, rfl⟩ : ∃ d, depth = d + 1 := ⟨depth - 1, by omega⟩
    exact mentionsFrom_part mem (ih plain' (le_trans le bound) load (by omega))

lemma mentions_of_inlines (ordered : s.Ordered) (inlines : s.Inlines e j)
    (plain : Plain s.temps.size e) (flat : height e ≤ 7) (load : (s.value j).load? = some l) (h : p l) :
    s.mentions p e := by
  refine mentionsFrom_of_inlines ordered inlines plain (le_refl _) load h ?_
  rw [reach]
  omega

end

end Decompiler.Eval
