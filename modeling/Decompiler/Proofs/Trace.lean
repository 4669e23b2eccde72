import Decompiler.Proofs.Values

/-!
# The statements of a block and what they compute

A block is recorded statement by statement, together with the values of its temporaries and the
memory behind each statement. Statements are written in the end with the temporaries in place that
are no variables, so their loads happen later than recorded.
-/

namespace Decompiler.Eval

open Asm Code List Session Expr

def Session.Overwritten (s : Session) : List Stmt → TempId → Prop
  | [], _ => False
  | .store _ dest :: past, j =>
    s.Overwritten past j ∨ .setTemp j ∈ past ∧ ∃ l, (s.value j).load? = some l ∧ l.same dest
  | _ :: past, j => s.Overwritten past j

/-- Statements, the last one first, with the values of the temporaries and the memory behind them.
No overwritten temporary is written in place in a statement, or in the value of a temporary that
is used. -/
inductive Trace (start : Register → Word) (m0 : Memory) (s : Session) :
    List Stmt → List Word → Memory → Prop where
  | nil :
    Trace start m0 s [] [] m0
  | set {past vals m v} :
    Trace start m0 s past vals m →
    Gives start vals m (s.value vals.length) v →
    s.Settled (s.Overwritten past) vals.length →
    Trace start m0 s (.setTemp vals.length :: past) (vals ++ [v]) m
  | run {past vals m e v} :
    Trace start m0 s past vals m →
    Means start vals e v →
    s.Free (s.Overwritten past) e →
    height e ≤ 7 →
    Trace start m0 s (.run e :: past) vals m
  | store {past vals m e v base offset field t a} :
    Trace start m0 s past vals m →
    Means start vals e v →
    Means start vals base a →
    s.Free (s.Overwritten past) e →
    s.Free (s.Overwritten past) base →
    height e ≤ 7 →
    height base ≤ 7 →
    Trace start m0 s (.store e (.member base offset (some 4) field t) :: past) vals
      (m.write (a + .ofInt 32 offset) v)

section

variable {s s' : Session}

lemma Session.Overwritten.mem (h : s.Overwritten past j) : .setTemp j ∈ past := by
  fun_induction Overwritten s past j with
  | case1 => exact h.elim
  | case2 e dest past j ih =>
    rcases h with h | ⟨mem, -⟩
    · exact mem_cons_of_mem _ (ih h)
    · exact mem_cons_of_mem _ mem
  | case3 stmt past j _ ih => exact mem_cons_of_mem _ (ih h)

lemma Session.Overwritten.load (h : s.Overwritten past j) : ∃ l, (s.value j).load? = some l := by
  fun_induction Overwritten s past j with
  | case1 => exact h.elim
  | case2 e dest past j ih =>
    rcases h with h | ⟨-, l, load, -⟩
    · exact ih h
    · exact ⟨l, load⟩
  | case3 stmt past j _ ih => exact ih h

lemma Session.overwritten_congr (same : ∀ j, .setTemp j ∈ past → s'.value j = s.value j) :
    s'.Overwritten past j ↔ s.Overwritten past j := by
  fun_induction Overwritten s past j with
  | case1 => exact Iff.rfl
  | case2 e dest past j ih =>
    have before (i) (mem : .setTemp i ∈ past) : s'.value i = s.value i :=
      same i (mem_cons_of_mem _ mem)
    rw [Overwritten, ih before]
    refine or_congr_right (and_congr_right fun mem => ?_)
    rw [before j mem]
  | case3 stmt past j other ih =>
    have before (i) (mem : .setTemp i ∈ past) : s'.value i = s.value i :=
      same i (mem_cons_of_mem _ mem)
    rw [← ih before]
    cases stmt with
    | store e dest => exact (other e dest rfl).elim
    | _ => exact Iff.rfl

end

def Session.TrivialPure (s : Session) : Prop :=
  ∀ id, (s.temp id).trivial → (s.value id).load? = none

/-- Steps between two states have added temporaries and counted uses. -/
structure Session.Evolves (s s' : Session) : Prop where
  size : s.temps.size ≤ s'.temps.size
  value : ∀ {id}, id < s.temps.size → s'.value id = s.value id
  free : ∀ {D : TempId → Prop} {e}, Plain s.temps.size e → s.Free D e → s'.Free D e
  ripe : ∀ {D : TempId → Prop} {e}, Plain s.temps.size e → s.Ripe D e → s'.Ripe D e
  settled : ∀ {D : TempId → Prop} {id}, (∀ j, D j → j < s.temps.size) → s.Lasting D →
    id < s.temps.size → s.Settled D id → s'.Settled D id

section

variable {s s' : Session} {vals : List Word}

lemma Session.Advances.evolves (h : s.Advances s') : s.Evolves s' where
  size := le_of_eq h.size.symm
  value _ := (h.temps _).value
  free _ free := free.grown h.temps
  ripe _ ripe := ripe.grown h.temps
  settled _ lasting _ settled := h.settled _ _ lasting settled

lemma Session.Inlines.of_agree (ordered : s.Ordered)
    (agree : ∀ id < s.temps.size, s'.temp id = s.temp id) (plain : Plain s.temps.size e)
    (h : s'.Inlines e j) : j < s.temps.size ∧ s.Inlines e j := by
  induction h with
  | @here id t var =>
    cases plain with
    | temp lt => exact ⟨lt, .here (agree id lt ▸ var)⟩
  | @part e x j mem _ ih =>
    have parts : s'.parts e = s.parts e := by
      cases plain with
      | temp lt => rw [parts, parts, agree _ lt]
      | _ => rfl
    rw [parts] at mem
    obtain ⟨n, le, plain, -⟩ := plain.part ordered (le_refl _) mem
    exact (ih (plain.mono le)).imp_right (.part mem)

lemma Session.Evolves.of_agree (ordered : s.Ordered) (size : s.temps.size ≤ s'.temps.size)
    (agree : ∀ id < s.temps.size, s'.temp id = s.temp id) : s.Evolves s' := by
  have value {id} (lt : id < s.temps.size) : s'.value id = s.value id := by
    rw [Session.value, agree id lt, Session.value]
  have inlines {e} {j} (plain : Plain s.temps.size e) (h : s'.Inlines e j) :=
    h.of_agree ordered agree plain
  have free {D : TempId → Prop} {e} (plain : Plain s.temps.size e) (free : s.Free D e) :
      s'.Free D e := fun j h => free j (inlines plain h).2
  have ripe {D : TempId → Prop} {e} (plain : Plain s.temps.size e) (ripe : s.Ripe D e) :
      s'.Ripe D e := by
    intro j h hj
    obtain ⟨lt, h⟩ := inlines plain h
    rw [agree j lt]
    exact ripe j h hj
  refine ⟨size, value, free, ripe, fun {D id} _ _ lt settled => ?_⟩
  have plain := ordered.value_plain id
  refine ⟨?_, fun pos => ?_, fun pos => ?_⟩
  · rw [value lt]
    exact ripe plain settled.ripe
  · rw [agree id lt] at pos
    rw [value lt]
    exact free plain (settled.free pos)
  · rw [agree id lt] at pos
    rw [value lt]
    exact ripe plain (settled.counted pos)

lemma Trace.mem_iff (h : Trace start m0 s past vals m) : .setTemp j ∈ past ↔ j < vals.length := by
  induction h with
  | nil => simp
  | set _ _ _ ih =>
    rw [mem_cons, ih, length_append, Stmt.setTemp.injEq]
    exact or_comm.trans Nat.lt_succ_iff_lt_or_eq.symm
  | run _ _ _ _ ih | store _ _ _ _ _ _ _ ih => simpa using ih

lemma Session.lasting_overwritten (pure : s.TrivialPure) : s.Lasting (s.Overwritten past) := by
  intro j h
  obtain ⟨l, load⟩ := h.load
  cases trivial : (s.temp j).trivial with
  | false => rfl
  | true =>
    rw [pure j trivial] at load
    cases load

lemma Session.Settled.imp {id} (h : s.Settled D id) (sub : ∀ j, D' j → D j) : s.Settled D' id :=
  ⟨fun j inlines hj => h.ripe j inlines (sub j hj),
    fun pos j inlines hj => h.free pos j inlines (sub j hj), h.counted⟩

lemma Session.Free.imp (h : s.Free D e) (sub : ∀ j, D' j → D j) : s.Free D' e :=
  fun j inlines hj => h j inlines (sub j hj)

/-- What is recorded stays true while temporaries come into use. -/
lemma Trace.evolves (h : Trace start m0 s past vals m) (evolves : s.Evolves s')
    (pure : s.TrivialPure) (length : vals.length ≤ s.temps.size) :
    Trace start m0 s' past vals m := by
  have bound {past} {vals} {m} (trace : Trace start m0 s past vals m)
      (length : vals.length ≤ s.temps.size) {j} (mem : .setTemp j ∈ past) :
      j < s.temps.size :=
    lt_of_lt_of_le (trace.mem_iff.1 mem) length
  have overwritten {past} {vals} {m}
      (trace : Trace start m0 s past vals m) (length : vals.length ≤ s.temps.size) {j}
      (h : s'.Overwritten past j) : s.Overwritten past j :=
    (s.overwritten_congr fun i mem => evolves.value (bound trace length mem)).1 h
  induction h with
  | nil => exact .nil
  | @set past vals m v trace gives settled ih =>
    rw [length_append, length_singleton] at length
    have le : vals.length ≤ s.temps.size := by omega
    refine .set (ih le) ?_ ?_
    · rwa [evolves.value (by omega)]
    · refine Settled.imp ?_ fun j => overwritten trace le
      exact evolves.settled (fun j h => bound trace le h.mem) (s.lasting_overwritten pure)
        (by omega) settled
  | run trace means free flat ih =>
    have plain := means.plain.mono length
    exact .run (ih length) means ((evolves.free plain free).imp fun j => overwritten trace length) flat
  | store trace means address free free' flat flat' ih =>
    have plain := means.plain.mono length
    have plain' := address.plain.mono length
    exact .store (ih length) means address
      ((evolves.free plain free).imp fun j => overwritten trace length)
      ((evolves.free plain' free').imp fun j => overwritten trace length) flat flat'

end

section

variable {s : Session} {m : Memory} {past : List Stmt} {vals : List Word} {e : Expr}

lemma Gives.word? (h : Gives start vals m e v) : e.word? start (vals[·]?) m = some v := by
  induction h with
  | pure means => exact means.word?
  | load means =>
    rw [Expr.word?, means.word?]
    rfl
  | cast _ ih => exact ih

lemma getElem?_set (vals : List Word) (v : Word) (k : Nat) :
    (if k = vals.length then some v else vals[k]?) = (vals ++ [v])[k]? := by
  split
  case isTrue same => rw [same, getElem?_concat_length]
  case isFalse other =>
    rcases lt_or_ge k vals.length with lt | ge
    · rw [getElem?_append_left lt]
    · rw [getElem?_eq_none ge, getElem?_eq_none]
      rw [length_append]
      exact lt_of_le_of_ne ge (symm other)

lemma Gives.again (h : Gives start vals m e v)
    (same : ∀ base offset field t a, e.load? = some (.member base offset (some 4) field t) →
      Means start vals base a →
      m'.read (a + .ofInt 32 offset) = m.read (a + .ofInt 32 offset)) :
    Gives start vals m' e v := by
  induction h with
  | pure means => exact .pure means
  | load means =>
    rw [← same _ _ _ _ _ rfl means]
    exact .load means
  | cast _ ih => exact .cast (ih same)

def Session.Lists (s : Session) (start : Register → Word) (vals : List Word)
    (loads : List (Expr × Word)) : Prop :=
  ∀ j base offset field t a, j < vals.length →
    (s.value j).load? = some (.member base offset (some 4) field t) →
    Means start (vals.take j) base a →
    (.member base offset (some 4) field t, a + .ofInt 32 offset) ∈ loads

lemma Trace.known (trace : Trace start m0 s past vals m)
    (h : s.aliasesKnown start [] ⟨fun _ => none, m0⟩ (past.reverse ++ rest)) :
    ∃ loads, s.aliasesKnown start loads ⟨(vals[·]?), m⟩ rest ∧ s.Lists start vals loads := by
  induction trace generalizing rest with
  | nil => exact ⟨[], h, fun _ _ _ _ _ _ lt => nomatch lt⟩
  | @set past vals m v _ gives _ ih =>
    rw [reverse_cons, append_assoc, singleton_append] at h
    obtain ⟨loads, h, lists⟩ := ih h
    have value : (id (s.value vals.length)).word? start (vals[·]?) m = some v := gives.word?
    have temps : (fun k => if k = vals.length then some v else vals[k]?) = ((vals ++ [v])[·]?) :=
      funext (getElem?_set vals v)
    simp only [aliasesKnown, namesLoads, Stmt.exec, value, Option.bind_eq_bind,
      Option.bind_some, temps] at h
    refine ⟨_, h, fun j base offset field t a lt load means => mem_append.2 ?_⟩
    rw [length_append] at lt
    rcases Nat.lt_succ_iff_lt_or_eq.1 lt with lt | rfl
    · rw [take_append_of_le_length (le_of_lt lt)] at means
      exact .inr (lists j base offset field t a lt load means)
    · rw [take_left' rfl] at means
      refine .inl ?_
      have address : (member base offset (some 4) field t).address? start (vals[·]?) m =
          some (a + .ofInt 32 offset) := by
        rw [address?, means.word?]
        rfl
      simp [loadAt?, load, address]
  | run _ means _ _ ih =>
    rw [reverse_cons, append_assoc, singleton_append] at h
    obtain ⟨loads, h, lists⟩ := ih h
    simp only [aliasesKnown, namesLoads, Stmt.exec, id, means.word?,
      Option.bind_eq_bind, Option.bind_some, loadAt?,
      Option.toList_none, nil_append] at h
    exact ⟨loads, h, lists⟩
  | @store past vals m e v base offset field t a _ means address _ _ _ _ ih =>
    rw [reverse_cons, append_assoc, singleton_append] at h
    obtain ⟨loads, h, lists⟩ := ih h
    simp only [aliasesKnown, Stmt.exec, id, means.word?, address?, address.word?,
      Option.bind_eq_bind, Option.bind_some, Bool.and_eq_true, loadAt?,
      Option.toList_none, nil_append] at h
    exact ⟨loads, h.2, lists⟩

/-- A load that nothing has overwritten can be done again. -/
lemma Trace.gives_now (trace : Trace start m0 s past vals m)
    (known : s.aliasesKnown start [] ⟨fun _ => none, m0⟩ (past.reverse ++ rest))
    (found : vals[j]? = some v) (kept : ¬ s.Overwritten past j) :
    Gives start (vals.take j) m (s.value j) v := by
  induction trace generalizing rest j v with
  | nil => cases found
  | @set past vals m w _ gives _ ih =>
    rw [reverse_cons, append_assoc] at known
    have lt := (List.getElem?_eq_some_iff.1 found).1
    rw [length_append] at lt
    rcases Nat.lt_succ_iff_lt_or_eq.1 lt with lt | rfl
    · rw [getElem?_append_left lt] at found
      rw [take_append_of_le_length (le_of_lt lt)]
      exact ih known found kept
    · rw [getElem?_concat_length] at found
      cases found
      rwa [take_left' rfl]
  | run _ _ _ _ ih =>
    rw [reverse_cons, append_assoc] at known
    exact ih known found kept
  | @store past vals m e w base offset field t a trace means address _ _ _ _ ih =>
    rw [reverse_cons, append_assoc] at known
    have before := ih known found fun h => kept (.inl h)
    refine before.again fun base' offset' field' t' a' load means' => ?_
    refine Memory.read_write_of_apart ?_
    obtain ⟨loads, known, lists⟩ := trace.known known
    have lt := (List.getElem?_eq_some_iff.1 found).1
    have named := lists j base' offset' field' t' a' lt load means'
    rw [singleton_append, aliasesKnown, Bool.and_eq_true, namesLoads,
      address?, address.word?] at known
    have all := all_eq_true.1 known.1 _ named
    rcases Bool.or_eq_true_iff.1 all with apart | same
    · simpa using apart
    · exact absurd (.inr ⟨trace.mem_iff.2 lt, _, load, same⟩) kept

/-- Writing values in place of temporaries keeps the word. -/
lemma inPlaceFrom_word (ordered : s.Ordered) {D : TempId → Prop} {temps}
    (now : ∀ {j v}, vals[j]? = some v → ¬ D j → Gives start (vals.take j) m (s.value j) v)
    (vars : ∀ {j v}, vals[j]? = some v → (s.temp j).isVariable → temps j = some v)
    (gives : Gives start vals m e v) (free : s.Free D e) (bound : vals.length ≤ s.temps.size) {depth}
    (deep : height e + 8 * vals.length ≤ depth) :
    (s.inPlaceFrom depth e).word? start temps m = some v := by
  -- The depth that is left covers one value of each temporary.
  induction depth generalizing vals e v with
  | zero =>
    have := height_pos e
    omega
  | succ depth ih =>
    have part {x} {w} (mem : x ∈ s.parts e) (lt : height x < height e)
        (gives : Gives start vals m x w) : (s.inPlaceFrom depth x).word? start temps m = some w :=
      ih now vars gives (fun j inlines => free j (.part mem inlines)) bound (by omega)
    cases gives with
    | pure means =>
      cases means with
      | literal => rfl
      | @argument place _ _ _ found =>
        show (argumentRegister? place).map start = _
        rw [found, Option.map_some]
      | @symbol name _ _ found =>
        show (symbolRegister? name).map start = _
        rw [found, Option.map_some]
      | @temp id t v found =>
        have lt := (List.getElem?_eq_some_iff.1 found).1
        rw [inPlaceFrom]
        split
        case isTrue var => exact vars found var
        case isFalse plain =>
          have shallow := ordered.shallow id (by omega)
          have length : (vals.take id).length = id := length_take_of_le (le_of_lt lt)
          refine ih (fun {j w} found kept => ?_) (fun {j w} found => ?_)
            (now found (free id (.here plain))) (fun j inlines => free j (inlines.value plain)) ?_ ?_
          · have lt' := (List.getElem?_eq_some_iff.1 found).1
            rw [length] at lt'
            rw [getElem?_take_of_lt lt'] at found
            rw [take_take, min_eq_left (le_of_lt lt')]
            exact now found kept
          · have lt' := (List.getElem?_eq_some_iff.1 found).1
            rw [length] at lt'
            rw [getElem?_take_of_lt lt'] at found
            exact vars found
          · omega
          · omega
      | cast means =>
        exact part (.head _) (by simp only [height]; omega) (.pure means)
      | binary op _ hl hr =>
        rw [inPlaceFrom, word?, op, part (.head _) (by simp only [height]; omega) (.pure hl),
          part (.tail _ (.head _)) (by simp only [height]; omega) (.pure hr)]
        rfl
    | load means =>
      rw [inPlaceFrom, word?,
        part (.head _) (by simp only [height]; omega) (.pure means)]
      rfl
    | cast gives =>
      exact part (.head _) (by simp only [height]; omega) gives

lemma Trace.inPlaceFrom_word (trace : Trace start m0 s past vals m) (ordered : s.Ordered)
    (length : vals.length ≤ s.temps.size)
    (known : s.aliasesKnown start [] ⟨fun _ => none, m0⟩ (past.reverse ++ rest)) {temps}
    (vars : ∀ {j v}, vals[j]? = some v → (s.temp j).isVariable → temps j = some v)
    (gives : Gives start vals m e v) (free : s.Free (s.Overwritten past) e) (flat : height e ≤ 7)
    {depth} (deep : s.reach ≤ depth + 1) : (s.inPlaceFrom depth e).word? start temps m = some v := by
  refine Eval.inPlaceFrom_word ordered (trace.gives_now known) vars
    gives free length ?_
  rw [reach] at deep
  omega

def Session.writes (s : Session) : Stmt → Bool
  | .setTemp id => (s.temp id).isVariable
  | _ => true

lemma execWritten_concat (h : s.execWritten start (stmts.filter s.writes) σ0 = some σ)
    (written : s.writes stmt) :
    s.execWritten start ((stmts ++ [stmt]).filter s.writes) σ0 =
      stmt.exec start s.value s.inPlace σ := by
  rw [filter_append, filter_cons_of_pos written, execWritten,
    foldlM_append]
  change (s.execWritten start (stmts.filter s.writes) σ0).bind _ = _
  rw [h]
  exact bind_pure _

/-- The written statements end with the recorded memory. -/
lemma Trace.execWritten (trace : Trace start m0 s past vals m) (ordered : s.Ordered)
    (length : vals.length ≤ s.temps.size)
    (known : s.aliasesKnown start [] ⟨fun _ => none, m0⟩ (past.reverse ++ rest)) :
    ∃ σ, s.execWritten start (past.reverse.filter s.writes) ⟨fun _ => none, m0⟩ = some σ ∧
      σ.memory = m ∧ ∀ {j v}, vals[j]? = some v → (s.temp j).isVariable → σ.temps j = some v := by
  induction trace generalizing rest with
  | nil => exact ⟨_, rfl, rfl, fun found => nomatch found⟩
  | @set past vals m v trace gives settled ih =>
    rw [length_append, length_singleton] at length
    have le : vals.length ≤ s.temps.size := by omega
    rw [reverse_cons, append_assoc] at known
    obtain ⟨σ, run, rfl, vars⟩ := ih le known
    rw [reverse_cons]
    by_cases var : s.writes (.setTemp vals.length)
    · -- A variable has been used, so nothing that is overwritten stands in its value.
      have used : 0 < (s.temp vals.length).uses := by
        have := of_decide_eq_true (Bool.and_eq_true_iff.1 var).1
        exact lt_trans Nat.zero_lt_one this
      have word := trace.inPlaceFrom_word ordered le known vars gives (settled.free used)
        (ordered.shallow _ (by omega)) (Nat.le_succ s.reach)
      refine ⟨{ σ with temps := fun k => if k = vals.length then some v else σ.temps k }, ?_, rfl, ?_⟩
      · rw [execWritten_concat run var, Stmt.exec, inPlace, word]
        rfl
      · intro j w found isVar
        rw [← getElem?_set] at found
        show (if j = vals.length then some v else σ.temps j) = some w
        split
        case isTrue same => rwa [if_pos same] at found
        case isFalse other =>
          rw [if_neg other] at found
          exact vars found isVar
    · refine ⟨σ, ?_, rfl, fun {j w} found isVar => ?_⟩
      · rw [filter_append, filter_cons_of_neg var, filter_nil, append_nil, run]
      · rw [← getElem?_set] at found
        split at found
        case isTrue same => exact absurd (same ▸ isVar) var
        case isFalse => exact vars found isVar
  | @run past vals m e v trace means free flat ih =>
    rw [reverse_cons, append_assoc] at known
    obtain ⟨σ, run, rfl, vars⟩ := ih length known
    have word := trace.inPlaceFrom_word ordered length known vars (.pure means) free flat
      (Nat.le_succ s.reach)
    refine ⟨σ, ?_, rfl, vars⟩
    rw [reverse_cons, execWritten_concat run rfl, Stmt.exec, inPlace, word]
    rfl
  | @store past vals m e v base offset field t a trace means address free free' flat flat' ih =>
    rw [reverse_cons, append_assoc] at known
    obtain ⟨σ, run, rfl, vars⟩ := ih length known
    have word := trace.inPlaceFrom_word ordered length known vars (.pure means) free flat
      (Nat.le_succ s.reach)
    refine ⟨{ σ with memory := σ.memory.write (a + .ofInt 32 offset) v }, ?_, rfl, vars⟩
    have place : (s.inPlace (.member base offset (some 4) field t)).address? start σ.temps σ.memory =
        some (a + .ofInt 32 offset) := by
      obtain ⟨depth, deep⟩ : ∃ depth, s.reach = depth + 1 := ⟨s.reach - 1, by rw [reach]; omega⟩
      have word := trace.inPlaceFrom_word ordered length known vars (.pure address) free' flat'
        (le_of_eq deep)
      rw [inPlace, deep, inPlaceFrom, address?, word]
      rfl
    rw [reverse_cons, execWritten_concat run rfl, Stmt.exec, place, inPlace, word]
    rfl

end

end Decompiler.Eval
