import Decompiler.Eval.Instruction
import Decompiler.Proofs.Rules
import Decompiler.Proofs.Trace
import Decompiler.Proofs.Tables

/-!
# Evaluating straight code

An instruction of a straight piece of code sets a register to a new temporary, or stores a word.
Before a store, the registers that depend on what it names are protected.
-/

namespace Decompiler

open Asm Code List

namespace Eval

open Infer

section

variable {w : View} {s s' : Session} {e : Expr} {v : Word} {id : TempId}

lemma uses_of_size_le (le : s.temps.size ≤ id) : (s.temp id).uses = 0 := by
  rw [Session.temp, Array.getD_eq_getD_getElem?, Array.getElem?_eq_none le]
  rfl

lemma settled_of_unused (h : (s.temp id).uses = 0) : s.Settled (fun _ => False) id :=
  ⟨fun _ _ none => none.elim, fun pos => by omega, fun pos => by omega⟩

lemma Holds.evolves (h : Holds w s bound e v) (evolves : s.Evolves s')
    (length : w.vals.length ≤ s.temps.size) (more : w.vals <+: vals)
    (fewer : ∀ j, D j → w.stale j) : Holds ⟨w.start, vals, D⟩ s' bound e v := by
  refine ⟨h.means.mono more, evolves.ripe (h.means.plain.mono length) ?_, h.flat⟩
  exact fun j inlines hj => h.ripe j inlines (fewer j hj)

lemma Content.evolves (h : Content w s e v) (evolves : s.Evolves s')
    (length : w.vals.length ≤ s.temps.size) (more : w.vals <+: vals)
    (fewer : ∀ j, D j → w.stale j) : Content ⟨w.start, vals, D⟩ s' e v := by
  cases h with
  | forced found =>
    obtain ⟨ws, rfl⟩ := more
    refine .forced ?_
    rw [getElem?_append_left (List.getElem?_eq_some_iff.1 found).1, found]
  | held holds => exact .held (holds.evolves evolves length more fewer)

lemma temp_of_temps (temps : s'.temps = s.temps) (id : TempId) : s'.temp id = s.temp id := by
  rw [Session.temp, Session.temp, temps]

lemma evolves_of_temps (ordered : s.Ordered) (temps : s'.temps = s.temps) : s.Evolves s' :=
  .of_agree ordered (le_of_eq (by rw [temps])) fun id _ => temp_of_temps temps id

lemma Consistent.of_temps (h : Consistent w s) (temps : s'.temps = s.temps) :
    Consistent ⟨w.start, w.vals, D⟩ s' := by
  have grown (id) : (s.temp id).Grown (s'.temp id) := temp_of_temps temps id ▸ .refl
  refine h.of_grown (by rw [temps]) grown fun id settled => settled.grown grown fun pos => ?_
  rwa [temp_of_temps temps] at pos

end

def Session.past (s : Session) : List Stmt :=
  s.work.statements.toList.reverse

def Session.view (s : Session) (start : Register → Word) (vals : List Word) : View :=
  ⟨start, vals, s.Overwritten s.past⟩

structure Running (start : Register → Word) (m0 : Memory) (known : List Register) (μ : Machine)
    (vals : List Word) (s : Session) : Prop where
  ready : Ready (s.view start vals) μ known s
  contents : ∀ {r e}, s.work.registers.get? r = some e → ∃ v, Content (s.view start vals) s e v
  pure : s.TrivialPure
  trace : Trace start m0 s s.past vals μ.memory

section

variable {start : Register → Word} {m0 : Memory} {known : List Register} {μ : Machine}
  {vals : List Word} {s s' : Session} {e : Expr} {v : Word}

lemma overwritten_eq (past : s'.past = s.past) (value : ∀ id, s'.value id = s.value id) :
    s'.Overwritten s'.past = s.Overwritten s.past := by
  rw [past]
  exact funext fun j => propext (s.overwritten_congr fun i _ => value i)

lemma view_eq (past : s'.past = s.past) (value : ∀ id, s'.value id = s.value id) :
    s'.view start vals = s.view start vals := by
  rw [Session.view, overwritten_eq past value, Session.view]

lemma past_advances (advances : s.Advances s') : s'.past = s.past := by
  rw [Session.past, advances.work, Session.past]

lemma view_advances (advances : s.Advances s') : s'.view start vals = s.view start vals :=
  view_eq (past_advances advances) fun id => (advances.temps id).value

namespace Running

section

variable (h : Running start m0 known μ vals s)

include h

lemma length : vals.length = s.temps.size :=
  h.ready.consistent.length

lemma advances (advances : s.Advances s') : Running start m0 known μ vals s' := by
  refine ⟨?_, fun {r e} found => ?_, fun id trivial => ?_, ?_⟩
  · rw [view_advances advances]
    exact h.ready.advances advances
  · rw [advances.work] at found
    obtain ⟨v, content⟩ := h.contents found
    rw [view_advances advances]
    exact ⟨v, content.advances advances⟩
  · rw [Session.value, (advances.temps id).value]
    exact h.pure id ((advances.temps id).trivial trivial)
  · rw [past_advances advances]
    exact h.trace.evolves advances.evolves h.pure (le_of_eq h.length)

lemma free_of_used (used : s.Used s' es)
    (ripe : ∀ x ∈ es, s.Ripe (s.Overwritten s.past) x) (mem : e ∈ es) :
    s'.Free (s'.Overwritten s'.past) e := by
  have advances := used.advances
  rw [overwritten_eq (past_advances advances) fun id => (advances.temps id).value]
  exact used.free _ (s.lasting_overwritten h.pure) ripe e mem

end

end Running

def Session.withTemp (s : Session) (t : Temp) : Session :=
  { s with
    temps := s.temps.push t
    work := { s.work with statements := s.work.statements.push (.setTemp s.temps.size) } }

section

variable {t : Temp}

lemma temp_withTemp_self : (s.withTemp t).temp s.temps.size = t := by
  simp [Session.temp, Session.withTemp]

lemma temp_withTemp_of_ne {id} (ne : id ≠ s.temps.size) : (s.withTemp t).temp id = s.temp id := by
  simp [Session.temp, Session.withTemp, Array.getD_eq_getD_getElem?, Array.getElem?_push, ne]

lemma size_withTemp : (s.withTemp t).temps.size = s.temps.size + 1 :=
  Array.size_push _

lemma past_withTemp : (s.withTemp t).past = .setTemp s.temps.size :: s.past := by
  simp [Session.past, Session.withTemp]

lemma evolves_withTemp (ordered : s.Ordered) : s.Evolves (s.withTemp t) := by
  refine .of_agree ordered ?_ fun id lt => temp_withTemp_of_ne (ne_of_lt lt)
  rw [size_withTemp]
  exact Nat.le_succ _

structure Temp.Next (w : View) (s : Session) (m : Memory) (t : Temp) (v : Word) : Prop where
  value : Value w s m t.value v
  exactlyOnce : t.exactlyOnce = false
  uses : t.uses = 0
  trivial : t.trivial → t.value.load? = none

/-- A new temporary gets the next value. -/
lemma Consistent.withTemp (h : Consistent w s) (next : t.Next w s m v) :
    Consistent ⟨w.start, w.vals ++ [v], w.stale⟩ (s.withTemp t) := by
  have value {id} (ne : id ≠ s.temps.size) : (s.withTemp t).value id = s.value id := by
    rw [Session.value, temp_withTemp_of_ne ne, Session.value]
  have self : (s.withTemp t).value s.temps.size = t.value := by
    rw [Session.value, temp_withTemp_self]
  have plain : Plain s.temps.size t.value := h.length ▸ next.value.gives.plain
  refine ⟨⟨fun id lt => ?_, fun id lt => ?_, fun id lt => ?_⟩, ?_, fun id v' found => ?_,
    fun id none => ?_, fun id => ?_⟩
  · rcases Nat.lt_succ_iff_lt_or_eq.1 (size_withTemp ▸ lt) with lt | rfl
    · rw [value (ne_of_lt lt)]
      exact h.ordered.plain id lt
    · rwa [self]
  · rcases Nat.lt_succ_iff_lt_or_eq.1 (size_withTemp ▸ lt) with lt | rfl
    · rw [value (ne_of_lt lt)]
      exact h.ordered.shallow id lt
    · rw [self]
      exact next.value.flat
  · rcases Nat.lt_succ_iff_lt_or_eq.1 (size_withTemp ▸ lt) with lt | rfl
    · rw [temp_withTemp_of_ne (ne_of_lt lt)]
      exact h.ordered.once id lt
    · rw [temp_withTemp_self]
      exact next.exactlyOnce
  · rw [size_withTemp, length_append, length_singleton, h.length]
  · rw [← getElem?_set] at found
    split at found
    case isTrue same =>
      cases found
      subst same
      rw [h.length, self, ← h.length, take_left' rfl]
      exact ⟨m, next.value.gives⟩
    case isFalse other =>
      have lt := (List.getElem?_eq_some_iff.1 found).1
      rw [take_append_of_le_length (le_of_lt lt), value (h.length ▸ other)]
      exact h.gives id v' found
  · by_cases same : id = s.temps.size
    · subst same
      rw [self] at none ⊢
      exact next.value.shallow none
    · rw [value same] at none ⊢
      exact h.flat id none
  · by_cases same : id = s.temps.size
    · subst same
      exact settled_of_unused (by rw [temp_withTemp_self, next.uses])
    · rcases lt_or_ge id s.temps.size with lt | ge
      · exact (evolves_withTemp h.ordered).settled (fun _ none => none.elim) (fun _ none => none.elim)
          lt (h.settled id)
      · exact settled_of_unused (by rw [temp_withTemp_of_ne same, uses_of_size_le ge])

section

variable (h : Running start m0 known μ vals s)

include h

lemma Running.overwritten_withTemp : (s.withTemp t).Overwritten s.past = s.Overwritten s.past := by
  refine funext fun j => propext (s.overwritten_congr fun i mem => ?_)
  have lt := h.trace.mem_iff.1 mem
  rw [h.length] at lt
  rw [Session.value, temp_withTemp_of_ne (ne_of_lt lt), Session.value]

lemma Running.view_withTemp :
    (s.withTemp t).view start (vals ++ [v]) = ⟨start, vals ++ [v], s.Overwritten s.past⟩ := by
  rw [Session.view, past_withTemp]
  exact congrArg (View.mk start (vals ++ [v])) h.overwritten_withTemp

/-- The block with the new temporary stands for the same machine. -/
lemma Running.withTemp (next : t.Next (s.view start vals) s μ.memory v) :
    Running start m0 known μ (vals ++ [v]) (s.withTemp t) ∧ ∀ type,
      Holds ((s.withTemp t).view start (vals ++ [v])) (s.withTemp t) 1 (.temp s.temps.size type) v := by
  have ordered := h.ready.consistent.ordered
  have evolves : s.Evolves (s.withTemp t) := evolves_withTemp ordered
  have length : vals.length = s.temps.size := h.length
  have le := le_of_eq length
  have self : (s.withTemp t).value s.temps.size = t.value := by
    rw [Session.value, temp_withTemp_self]
  have ripe : (s.withTemp t).Ripe (s.Overwritten s.past) t.value :=
    evolves.ripe (next.value.gives.plain.mono le) next.value.ripe
  have content {e} {v'} (h : Content (s.view start vals) s e v') :
      Content ⟨start, vals ++ [v], s.Overwritten s.past⟩ (s.withTemp t) e v' :=
    h.evolves evolves le (prefix_append _ _) fun _ => id
  rw [h.view_withTemp]
  refine ⟨⟨?_, fun {r e} found => ?_, fun id trivial => ?_, ?_⟩, fun type => ⟨?_, ?_, le_refl _⟩⟩
  · rw [h.view_withTemp]
    refine ⟨h.ready.consistent.withTemp next, h.ready.bare, fun r mem other => ?_⟩
    obtain ⟨e, found, held⟩ := h.ready.registers r mem other
    exact ⟨e, found, content held⟩
  · obtain ⟨v', held⟩ := h.contents found
    rw [h.view_withTemp]
    exact ⟨v', content held⟩
  · by_cases same : id = s.temps.size
    · subst same
      rw [temp_withTemp_self] at trivial
      rw [self]
      exact next.trivial trivial
    · rw [temp_withTemp_of_ne same] at trivial
      rw [Session.value, temp_withTemp_of_ne same]
      exact h.pure id trivial
  · rw [past_withTemp, ← length]
    refine .set (h.trace.evolves evolves h.pure le) ?_ ⟨?_, fun pos => ?_, fun pos => ?_⟩
    · rw [length, self]
      exact next.value.gives
    · rw [length, self, h.overwritten_withTemp]
      exact ripe
    · rw [length, temp_withTemp_self, next.uses] at pos
      cases pos
    · rw [length, temp_withTemp_self, next.uses] at pos
      cases pos
  · refine .temp ?_
    rw [← length]
    exact getElem?_concat_length
  · intro j inlines hj
    obtain ⟨-, rfl | inlines⟩ := Session.inlines_temp inlines
    · have := h.trace.mem_iff.1 hj.mem
      omega
    · rw [self] at inlines
      exact ripe j inlines hj

end

end

lemma Running.update (h : Running start m0 known μ vals s) (temps : s'.temps = s.temps)
    (types : s'.types = s.types) (trace : Trace start m0 s s'.past vals μ'.memory)
    (registers : ∀ r ∈ known', r ≠ .zero → ∃ e, s'.work.registers.get? r = some e ∧
      Content ⟨start, vals, s.Overwritten s'.past⟩ s e (μ'.get r))
    (contents : ∀ {r e}, s'.work.registers.get? r = some e →
      ∃ v, Content ⟨start, vals, s.Overwritten s'.past⟩ s e v) :
    Running start m0 known' μ' vals s' := by
  have value (id) : s'.value id = s.value id := by
    rw [Session.value, temp_of_temps temps, Session.value]
  have view : s'.view start vals = ⟨start, vals, s.Overwritten s'.past⟩ :=
    congrArg (View.mk start vals) (funext fun j => propext (s.overwritten_congr fun i _ => value i))
  have le := le_of_eq h.length
  have evolves : s.Evolves s' := evolves_of_temps h.ready.consistent.ordered temps
  have content {e} {v} (h : Content ⟨start, vals, s.Overwritten s'.past⟩ s e v) :
      Content (s'.view start vals) s' e v := by
    rw [view]
    exact h.evolves evolves le (prefix_refl _) fun _ => id
  refine ⟨⟨?_, types ▸ h.ready.bare, fun r mem other => ?_⟩, fun {r e} found => ?_,
    fun id trivial => ?_, trace.evolves evolves h.pure le⟩
  · exact h.ready.consistent.of_temps temps
  · obtain ⟨e, found, held⟩ := registers r mem other
    exact ⟨e, found, content held⟩
  · obtain ⟨v, held⟩ := contents found
    exact ⟨v, content held⟩
  · rw [temp_of_temps temps] at trivial
    rw [value]
    exact h.pure id trivial

def Session.withStatement (s : Session) (stmt : Stmt) : Session :=
  { s with work := { s.work with statements := s.work.statements.push stmt } }

lemma past_withStatement : (s.withStatement stmt).past = stmt :: s.past := by
  simp [Session.past, Session.withStatement]

lemma Running.withStatement (h : Running start m0 known μ vals s)
    (trace : Trace start m0 s (stmt :: s.past) vals m)
    (registers : ∀ r ∈ known, r ≠ .zero → ∃ e, s.work.registers.get? r = some e ∧
      Content ⟨start, vals, s.Overwritten (stmt :: s.past)⟩ s e (μ.get r))
    (contents : ∀ {r e}, s.work.registers.get? r = some e →
      ∃ v, Content ⟨start, vals, s.Overwritten (stmt :: s.past)⟩ s e v) :
    Running start m0 known { μ with memory := m } vals (s.withStatement stmt) := by
  simp only [← past_withStatement] at trace registers contents
  exact h.update rfl rfl trace registers contents

def Session.withRegister (s : Session) (r : Register) (e : Expr) : Session :=
  { s with work := { s.work with registers := s.work.registers.insert r e } }

lemma Running.withRegister (h : Running start m0 known μ vals s)
    (content : Content (s.view start vals) s e v) (other : r ≠ .zero) :
    Running start m0 (r :: known) (μ.set r v) vals (s.withRegister r e) := by
  refine h.update rfl rfl h.trace (fun r' mem other' => ?_) fun {r' x} found => ?_
  · rw [Session.withRegister, Table.get?_insert]
    by_cases same : r' = r
    · subst same
      rw [if_pos (beq_self_eq_true r'), Machine.get_set_self other]
      exact ⟨e, rfl, content⟩
    · rw [if_neg (by simpa using same), Machine.get_set_of_ne same]
      exact h.ready.registers r' ((mem_cons.1 mem).resolve_left same) other'
  · rw [Session.withRegister, Table.get?_insert] at found
    split at found
    · cases found
      exact ⟨v, content⟩
    · exact h.contents found

lemma Running.withHidden (h : Running start m0 known μ vals s)
    (content : Content (s.view start vals) s e v) (hidden : r ∉ known) :
    Running start m0 known μ vals (s.withRegister r e) := by
  refine h.update rfl rfl h.trace (fun r' mem other => ?_) fun {r' x} found => ?_
  · have ne : r' ≠ r := fun same => hidden (same ▸ mem)
    rw [Session.withRegister, Table.get?_insert, if_neg (by simpa using ne)]
    exact h.ready.registers r' mem other
  · rw [Session.withRegister, Table.get?_insert] at found
    split at found
    · cases found
      exact ⟨v, content⟩
    · exact h.contents found

end

structure Session.Beside (s s' : Session) : Prop where
  frame : s'.frame = s.frame
  joins : s'.joins = s.joins
  usedJoins : s'.usedJoins = s.usedJoins
  blocks : s'.blocks = s.blocks
  exits : s'.exits = s.exits
  condition : s'.work.condition = s.work.condition
  switchValue : s'.work.switchValue = s.work.switchValue

namespace Session.Beside

variable {s s' : Session}

lemma refl : s.Beside s :=
  ⟨rfl, rfl, rfl, rfl, rfl, rfl, rfl⟩

lemma trans (h : s.Beside s') (h' : s'.Beside s'') : s.Beside s'' :=
  ⟨h'.frame.trans h.frame, h'.joins.trans h.joins, h'.usedJoins.trans h.usedJoins,
    h'.blocks.trans h.blocks, h'.exits.trans h.exits, h'.condition.trans h.condition,
    h'.switchValue.trans h.switchValue⟩

lemma of_advances (h : s.Advances s') : s.Beside s' :=
  ⟨h.frame, h.joins, h.usedJoins, h.blocks, h.exits, by rw [h.work], by rw [h.work]⟩

end Session.Beside

section

variable {start : Register → Word} {m0 : Memory} {known : List Register} {μ : Machine}
  {vals : List Word} {s s' : Session} {e : Expr} {v : Word} {r : Register}

lemma newTemp_withTemp {name trivial} :
    Ensures s (newTemp e name false trivial) fun x s' => ∃ t : Temp, s' = s.withTemp t ∧
      x = .temp s.temps.size e.type ∧ t.value = e ∧ t.exactlyOnce = false ∧ t.uses = 0 ∧
      t.trivial = trivial := by
  exact .bind_expect fun _ => .get (.bind_modify (.bind_modify
    (.pure ⟨_, rfl, rfl, rfl, rfl, rfl, rfl⟩)))

lemma beside_withTemp : s.Beside (s.withTemp t) :=
  ⟨rfl, rfl, rfl, rfl, rfl, rfl, rfl⟩

lemma beside_withRegister : s.Beside (s.withRegister r e) :=
  ⟨rfl, rfl, rfl, rfl, rfl, rfl, rfl⟩

lemma beside_withStatement : s.Beside (s.withStatement stmt) :=
  ⟨rfl, rfl, rfl, rfl, rfl, rfl, rfl⟩

lemma hold_withRegister (r : Register) (e : Expr) :
    Ensures s (hold r e) fun _ s' => r ≠ .zero ∧ s' = s.withRegister r e := by
  exact .bind_expect fun other => .modify ⟨by simpa using other, rfl⟩

lemma holdResult_running (h : Running start m0 known μ vals s)
    (general : ∀ r' ∈ r :: known, r' ∈ generalRegisters)
    (content : Content (s.view start vals) s e v) :
    Ensures s (holdResult r e) fun _ s' =>
      Running start m0 (r :: known) (μ.set r v) vals s' ∧ s.Beside s' := by
  have hidden : returnRegister ∉ r :: known := fun mem => absurd (general _ mem) (by decide)
  refine (hold_withRegister r e).bind ?_
  rintro _ _ ⟨other, rfl⟩
  have running := h.withRegister content other
  refine .ite (fun _ => ?_) fun _ => .pure ⟨running, beside_withRegister⟩
  obtain ⟨x, found, content⟩ := running.ready.registers r mem_cons_self other
  rw [Session.withRegister, Table.get?_insert, if_pos (beq_self_eq_true r)] at found
  cases found
  refine (hold_withRegister _ _).bind ?_
  rintro _ _ ⟨-, rfl⟩
  have running := running.withHidden content hidden
  refine .modify ⟨?_, ⟨rfl, rfl, rfl, rfl, rfl, rfl, rfl⟩⟩
  exact running.update rfl rfl running.trace running.ready.registers running.contents

lemma Gives.load?_of_isTrivial (h : Gives start vals m e v) (trivial : e.isTrivial) :
    e.load? = none := by
  cases h with
  | pure means => exact means.load?_eq_none
  | load | cast => cases trivial

lemma hold_value (h : Running start m0 known μ vals s)
    (value : Value (s.view start vals) s μ.memory e v) :
    Ensures s (if e.isLiteral then pure e else newTemp e name false e.isTrivial) fun x s' =>
      (∃ vals', Running start m0 known μ vals' s' ∧ Holds (s'.view start vals') s' 1 x v) ∧
        s.Beside s' := by
  refine .ite (fun isLiteral => ?_) fun _ => ?_
  · obtain ⟨n, t, rfl⟩ := literal_of_isLiteral isLiteral
    refine .pure ⟨⟨vals, h, ?_⟩, .refl⟩
    rw [(value.gives.means rfl).unique .literal]
    exact .literal n t
  · refine newTemp_withTemp.imp ?_
    rintro _ _ ⟨t, rfl, rfl, rfl, once, unused, trivial⟩
    have next : t.Next (s.view start vals) s μ.memory v :=
      ⟨value, once, unused, fun h => value.gives.load?_of_isTrivial (trivial ▸ h)⟩
    obtain ⟨running, holds⟩ := h.withTemp next
    exact ⟨⟨_, running, holds _⟩, beside_withTemp⟩

lemma assign_eq (other : ∀ place t, e ≠ .stackVar place t) :
    assign r e = ((if e.isLiteral then pure e else newTemp e r.name false e.isTrivial) >>= fun x =>
      if r == .zero then do
        use x
        write (.run x)
      else holdResult r x) := by
  unfold assign
  dsimp only
  split
  · exact (other _ _ rfl).elim
  · rw [pure_bind]
    split <;> rfl

/-- A register is set to a new temporary for the value. -/
lemma assign_running (h : Running start m0 known μ vals s)
    (general : ∀ r' ∈ r :: known, r' ∈ generalRegisters)
    (value : Value (s.view start vals) s μ.memory e v) :
    Ensures s (assign r e) fun _ s' =>
      (∃ vals, Running start m0 (r :: known) (μ.set r v) vals s') ∧ s.Beside s' := by
  have other (place) (t) : e ≠ .stackVar place t := by
    rintro rfl
    cases value.gives with
    | pure means => cases means
  rw [assign_eq other]
  refine (hold_value h value).bind fun x s1 ⟨⟨vals1, running, holds⟩, beside⟩ => ?_
  refine .ite (fun zero => ?_) fun _ => ?_
  · obtain rfl := eq_of_beq zero
    have plain := holds.means.plain.mono (le_of_eq running.length)
    refine (use_used running.ready.consistent.ordered plain).bind fun _ s2 used => ?_
    have running2 := running.advances used.advances
    have free : s2.Free (s2.Overwritten s2.past) x := by
      refine running.free_of_used used (fun y mem => ?_) (.head _)
      rw [mem_singleton.1 mem]
      exact holds.ripe
    have trace : Trace start m0 s2 (.run x :: s2.past) vals1 μ.memory :=
      .run running2.trace holds.means free (le_trans holds.flat (by decide))
    have running3 := running2.withStatement trace running2.ready.registers running2.contents
    refine .modify ⟨⟨vals1, ?_⟩, ?_⟩
    · refine running3.update rfl rfl running3.trace (fun r mem other => ?_) running3.contents
      rw [Machine.get_set_of_ne other]
      exact running3.ready.registers r ((mem_cons.1 mem).resolve_left other) other
    · exact beside.trans ((Session.Beside.of_advances used.advances).trans beside_withStatement)
  · refine (holdResult_running running general (.held holds)).imp fun _ s2 ⟨running, beside'⟩ => ?_
    exact ⟨⟨vals1, running⟩, beside.trans beside'⟩

end

end Eval

end Decompiler
