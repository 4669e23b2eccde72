import Decompiler.Proofs.Straight

/-!
# Evaluating the instructions of straight code

Before a store, the registers that depend on what it names are protected: they hold variables then.
So what a store overwrites is not computed again.
-/

namespace Decompiler.Eval

open Asm Code Infer Session Ensures List Option

/-- Registers that are safe from a change: those that depend on it hold variables now. -/
structure Session.Guarded (s s' : Session) (p : Register → Expr → Prop) : Prop where
  state : ∃ registers, s' = { s with work := { s.work with registers } }
  contents : ∀ r, s'.work.registers.get? r = s.work.registers.get? r ∨
    ∃ id t, s.work.registers.get? r = some (.temp id t) ∧
      s'.work.registers.get? r = some (.forced id t)
  safe : ∀ {r e}, s'.work.registers.get? r = some e → p r e → ∃ id t, e = .forced id t

namespace Session.Guarded

variable {s s' : Session} {p : Register → Expr → Prop}

lemma refl (safe : ∀ {r e}, s.work.registers.get? r = some e → p r e → ∃ id t, e = .forced id t) :
    s.Guarded s p :=
  ⟨⟨_, rfl⟩, fun _ => .inl rfl, safe⟩

lemma trans (h : s.Guarded s' p) (h' : s'.Guarded s'' p') :
    s.Guarded s'' fun r e => p r e ∨ p' r e := by
  obtain ⟨registers, rfl⟩ := h.state
  refine ⟨h'.state, fun r => ?_, fun {r e} found holds => ?_⟩
  · rcases h'.contents r with same | ⟨id, t, temp, forced⟩
    · rw [same]
      exact h.contents r
    · rcases h.contents r with same | ⟨_, _, _, forced'⟩
      · exact .inr ⟨id, t, same ▸ temp, forced⟩
      · rw [forced'] at temp
        cases temp
  · rcases holds with holds | holds
    · rcases h'.contents r with same | ⟨id, t, -, forced⟩
      · exact h.safe (same ▸ found) holds
      · exact ⟨id, t, some.inj (found.symm.trans forced)⟩
    · exact h'.safe found holds

lemma imp (h : s.Guarded s' p) (weaker : ∀ r e, s'.work.registers.get? r = some e → p' r e → p r e) :
    s.Guarded s' p' :=
  ⟨h.state, h.contents, fun found holds => h.safe found (weaker _ _ found holds)⟩

lemma force {r id t} (content : s.work.registers.get? r = some (.temp id t)) :
    s.Guarded (s.withRegister r (.forced id t)) fun r' _ => r' = r := by
  refine ⟨⟨_, rfl⟩, fun r' => ?_, fun {r' e} found same => ?_⟩
  · rw [withRegister, Table.get?_insert]
    by_cases here : r' = r
    · rw [here, if_pos (beq_self_eq_true r)]
      exact .inr ⟨id, t, content, rfl⟩
    · rw [if_neg (by simpa using here)]
      exact .inl rfl
  · rw [withRegister, same, Table.get?_insert, if_pos (beq_self_eq_true r)] at found
    exact ⟨id, t, (some.inj found).symm⟩

lemma beside (h : s.Guarded s' p) : s.Beside s' := by
  obtain ⟨_, rfl⟩ := h.state
  exact ⟨rfl, rfl, rfl, rfl, rfl, rfl, rfl⟩

end Session.Guarded

section

variable {start : Register → Word} {m0 : Memory} {known : List Register} {μ : Machine}
  {vals : List Word} {s s' : Session} {e : Expr} {v : Word} {r : Register}

/-- Protecting forces all registers that are asked for and changes nothing else. -/
lemma protect_guarded
    (stable : ∀ registers e, p { s with work := { s.work with registers } } e = p s e)
    (temps : ∀ {r e}, s.work.registers.get? r = some e → p s e →
      (∃ id t, e = .temp id t) ∨ ∃ id t, e = .forced id t) :
    Ensures s (protect p) fun _ s' => s.Guarded s' fun _ e => p s e := by
  refine .get (imp (P := fun _ s' =>
    s.Guarded s' fun r e => r ∈ s.work.registers.keys ∧ p s e) ?_ fun _ s' guarded => ?_)
  · generalize s.work.registers.keys = rs
    induction rs generalizing s with
    | nil => exact .pure (.refl fun _ h => nomatch h.1)
    | cons r rs ih =>
      refine bind (P := fun _ s' => s.Guarded s' fun r' e => r' = r ∧ p s e) ?_ ?_
      · cases content : s.work.registers.get? r with
        | none =>
          refine .get ?_
          rw [content]
          refine .pure (.refl fun {r' e} found h => ?_)
          rw [h.1, content] at found
          cases found
        | some e =>
          have same {r'} {e'} (found : s.work.registers.get? r' = some e')
              (h : r' = r ∧ p s e') : e' = e ∧ p s e := by
            rw [h.1, content] at found
            obtain rfl := some.inj found
            exact ⟨rfl, h.2⟩
          refine .get ?_
          rw [content]
          by_cases holds : p s e
          · rcases temps content holds with ⟨id, t, rfl⟩ | ⟨id, t, rfl⟩
            · refine .get ?_
              rw [if_pos holds]
              refine (hold_withRegister r _).imp ?_
              rintro _ _ ⟨-, rfl⟩
              exact (Guarded.force content).imp fun _ _ _ h => h.1
            · exact .pure (.refl fun found h => ⟨id, t, (same found h).1⟩)
          · have none : s.Guarded s fun r' e => r' = r ∧ p s e :=
              .refl fun found h => (holds (same found h).2).elim
            split
            · exact .pure none
            · exact .pure none
            · rename_i x _ eq
              obtain rfl := some.inj eq
              refine .get ?_
              rw [if_neg holds]
              exact .pure none
      · intro _ s1 guarded
        obtain ⟨registers, rfl⟩ := guarded.state
        refine (ih (fun registers' e => ?_) fun {r' e} found holds => ?_).imp fun _ s' more => ?_
        · rw [stable registers]
          exact stable registers' e
        · rw [stable registers] at holds
          rcases guarded.contents r' with same | ⟨id, t, -, forced⟩
          · exact temps (same ▸ found) holds
          · exact .inr ⟨id, t, some.inj (found.symm.trans forced)⟩
        · refine (guarded.trans more).imp fun r' e _ ⟨mem, holds⟩ => ?_
          rw [stable registers]
          exact (mem_cons.1 mem).imp (⟨·, holds⟩) (⟨·, holds⟩)
  · refine guarded.imp fun r e found holds => ⟨?_, holds⟩
    rcases guarded.contents r with same | ⟨id, t, temp, -⟩
    · exact Table.mem_keys_of_get? (same ▸ found)
    · exact Table.mem_keys_of_get? temp

lemma Content.temp_of_mentions (h : Content w s e v) (large : ∀ x, q x → s.parts x ≠ [])
    (holds : s.mentions q e) : (∃ id t, e = .temp id t) ∨ ∃ id t, e = .forced id t := by
  have here (none : s.parts e = []) : False := by
    obtain ⟨depth, eq⟩ : ∃ depth, s.reach = depth + 1 := ⟨s.reach - 1, by rw [reach]; omega⟩
    rw [mentions, eq, mentionsFrom, none, any_nil, Bool.or_false] at holds
    exact large e holds none
  cases h with
  | forced found => exact .inr ⟨_, _, rfl⟩
  | held holds =>
    have flat := holds.flat
    cases holds.means with
    | literal | argument | symbol => exact (here rfl).elim
    | temp => exact .inl ⟨_, _, rfl⟩
    | @cast x _ _ _ _ =>
      have := height_pos x
      simp only [height] at flat
      omega
    | @binary l _ _ _ _ _ _ _ _ _ _ =>
      have := height_pos l
      simp only [height] at flat
      omega

lemma mentions_work (s : Session) (work : Work) (q : Expr → Bool) (e : Expr) :
    { s with work }.mentions q e = s.mentions q e := by
  have parts (e) : { s with work }.parts e = s.parts e := by
    cases e <;> rfl
  show { s with work }.mentionsFrom q s.reach e = s.mentionsFrom q s.reach e
  generalize s.reach = depth
  induction depth generalizing e with
  | zero => rfl
  | succ depth ih => rw [mentionsFrom, mentionsFrom, parts, funext ih]

lemma Running.guarded (h : Running start m0 known μ vals s)
    (guarded : s.Guarded s' p) : Running start m0 known μ vals s' := by
  have content {r} {e} {v} (found : s.work.registers.get? r = some e)
      (held : Content (s.view start vals) s e v) :
      ∃ e', s'.work.registers.get? r = some e' ∧ Content (s.view start vals) s e' v := by
    rcases guarded.contents r with same | ⟨id, t, temp, forced⟩
    · exact ⟨e, same ▸ found, held⟩
    · obtain rfl := some.inj (found.symm.trans temp)
      refine ⟨_, forced, ?_⟩
      cases held with
      | held holds =>
        cases holds.means with
        | temp valued => exact .forced valued
  obtain ⟨registers, rfl⟩ := guarded.state
  refine h.update rfl rfl h.trace (fun r mem other => ?_) fun {r e} found => ?_
  · obtain ⟨e, found, held⟩ := h.ready.registers r mem other
    exact content found held
  · rcases guarded.contents r with same | ⟨id, t, temp, forced⟩
    · exact h.contents (same ▸ found)
    · obtain ⟨v, held⟩ := h.contents temp
      obtain ⟨e', found', held'⟩ := content temp held
      obtain rfl := some.inj (found.symm.trans found')
      exact ⟨v, held'⟩

lemma protect_running (h : Running start m0 known μ vals s)
    (stable : ∀ registers e, p { s with work := { s.work with registers } } e = p s e)
    (mentions : ∀ e, p s e → s.mentions q e) (large : ∀ x, q x → s.parts x ≠ []) :
    Ensures s (protect p) fun _ s' =>
      Running start m0 known μ vals s' ∧ s.Guarded s' fun _ e => p s e := by
  refine (protect_guarded stable fun {r e} found holds => ?_).imp fun _ s' guarded =>
    ⟨h.guarded guarded, guarded⟩
  obtain ⟨v, content⟩ := h.contents found
  exact content.temp_of_mentions large (mentions e holds)

lemma Content.overwrite {past dest value} (ordered : s.Ordered) (length : vals.length = s.temps.size)
    (h : Content ⟨start, vals, s.Overwritten past⟩ s e v)
    (safe : s.mentions (fun part => part.same dest) e && !e.isUntouched → ∃ id t, e = .forced id t) :
    Content ⟨start, vals, s.Overwritten (.store value dest :: past)⟩ s e v := by
  cases h with
  | forced found => exact .forced found
  | held holds =>
    refine .held ⟨holds.means, fun j inlines hj => ?_, holds.flat⟩
    rcases hj with hj | ⟨-, l, load, same⟩
    · exact holds.ripe j inlines hj
    · have plain := holds.means.plain.mono (le_of_eq length)
      have mentions : s.mentions (fun part => part.same dest) e :=
        mentions_of_inlines ordered inlines plain (le_trans holds.flat (by decide)) load same
      -- Nothing is written in place of an argument.
      have touched : e.isUntouched = false := by
        cases inlines with
        | here => rfl
        | part mem _ => cases e <;> first | rfl | cases mem
      obtain ⟨id, t, rfl⟩ := safe (by rw [mentions, touched]; rfl)
      cases holds.means

lemma Accesses.ripe (h : Accesses w s e a) : s.Ripe w.stale e := by
  obtain ⟨base, offset, field, t, x, rfl, holds, -⟩ := h
  exact .of_parts (by simp) (by simpa [parts] using holds.ripe)

lemma Accesses.plain (h : Accesses w s e a) : Plain w.vals.length e := by
  obtain ⟨base, offset, field, t, x, rfl, holds, -⟩ := h
  exact .member holds.means.plain

lemma Accesses.parts_of_same (h : Accesses w s e a) (same : x.same e) : s.parts x ≠ [] := by
  obtain ⟨base, offset, field, t, _, rfl, -, -⟩ := h
  cases x with
  | member => exact cons_ne_nil _ _
  | _ => simp [Expr.same, Expr.identical] at same

lemma runStore_eq {w a args value dest} (h : Accesses w s dest a) :
    runStore args ⟨value, dest⟩ = (do
      use value
      use dest
      protectFromStore dest
      protectCalls
      write (.store value dest)) := by
  obtain ⟨base, offset, field, t, _, rfl, -, -⟩ := h
  rfl

lemma Running.trace_store (h : Running start m0 known μ vals s) {value dest a}
    (holds : Holds (s.view start vals) s 2 value v) (accesses : Accesses (s.view start vals) s dest a)
    (used : s.Used s' [value, dest]) :
    Trace start m0 s' (.store value dest :: s'.past) vals (μ.memory.write a v) := by
  have running := h.advances used.advances
  have ripe (x) (mem : x ∈ [value, dest]) : s.Ripe (s.Overwritten s.past) x := by
    rcases mem_cons.1 mem with rfl | mem
    · exact holds.ripe
    · rw [mem_singleton.1 mem]
      exact accesses.ripe
  have free := h.free_of_used used ripe (.head _)
  have free' := h.free_of_used used ripe (.tail _ (.head _))
  obtain ⟨base, offset, field, t, x, rfl, address, rfl⟩ := accesses
  refine .store running.trace holds.means address.means free (fun j inlines => ?_)
    (le_trans holds.flat (by decide)) (le_trans address.flat (by decide))
  exact free' j (.part (.head _) inlines)

/-- A store writes the word it should, and no register depends on the old one. -/
lemma runStore_running (h : Running start m0 known μ vals s) {args value dest a}
    (holds : Holds (s.view start vals) s 2 value v) (accesses : Accesses (s.view start vals) s dest a) :
    Ensures s (runStore args ⟨value, dest⟩) fun _ s' =>
      Running start m0 known { μ with memory := μ.memory.write a v } vals s' ∧ s.Beside s' := by
  have le : vals.length ≤ s.temps.size := le_of_eq h.length
  have ordered := h.ready.consistent.ordered
  have plain := holds.means.plain.mono le
  have plain' := accesses.plain.mono le
  rw [runStore_eq accesses]
  refine (use_used ordered plain).bind fun _ s1 used => ?_
  have ordered1 := used.advances.ordered ordered
  refine (use_used ordered1 (used.advances.size ▸ plain')).bind fun _ s2 used' => ?_
  have both : s.Used s2 [value, dest] := used.cons used'
  have running2 := h.advances both.advances
  have trace := h.trace_store holds accesses both
  have guard : Ensures s2 (protectFromStore dest) fun _ s' => Running start m0 known μ vals s' ∧
      s2.Guarded s' fun _ e => s2.mentions (fun part => part.same dest) e && !e.isUntouched := by
    refine protect_running running2 (fun _ e => ?_) (fun e h => (Bool.and_eq_true_iff.1 h).1) ?_
    · rw [mentions_work]
    · exact fun x same => (accesses.advances both.advances).parts_of_same same
  refine guard.bind ?_
  rintro _ s3 ⟨running3, guarded⟩
  have guard : Ensures s3 protectCalls fun _ s' => Running start m0 known μ vals s' ∧
      ∃ p, s3.Guarded s' p := by
    refine (protect_running running3 (fun _ e => ?_) (fun e h => h) ?_).imp fun _ _ h => ⟨h.1, _, h.2⟩
    · exact mentions_work _ _ _ e
    · intro x isCall
      split at isCall
      · simp [parts]
      · cases isCall
  refine guard.bind ?_
  rintro _ s4 ⟨running4, _, guarded'⟩
  have guarded := guarded.trans guarded'
  have beside := (Beside.of_advances both.advances).trans guarded.beside
  have evolves : s2.Evolves s4 := by
    obtain ⟨_, rfl⟩ := guarded.state
    exact evolves_of_temps running2.ready.consistent.ordered rfl
  have past : s4.past = s2.past := by
    obtain ⟨_, rfl⟩ := guarded.state
    rfl
  have trace := trace.evolves evolves running2.pure (le_of_eq running2.length)
  rw [← past] at trace
  have overwrite {r} {e} {v} (found : s4.work.registers.get? r = some e)
      (content : Content (s4.view start vals) s4 e v) :
      Content ⟨start, vals, s4.Overwritten (.store value dest :: s4.past)⟩ s4 e v := by
    refine content.overwrite running4.ready.consistent.ordered running4.length fun mentions => ?_
    refine guarded.safe found (.inl ?_)
    obtain ⟨_, rfl⟩ := guarded.state
    rwa [mentions_work] at mentions
  refine .modify ⟨running4.withStatement trace (fun r mem other => ?_) fun {r e} found => ?_,
    beside.trans beside_withStatement⟩
  · obtain ⟨e, found, content⟩ := running4.ready.registers r mem other
    exact ⟨e, found, overwrite found content⟩
  · obtain ⟨v, content⟩ := running4.contents found
    exact ⟨v, overwrite found content⟩

end

def settingMnemonics : List String :=
  ["move", "li", "addu", "subu", "and", "or", "xor", "addiu", "sll", "lw"]

lemma action_of_setting (mem : mnemonic ∈ settingMnemonics)
    (value : valueRule? mnemonic = some rule) :
    action mnemonic = .set rule ∧ setsDouble mnemonic = false := by
  simp only [settingMnemonics, mem_cons, not_mem_nil, or_false] at mem
  rcases mem with rfl | rfl | rfl | rfl | rfl | rfl | rfl | rfl | rfl | rfl
  all_goals
    obtain rfl := some.inj value
    exact ⟨rfl, rfl⟩

section

variable {w : View} {start : Register → Word} {m0 : Memory} {known : List Register} {μ : Machine}
  {vals : List Word} {s s' : Session} {i : Instruction} {op : Op} {r : Register} {v : Word}

structure Sets (w : View) (s : Session) (m : Memory) (mnemonic : String) (args : List Operand)
    (rule : Rule) (r : Register) (v : Word) : Prop where
  mem : mnemonic ∈ settingMnemonics
  found : valueRule? mnemonic = some rule
  register : args[0]? = some (.register r)
  value : Makes s (rule args) fun e s' => Value w s' m e v

lemma Makes.toValue (h : Makes s x fun e s' => Holds w s' bound e v) (le : bound ≤ 6) :
    Makes s x fun e s' => Value w s' m e v :=
  imp h fun _ _ ⟨advances, holds⟩ => ⟨advances, (holds.weaken le).toValue⟩

lemma onRegisters_value (ready : Ready w μ known s) (operand : o.operand.target = none)
    (result : o.result.target = none) (word : o.floating = false) {op f t l r m}
    (operation : op.word? = some f) (noShift : op ≠ .shiftLeft) (sources : ∀ x ∈ [l, r], x ∈ known) :
    Makes s (onRegisters o op 1 [.register t, .register l, .register r]) fun e s' =>
      Value w s' m e (f (μ.get l) (μ.get r)) :=
  (onRegisters_holds ready operand result word operation noShift (sources l (.head _))
    (sources r (.tail _ (.head _)))).toValue (by decide)

/-- What an instruction sets its register to. -/
lemma sets_of_op (ready : Ready w μ known s) (is : Op.ofInstruction? i = some op)
    (target : op.target? = some r) (sources : ∀ r ∈ op.sources, r ∈ known)
    (other : ∀ r ∈ op.addressed, s.frame.isStackRegister r = false) :
    ∃ rule v, op.step μ = μ.set r v ∧ Sets w s μ.memory i.mnemonic i.args rule r v := by
  obtain ⟨mnemonic, args, origin⟩ := i
  unfold Op.ofInstruction? at is
  dsimp only at is ⊢
  split at is
  case h_1 t l =>
    cases is
    cases target
    refine ⟨_, _, rfl, by decide, rfl, rfl, ?_⟩
    exact (valueAt_holds ready rfl (sources l (.head _))).toValue (by decide)
  case h_2 t n =>
    cases is
    cases target
    refine ⟨_, _, rfl, by decide, rfl, rfl, ?_⟩
    refine imp (immediateAt_keeps (n := n) rfl) ?_
    rintro _ s1 ⟨kept, type, rfl⟩
    exact ⟨kept.advances, ((Holds.literal n type).weaken (by decide)).toValue⟩
  case h_3 t l r' =>
    cases is
    cases target
    refine ⟨_, _, rfl, by decide, rfl, rfl, ?_⟩
    exact (add_holds ready (sources l (.head _)) (sources r' (.tail _ (.head _)))
      (other l (.head _)) (other r' (.tail _ (.head _)))).toValue (by decide)
  case h_4 t l r' =>
    cases is
    cases target
    refine ⟨_, _, rfl, by decide, rfl, rfl, ?_⟩
    refine (folded_holds ready.consistent ?_).toValue (by decide)
    refine imp (onRegisters_holds ready rfl rfl rfl rfl (by decide) (sources l (.head _))
      (sources r' (.tail _ (.head _)))) fun _ _ ⟨advances, holds⟩ => ⟨advances, holds.weaken (by decide)⟩
  case h_5 t l r' | h_6 t l r' | h_7 t l r' =>
    cases is
    cases target
    exact ⟨_, _, rfl, by decide, rfl, rfl, onRegisters_value ready rfl rfl rfl rfl (by decide) sources⟩
  case h_8 t l n =>
    cases is
    cases target
    refine ⟨_, _, rfl, by decide, rfl, rfl, ?_⟩
    exact (addSigned_holds ready (sources l (.head _)) (other l (.head _))).toValue (by decide)
  case h_9 t l n =>
    split at is
    case isTrue bounds =>
      cases is
      cases target
      refine ⟨_, _, rfl, by decide, rfl, rfl, ?_⟩
      exact (folded_holds ready.consistent
        (shiftLeft_holds ready bounds.1 bounds.2 (sources l (.head _)))).toValue (by decide)
    case isFalse => cases is
  case h_10 t operand =>
    obtain ⟨⟨base, n⟩, place, rfl⟩ := map_eq_some_iff.1 is
    cases target
    refine ⟨_, _, rfl, by decide, rfl, rfl, ?_⟩
    exact load_value ready place (sources base (.head _)) (other base (.head _)) μ.memory
  case h_11 t operand =>
    obtain ⟨_, _, rfl⟩ := map_eq_some_iff.1 is
    cases target
  case h_12 => cases is

lemma stores_of_op (is : Op.ofInstruction? i = some op) (target : op.target? = none) :
    ∃ source base offset operand, op = .sw source base offset ∧ i.mnemonic = "sw" ∧
      i.args = [.register source, operand] ∧ Op.place? operand = some (base, offset) := by
  obtain ⟨mnemonic, args, origin⟩ := i
  unfold Op.ofInstruction? at is
  dsimp only at is ⊢
  split at is
  case h_9 =>
    split at is
    · cases is
      cases target
    · cases is
  case h_10 =>
    obtain ⟨_, _, rfl⟩ := map_eq_some_iff.1 is
    cases target
  case h_11 source operand =>
    obtain ⟨⟨base, offset⟩, place, rfl⟩ := map_eq_some_iff.1 is
    exact ⟨source, base, offset, operand, rfl, rfl, rfl, place⟩
  all_goals
    cases is
    try cases target

/-- Evaluating an instruction goes along with running it. -/
lemma runInstruction_running (h : Running start m0 known μ vals s) (link : Flow.Link)
    (is : Op.ofInstruction? i = some op)
    (general : ∀ r ∈ op.target?.toList ++ known, r ∈ generalRegisters)
    (sources : ∀ r ∈ op.sources, r ∈ known)
    (other : ∀ r ∈ op.addressed, s.frame.isStackRegister r = false) :
    Ensures s (runInstruction link i) fun _ s' =>
      (∃ vals, Running start m0 (op.target?.toList ++ known) (op.step μ) vals s') ∧ s.Beside s' := by
  cases target : op.target? with
  | some r =>
    obtain ⟨rule, v, step, sets⟩ := sets_of_op h.ready is target sources other
    obtain ⟨act, single⟩ := action_of_setting sets.mem sets.found
    rw [step]
    rw [target] at general
    unfold runInstruction
    rw [act]
    refine .ok (registerAt_eq sets.register) ?_
    refine bind sets.value fun e s1 ⟨advances, value⟩ => ?_
    have running := h.advances advances
    have beside := Beside.of_advances advances
    rw [← view_advances advances] at value
    refine (assign_running running general value).bind fun _ s2 ⟨running, beside'⟩ => ?_
    rw [single]
    exact .pure ⟨running, beside.trans beside'⟩
  | none =>
    obtain ⟨source, base, offset, operand, rfl, mnemonic, args, place⟩ := stores_of_op is target
    unfold runInstruction
    rw [mnemonic, args]
    have stores := store_accesses h.ready place (sources source (.head _))
      (sources base (.tail _ (.head _))) (other base (.head _))
    refine bind stores ?_
    rintro _ s1 ⟨advances, value, dest, rfl, holds, accesses⟩
    have running := h.advances advances
    have beside := Beside.of_advances advances
    rw [← view_advances advances] at holds accesses
    refine (runStore_running running holds accesses).imp fun _ s2 ⟨running, beside'⟩ => ?_
    exact ⟨⟨vals, running⟩, beside.trans beside'⟩

end

end Decompiler.Eval
