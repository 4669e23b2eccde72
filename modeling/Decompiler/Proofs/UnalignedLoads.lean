import Decompiler.Proofs.StackArguments

/-!
# Loads in two parts

A word that is not aligned is loaded by two instructions, one for its upper and one for its lower
bytes. They are read as one load if the second offset is the first one plus three; that both start
from the same base is not looked at. Between them the upper bytes may be moved to other registers:
see `Hands`.

Main statement: `loadLowerBytes_completes`.
-/

namespace Decompiler.Eval

open Asm Code Infer Decompiler.Flow Session

/-- Two operands that name one base: a symbol, or a register that is left alone. -/
inductive SameBase (kept : Register → Prop) : Address → Address → Prop
  | register {k k' r} :
    kept r →
    SameBase kept (.atRegister k r) (.atRegister k' r)
  | symbol {k k' name} :
    SameBase kept (.atSymbol k name) (.atSymbol k' name)

/-- The word at which an operand points, where registers have the words of what they hold. -/
inductive Session.PointsAt (s : Session) (w : Valuation) : Address → Word → Prop
  | register {k r x} :
    s.Reads r x →
    s.PointsAt w (.atRegister k r) (x.word w + .ofInt 32 k)
  | symbol :
    s.PointsAt w (.atSymbol k name) (w.leaf (.symbol name t) + .ofInt 32 k)

/-- An expression that is another one, perhaps behind temporaries. -/
inductive Session.LeadsTo (s : Session) (u : Expr) : Expr → Prop
  | here :
    s.LeadsTo u u
  | temp {id t e} :
    s.values[id]? = some e →
    s.LeadsTo u e →
    s.LeadsTo u (.temp id t)

section

variable {s s' : Session} {u : Expr}

lemma Session.LeadsTo.mono (h : s.LeadsTo u e) (values : s.values <+: s'.values) :
    s'.LeadsTo u e := by
  induction h with
  | here => exact .here
  | temp found _ ih =>
    obtain ⟨more, whole⟩ := values
    refine .temp ?_ ih
    rw [← whole, List.getElem?_append_left (getElem?_eq_some_iff.1 found).1, found]

lemma openedFrom_plain (plain : ∀ id t, u ≠ .temp id t) (fuel : Nat) : s.openedFrom fuel u = u := by
  cases fuel with
  | zero => rfl
  | succ fuel =>
    rw [openedFrom]
    exact plain

lemma Session.LeadsTo.openedFrom (h : s.LeadsTo u e) (upper : upperBytes? u = some p)
    (found : upperBytes? (s.openedFrom fuel e) = some q) : p = q := by
  induction h generalizing fuel with
  | here =>
    rw [openedFrom_plain (by rintro _ _ rfl; cases upper), upper] at found
    exact Option.some.inj found
  | temp value _ ih =>
    cases fuel with
    | zero => cases found
    | succ fuel =>
      rw [Session.openedFrom] at found
      split at found
      · refine @ih fuel ?_
        rwa [← Session.value, value_of_values value] at found
      · cases found

lemma loadUpperBytes_spec : Ensures s (loadUpperBytes args) fun u _ =>
    ∃ a e, addressAt args 1 = .ok a ∧ upperBytes? u = some (e, a.offset) := by
  refine .bind_lift fun a address => .skip fun e _ => ?_
  cases a with
  | atRegister offset base => exact .skip fun _ _ => .skip fun _ _ => .pure ⟨_, e, address, rfl⟩
  | atSymbol offset name => exact .skip fun _ _ => .pure ⟨_, e, address, rfl⟩

lemma loadLowerBytes_unaligned : Ensures s (loadLowerBytes args old) fun v _ => ∀ e t,
    v = .unaligned e t →
      ∃ a, addressAt args 1 = .ok a ∧ upperBytes? (s.opened old) = some (e, a.offset - 3) := by
  refine .get (.bind_lift fun a address => ?_)
  cases a
  on_goal 1 => refine .skip fun _ _ => ?_
  all_goals
    dsimp only
    split
    on_goal 1 =>
      rename_i e offset found
      refine .ite (fun behind => .skip fun t _ => .pure ?_) fun _ => ?_
      · rintro _ _ ⟨⟩
        exact ⟨_, address, eq_of_beq behind ▸ found⟩
    all_goals
      refine .ite (fun _ => .skip fun _ _ => .skip fun _ _ => .pure (by simp)) fun _ => ?_
      exact .skip fun _ _ => .pure (by simp)

lemma Session.Noted.values_eq (noted : s.Noted s') : s'.values = s.values := by
  simpa [Session.values] using congrArg Array.toList noted.values

/-- A register that holds an expression behind temporaries. -/
def Session.Carries (s : Session) (r : Register) (u : Expr) : Prop :=
  ∃ id t, (s.work.registers.get? r = some (.temp id t) ∨
    s.work.registers.get? r = some (.forced id t)) ∧ s.LeadsTo u (.temp id t)

lemma Session.Retains.carries (h : Retains r s s') (carries : s.Carries r u) : s'.Carries r u := by
  obtain ⟨id, t, held, leads⟩ := carries
  rcases h.content with same | ⟨e, id', t', held', plain, forced, stands⟩
  · exact ⟨id, t, by rwa [same], leads.mono h.values⟩
  · refine ⟨id', t', .inr forced, ?_⟩
    rcases held with held | held <;> cases held.symm.trans held'
    · rcases stands with same | value
      · cases same
        exact leads.mono h.values
      · exact .temp value (leads.mono h.values)
    · cases plain

lemma read_carries (other : r ≠ .zero) (h : s.Carries r u) :
    Ensures s (read r) fun old s' => s'.LeadsTo u old := by
  obtain ⟨id, t, held, leads⟩ := h
  refine .get (.ite (fun zero => absurd (eq_of_beq zero) other) fun _ => ?_)
  rcases held with held | held <;> rw [held]
  · exact .pure leads
  · refine use_noting.noted.ensures.bind fun _ s1 noted => .pure ?_
    exact leads.mono (noted.values_eq ▸ List.prefix_rfl)

lemma Session.LeadsTo.plain (h : s.LeadsTo u e) (upper : upperBytes? u = some p) :
    (∀ place t, e ≠ .stackVar place t) ∧ e.isLiteral = false := by
  cases h with
  | here =>
    cases u with
    | upperBytes | upperBytesAt => exact ⟨by rintro _ _ ⟨⟩, rfl⟩
    | _ => cases upper
  | temp => exact ⟨by rintro _ _ ⟨⟩, rfl⟩

/-- A register that is assigned the upper bytes carries them. -/
lemma assign_carries (other : r ≠ .zero) (upper : upperBytes? u = some p) (leads : s.LeadsTo u e) :
    Ensures s (assign r e) fun _ s' => s'.Carries r u := by
  obtain ⟨elsewhere, open'⟩ := leads.plain upper
  rw [assign_eq elsewhere, open']
  refine newTemp_withTemp.bind ?_
  rintro _ _ ⟨t, rfl, rfl, value, -⟩
  refine .ite (fun zero => absurd (eq_of_beq zero) other) fun _ => ?_
  have leads (w : Work) : LeadsTo { s.withTemp t with work := w } u
      (.temp s.temps.size e.type) := by
    refine .temp (e := e) (by simp [values, withTemp, value]) (leads.mono ?_)
    simp [values, withTemp]
  refine (hold_withRegister r _).bind ?_
  rintro _ _ ⟨-, rfl⟩
  refine .ite (fun result => ?_) fun _ => .pure ⟨_, _, .inl ?_, leads _⟩
  · refine (hold_withRegister _ _).bind ?_
    rintro _ _ ⟨-, rfl⟩
    refine .modify ⟨_, _, .inl ?_, leads _⟩
    simp [withRegister, Table.get?_insert]
  · simp [withRegister, Table.get?_insert]

end

/-- What a register holds at first is in another one behind instructions that leave it alone or move
it on. -/
inductive Hands : Register → List Instruction → Register → Prop
  | done {r} :
    Hands r [] r
  | keep {i is r r'} :
    ¬ MayWrite none i r →
    Hands r is r' →
    Hands r (i :: is) r'
  | move {i is r r' r₁} :
    i.mnemonic = "move" →
    registerAt i.args 1 = .ok r →
    registerAt i.args 0 = .ok r₁ →
    r ≠ .zero →
    r₁ ≠ .zero →
    Hands r₁ is r' →
    Hands r (i :: is) r'

lemma Hands.zero_iff (h : Hands r is r') : r = .zero ↔ r' = .zero := by
  induction h with
  | done => exact Iff.rfl
  | keep _ _ ih => exact ih
  | move _ _ _ other other' _ ih => exact (iff_of_false other other').trans ih

section

variable {link : Link} {is : List Instruction} {i : Instruction} {s s1 s2 : Session} {r : Register}

lemma runInstruction_retains (unset : ¬ MayWrite none i r) :
    Ensures s (runInstruction link i) fun _ s' => Retains r s s' := by
  have others : ∀ r', MayWrite none i r' → r' ≠ r := by
    rintro r' may rfl
    exact unset may
  exact ((runInstruction_doing (fun _ => trivial) others link).respects (retains_allows r)).ensures

lemma Runs.retains (h : Runs link is s s1) (unset : ∀ i ∈ is, ¬ MayWrite none i r) :
    Retains r s s1 := by
  induction h with
  | nil => exact refl_of _ _
  | cons first _ ih =>
    obtain ⟨here, later⟩ := List.forall_mem_cons.1 unset
    exact trans_of _ (runInstruction_retains here _ _ first) (ih later)

lemma upperLoad_carries (isUpper : i.mnemonic = "lwl") (target : registerAt i.args 0 = .ok r)
    (other : r ≠ .zero) : Ensures s (runInstruction link i) fun _ s' =>
      ∃ a e u, addressAt i.args 1 = .ok a ∧ upperBytes? u = some (e, a.offset) ∧ s'.Carries r u := by
  unfold runInstruction
  rw [isUpper]
  refine .ok target (loadUpperBytes_spec.bind fun u s1 ⟨a, e, address, upper⟩ => ?_)
  refine (assign_carries other upper .here).bind fun _ s2 carries => ?_
  exact .pure ⟨a, e, u, address, upper, carries⟩

/-- What a register holds is moved to another one. -/
lemma move_carries {p r'} (isMove : i.mnemonic = "move") (source : registerAt i.args 1 = .ok r)
    (target : registerAt i.args 0 = .ok r') (other : r ≠ .zero) (other' : r' ≠ .zero)
    (upper : upperBytes? u = some p) (carries : s.Carries r u) :
    Ensures s (runInstruction link i) fun _ s' => s'.Carries r' u := by
  unfold runInstruction
  rw [isMove]
  refine .ok target ?_
  dsimp only
  rw [valueAt_register (registerAt_ok source)]
  refine (read_carries other carries).bind fun old s1 leads => ?_
  exact (assign_carries other' upper leads).bind fun _ s2 carries => .pure carries

lemma Runs.carries {p} (h : Runs link is s s1) (hands : Hands r is r')
    (upper : upperBytes? u = some p) (carries : s.Carries r u) : s1.Carries r' u := by
  induction hands generalizing s with
  | done =>
    cases h
    exact carries
  | keep unset _ ih =>
    cases h with
    | cons first later => exact ih later ((runInstruction_retains unset _ _ first).carries carries)
  | move isMove source target other other' _ ih =>
    cases h with
    | cons first later =>
      exact ih later (move_carries isMove source target other other' upper carries _ _ first)

/-- The second address is three behind the first. -/
lemma Session.PointsAt.retains
    (h : s.PointsAt w a p) (same : SameBase kept a a') (valued : s1.Valued w)
    (retains : ∀ r, kept r → Retains r s s1) (next : a'.offset = a.offset + 3) :
    s1.PointsAt w a' (p + 3) := by
  have step (k : Int) (v : Word) : v + .ofInt 32 k + 3 = v + .ofInt 32 (k + 3) := by
    rw [BitVec.ofInt_add, ← add_assoc]
    rfl
  cases same with
  | @register k k' r free =>
    obtain rfl : k' = k + 3 := next
    cases h with
    | register reads =>
      rw [step]
      cases reads with
      | zero => exact .register .zero
      | content other content whole =>
        obtain ⟨x, held, whole, word⟩ := (retains r free).word_eq List.prefix_rfl valued content whole
        rw [← word]
        exact .register (.content other held whole)
  | symbol =>
    obtain rfl := next
    cases h with
    | symbol =>
      rw [step]
      exact .symbol

/-- A load that completes another one, into the same register or another one to which the upper bytes
were moved, starts three bytes behind it if both name one base. -/
theorem loadLowerBytes_completes {upper lower : Instruction} {between : List Instruction}
    {e : Expr} {type : TypeId} {r' : Register} (isUpper : upper.mnemonic = "lwl")
    (target : registerAt upper.args 0 = .ok r) (target' : registerAt lower.args 0 = .ok r')
    (runs : Runs link (upper :: between) s s₁) (hands : Hands r between r')
    (found : (do loadLowerBytes lower.args (← valueAt lower.args 0)).run s₁ =
      (.ok (.unaligned e type), s₂)) :
    ∃ a a', addressAt upper.args 1 = .ok a ∧ addressAt lower.args 1 = .ok a' ∧
      a'.offset = a.offset + 3 ∧
      (SameBase (fun r => ∀ i ∈ upper :: between, ¬ MayWrite none i r) a a' →
        ∀ w p, s₁.Valued w → s.PointsAt w a p → s₁.PointsAt w a' (p + 3)) := by
  obtain ⟨old, s', read, lower⟩ := run_bind_ok found
  rw [valueAt_register (registerAt_ok target')] at read
  obtain ⟨a', address', opens⟩ := loadLowerBytes_unaligned _ _ lower _ _ rfl
  cases runs with
  | cons first later =>
    by_cases zero : r = .zero
    · obtain rfl := hands.zero_iff.1 zero
      obtain ⟨t, rfl⟩ := read_zero _ _ read
      rw [Session.opened, openedFrom_plain (u := .literal 0 t) nofun] at opens
      cases opens
    · obtain ⟨a, e', u, address, isUpper, carries⟩ := upperLoad_carries isUpper target zero _ _ first
      have leads := read_carries (hands.zero_iff.not.1 zero) (later.carries hands isUpper carries)
        _ _ read
      have offset : a.offset = a'.offset - 3 := congrArg Prod.snd (leads.openedFrom isUpper opens)
      have next : a'.offset = a.offset + 3 := by omega
      exact ⟨a, a', address, address', next, fun same w p valued points =>
        points.retains same valued (fun r free => (Runs.cons first later).retains free) next⟩

end

def upperLoad : Instruction :=
  ⟨"lwl", ["t0", .memory "a0"], .unknown⟩

def moveUpper : Instruction :=
  ⟨"move", ["t1", "t0"], .unknown⟩

def lowerLoad (target base : String) : Instruction :=
  ⟨"lwr", [target, .memoryAt (.literal 3) ⟨base⟩], .unknown⟩

def completed (target base : String) : Evaluation Expr := do
  loadLowerBytes (lowerLoad target base).args (← valueAt (lowerLoad target base).args 0)

def afterUpper : Session :=
  twoFunctions.after upperLoad

def afterMove : Session :=
  afterUpper.after moveUpper

def storedAddresses : Valuation :=
  { twoAddresses with temp := fun _ => 0 }

lemma storedAddresses_valued : afterMove.Valued storedAddresses := by
  have size : afterMove.temps.size = 2 := by decide +kernel
  have words : ∀ id < 2, 0 = (afterMove.value id).word storedAddresses := by decide +kernel
  intro id
  rcases Nat.lt_or_ge id 2 with lt | le
  · exact words id lt
  · rw [value, temp, Array.getD_eq_getD_getElem?, Array.getElem?_eq_none (by omega)]
    rfl

theorem loadLowerBytes_completes_next :
    ((completed "t1" "a0").run afterMove).1.toOption.map isUnaligned = some true ∧
      afterMove.PointsAt storedAddresses (.atRegister 3 ⟨"a0"⟩) (16 + .ofInt 32 0 + 3) := by
  have merged : ((completed "t1" "a0").run afterMove).1.toOption.map isUnaligned = some true := by
    decide +kernel
  refine ⟨merged, ?_⟩
  obtain ⟨v, ok, isUnaligned⟩ := Option.map_eq_some_iff.1 merged
  cases v with
  | unaligned e type =>
    have unset : ¬ MayWrite none upperLoad ⟨"a0"⟩ :=
      General.unset ⟨by decide, by decide⟩ rfl (by decide) (by decide)
    have unset' : ¬ MayWrite none moveUpper ⟨"a0"⟩ :=
      General.unset ⟨by decide, by decide⟩ rfl (by decide) (by decide)
    have runs : Runs (.next 0) [upperLoad, moveUpper] twoFunctions afterMove :=
      .cons (Session.run_after (by decide +kernel)) (.cons (Session.run_after (by decide +kernel)) .nil)
    have target : registerAt (lowerLoad "t1" "a0").args 0 = .ok ⟨"t1"⟩ := rfl
    obtain ⟨a, a', address, address', -, points⟩ := loadLowerBytes_completes rfl rfl target runs
      (.move rfl rfl rfl (by decide) (by decide) .done) (eq_of_toOption ok)
    cases address
    cases address'
    exact points (.register (by simp [unset, unset'])) storedAddresses _ storedAddresses_valued
      (.register (.content (x := .symbol "g" 0) (by decide) rfl nofun))
  | _ => cases isUnaligned

/-- The second load may start from another register. -/
theorem loadLowerBytes_not_completes :
    (((completed "t0" "t9").run afterUpper).1.toOption.map isUnaligned) = some true ∧
      addressAt upperLoad.args 1 = .ok (.atRegister 0 ⟨"a0"⟩) ∧
      addressAt (lowerLoad "t0" "t9").args 1 = .ok (.atRegister 3 ⟨"t9"⟩) ∧
      afterUpper.work.registers.get? ⟨"a0"⟩ = some (.symbol "g" 0) ∧
      afterUpper.work.registers.get? ⟨"t9"⟩ = some (.symbol "f" 0) := by
  refine ⟨by decide +kernel, rfl, rfl, by rfl, by rfl⟩

end Decompiler.Eval
