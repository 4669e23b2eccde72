import Decompiler.Proofs.Accesses
import Decompiler.Proofs.OperandText

/-!
# Symbols with offsets

A symbol or a section with a literal added or subtracted keeps its offset on every way from the text
to an address.

Main statement: `read_symbolOffset`.
-/

namespace Decompiler

open Asm Code Infer Text

namespace Asm.Operand

/-- A symbol or a section as it is written. -/
inductive IsBase : List Char → Operand → Prop
  | symbol :
    IsName name →
    IsBase name.toList (.symbol name)
  | inSection :
    name ∈ sections →
    IsBase ('.' :: name.toList) (.inSection name 0)

/-- Where the symbols lie and the sections start. -/
structure Layout where
  symbol : String → Int
  start : String → Int

def Layout.place (l : Layout) : Operand → Int
  | .symbol name => l.symbol name
  | .inSection name addend => l.start name + addend
  | _ => 0

lemma IsBase.start {text base rest n} (h : IsBase text base) (ends : Ends isWordChar rest) :
    readFrom (n + 1) none (text ++ rest) = readFrom n (some base) rest := by
  cases h with
  | symbol isName => exact readFrom_symbol isName ends
  | @inSection name known =>
    have word : ∀ c ∈ name.toList, isWordChar c = true := by
      apply List.all_eq_true.1
      revert name
      decide
    exact (readAt_dot word ends).trans (by rw [if_pos (by simpa using known)])

/-- A base with an offset is read as such. -/
lemma IsBase.read {text base op w n} (h : IsBase text base) (numeral : Integer.Denotes w n) :
    Operand.read (text ++ ' ' :: (op.text.toList ++ ' ' :: w)) =
      .ok (some (joined op n base)) := by
  have own : base.literal?.isSome || base.symbol?.isSome := by cases h <;> rfl
  have posBase : 0 < text.length := by
    cases h with
    | symbol isName => exact length_name_pos isName
    | inSection => exact Nat.succ_pos _
  have posSign := length_operator_pos op
  have posRight := List.length_pos_iff.2 numeral.ne_nil
  rw [Operand.read]
  -- The steps that the reader has are enough for the base, the operation and the literal in it.
  generalize steps : (text ++ ' ' :: (op.text.toList ++ ' ' :: w)).length + 1 = k
  simp only [List.length_append, List.length_cons] at steps
  obtain ⟨m, rfl⟩ : ∃ m, k = m + 6 := Nat.exists_eq_add_of_le' (by omega)
  have operation : readFrom (m + 5) (some base) (' ' :: (op.text.toList ++ ' ' :: (w ++ []))) = _ :=
    readFrom_operation own numeral stops_nil
  rw [List.append_nil] at operation
  rw [h.start (ends_cons rfl), operation]
  rfl

lemma address_of_symbolOffset? {o : Operand} {name offset}
    (h : o.symbolOffset? = some (name, offset)) : o.address = .ok (.atSymbol offset name) := by
  have whole : o.dropLowHalf = .ok o := by
    cases o with
    | half | memoryAt => cases h
    | _ => rfl
  simp only [address, whole, bind, Except.bind, h]
  rfl

lemma IsBase.symbolOffset? {text base op n} (h : IsBase text base) (sign : op = .add ∨ op = .sub)
    (kept : base.namesSection → op = .sub → n = 0) :
    ∃ base' name offset, base'.symbol? = some name ∧
      (joined op n base).symbolOffset? = some (name, offset) ∧
      ∀ l : Layout, op.apply (l.place base) n = .ok (l.place base' + offset) := by
  cases h with
  | symbol =>
    rcases sign with rfl | rfl
    · exact ⟨.symbol _, _, n, rfl, rfl, fun _ => rfl⟩
    · exact ⟨.symbol _, _, -n, rfl, rfl, fun _ => rfl⟩
  | @inSection name =>
    -- The literal goes into the addend, and nothing is left for the offset.
    refine ⟨.inSection name (0 + n), _, 0, rfl, rfl, fun l => ?_⟩
    rcases sign with rfl | rfl
    · exact congrArg Except.ok (by simp [Layout.place])
    · obtain rfl := kept rfl rfl
      exact congrArg Except.ok (by simp [Layout.place])

end Asm.Operand

namespace Eval

section

variable {s : Session} {name : String} {source : Expr}

lemma arrayAccess?_address (address : AddressOf name source) (n : Int) (size : Option Int)
    (takeAddress : Bool) :
    Ensures s (arrayAccess? source n size takeAddress) fun r _ => r = none := by
  have opened : s.opened source = source := openedFrom_of_ne (by cases address <;> simp)
  refine .bind_gets ?_
  rw [opened]
  cases address with
  | _ => exact .pure rfl

lemma sum_leads {l l' r r' : Expr} {t : TypeId} (left : Casted l l') (right : Casted r r')
    (w : Valuation) (s₀ s' : Session) :
    Leads w s₀ s' (.binary l' .add r' t false) (l.word w + r.word w) := by
  have value : (Expr.binary l' .add r' t false).word w = l'.word w + r'.word w := rfl
  rw [left.word_eq, right.word_eq] at value
  exact value ▸ .word

/-- An address in which the offset stands as that of a member or in a sum. -/
lemma pointerPlus_leads (address : AddressOf name source) (n : Int) (t : TypeId) :
    Ensures s (pointerPlus source n (.literal n t)) fun e _ =>
      ∀ w s₀ s', Leads w s₀ s' e (source.word w + .ofInt 32 n) := by
  have immediate {s : Session} {f : Expr → Evaluation Expr} {Q : Expr → Session → Prop}
      (next : ∀ imm s, Casted (.literal n t) imm → Ensures s (f imm) Q) :
      Ensures s (asNew (.literal n t) .integer >>= f) Q :=
    Ensures.bind (asNew_keeps _ rfl _) fun imm s1 kept => next imm s1 kept.2
  refine .get ?_
  -- What is done where no member and no element lies at the offset.
  generalize rest_eq : infer (pointerTarget? source.type) >>= _ = rest
  have behind (s : Session) : Ensures s rest fun e _ =>
      ∀ w s₀ s', Leads w s₀ s' e (source.word w + .ofInt 32 n) := by
    rw [← rest_eq]
    refine .skip fun target s => ?_
    cases target with
    | none => exact immediate fun _ _ casted => .skip fun _ _ => .pure (sum_leads (.inl rfl) casted)
    | some target =>
      refine .ite (fun _ => .bind_throw _) fun _ => .ite (fun _ => ?_) fun _ => ?_
      · exact immediate fun _ _ casted => .skip fun _ _ => .skip fun _ _ =>
          .pure (sum_leads (.inl rfl) casted)
      · exact immediate fun _ _ casted => .skip fun _ _ => .pure (sum_leads (.inl rfl) casted)
  refine .ite (fun _ => ?_) fun _ => behind _
  refine (arrayAccess?_address address n none true).bind ?_
  rintro _ s rfl
  refine .skip fun field s => .ite (fun _ => .ite (fun _ => ?_) fun _ => ?_) fun _ => behind _
  · refine (memberAt_adds _ _ _ _ _).imp ?_
    rintro _ _ ⟨-, _, rfl⟩ w s₀ s'
    exact .array .word
  · refine (memberAt_adds _ _ _ _ _).bind ?_
    rintro _ _ ⟨-, _, rfl⟩
    exact .pure fun w s₀ s' => .address (.member .word)

lemma plus_leads (address : AddressOf name source) (n : Int) (t : TypeId) :
    Ensures s (plus source (.literal n t)) fun e _ =>
      ∀ w s₀ s', Leads w s₀ s' e (source.word w + .ofInt 32 n) := by
  unfold plus
  split
  · rename_i zero
    cases zero
    exact .pure fun w s₀ s' => by simpa using .word
  · refine .skip fun pointer _ => .ite (fun _ => pointerPlus_leads address n t) fun _ => ?_
    split
    · cases address
    · refine Ensures.imp (apply_keeps rfl rfl _ _ _) ?_
      rintro _ _ ⟨-, _, _, _, same, casted, rfl⟩
      exact sum_leads same casted

end

lemma loadUpper_leads {s : Session} {name : String} {offset : Int} {o : Operand} (r : Register)
    (symbol : o.symbolOffset? = some (name, offset)) :
    Ensures s (loadUpper [.register r, .half .high o]) fun e s' => ∃ source s₀,
      (addressOfSymbol name).run s = (.ok source, s₀) ∧
        ∀ w, Leads w s₀ s' e (source.word w + .ofInt 32 offset) := by
  refine .ok rfl ?_
  dsimp only
  rw [symbol]
  intro e s' run
  obtain ⟨source, s₀, found, run⟩ := run_bind_ok run
  obtain ⟨_, s₁, literal, run⟩ := run_bind_ok run
  obtain ⟨-, t, rfl⟩ := literal_keeps offset _ _ literal
  obtain ⟨_, _, -, run⟩ := run_bind_ok run
  have address := addressOfSymbol_ensures name _ _ found
  exact ⟨source, s₀, found, fun w => plus_leads address offset t _ _ run w s₀ s'⟩

open Asm.Operand

/-- A symbol with an offset keeps it. So does a section, unless something is subtracted. -/
theorem read_symbolOffset {text w : List Char} {base : Operand} {op : Operator} {n : Int}
    (h : IsBase text base) (sign : op = .add ∨ op = .sub) (numeral : Integer.Denotes w n)
    (kept : base.namesSection → op = .sub → n = 0) :
    ∃ o base' name offset,
      Operand.read (text ++ ' ' :: (op.text.toList ++ ' ' :: w)) = .ok (some o) ∧
      base'.symbol? = some name ∧
      (∀ l : Layout, op.apply (l.place base) n = .ok (l.place base' + offset)) ∧
      o.address = .ok (.atSymbol offset name) ∧
      ∀ r s s' e, (loadUpper [.register r, .half .high o]).run s = (.ok e, s') →
        ∃ source s₀, (addressOfSymbol name).run s = (.ok source, s₀) ∧
          ∀ w, Leads w s₀ s' e (source.word w + .ofInt 32 offset) := by
  obtain ⟨base', name, offset, symbol, split, place⟩ := h.symbolOffset? sign kept
  exact ⟨_, base', name, offset, h.read numeral, symbol, place, address_of_symbolOffset? split,
    fun r s s' e run => loadUpper_leads r split e s' run⟩

theorem read_symbolOffset_data :
    ∃ o base' name offset, Operand.read ".data + 4".toList = .ok (some o) ∧
      base'.symbol? = some name ∧
      (∀ l : Layout, Operator.add.apply (l.place (.inSection "data" 0)) 4 =
        .ok (l.place base' + offset)) ∧
      o.address = .ok (.atSymbol offset name) ∧
      ∀ r s s' e, (loadUpper [.register r, .half .high o]).run s = (.ok e, s') →
        ∃ source s₀, (addressOfSymbol name).run s = (.ok source, s₀) ∧
          ∀ w, Leads w s₀ s' e (source.word w + .ofInt 32 offset) := by
  have isBase : IsBase ('.' :: "data".toList) (.inSection "data" 0) := .inSection (by decide)
  have numeral : Integer.Denotes ['4'] 4 :=
    .plain (n := 4) (.decimal (.single ⟨by decide, .inl rfl⟩) (by simp))
  have text : ".data + 4".toList =
      ('.' :: "data".toList) ++ ' ' :: (Operator.add.text.toList ++ ' ' :: ['4']) := by
    decide
  rw [text]
  exact read_symbolOffset isBase (.inl rfl) numeral (by simp)

/-- What is subtracted from the start of a section is added to it. -/
theorem read_sectionMinus :
    Operand.read ".data - 4".toList = .ok (some (.inSection "data" 4)) ∧
      ∀ l : Layout, l.place (.inSection "data" 4) ≠ l.place (.inSection "data" 0) - 4 := by
  refine ⟨by decide +kernel, fun l => ?_⟩
  simp only [Layout.place]
  omega

end Eval

end Decompiler
