import Decompiler.Flow.Block
import Decompiler.Proofs.Likely
import Decompiler.Proofs.Steps

/-!
# Cutting a body into blocks

How the cutter takes in the items of a body, one after the other: `Cutter.Reads`. An instruction with
a delay slot is taken in together with the slot (`Cutter.Takes`), which moves in front of a call, and
a labelled slot is taken in once more behind its label.
-/

namespace Decompiler.Flow

open Asm List

namespace Cutter

/-- What is in the current block becomes the next block. -/
lemma cut_of_ne {c : Cutter} (h : c.current ≠ []) :
    ∃ b, c.cut.blocks = b :: c.blocks ∧ b.instructions = c.current.reverse ∧ c.cut.current = [] := by
  rw [cut, if_neg (by simpa using h)]
  exact ⟨_, rfl, rfl, rfl⟩

lemma cut_of_nil {c : Cutter} (h : c.current = []) : c.cut = c := by
  rw [cut, if_pos (by simpa using h)]

/-- A likely branch and its delay slot as they are taken in: the inverse branch skips a block with
the slot and a jump to the target. -/
def expand (c : Cutter) (branch slot : Instruction) (target inverse : String) : Cutter :=
  let skip := target ++ "_branchlikelyskip_" ++ toString (c.likelyTargets.count target + 1)
  let around := Instruction.derived inverse (branch.args.dropLast ++ [.target skip]) branch
  let nop := Instruction.derived "nop" [] branch
  let c := { c with likelyTargets := target :: c.likelyTargets }
  let c := ((c.add around).add nop).cut
  let c := (((c.add slot).add (.derived "b" [.target target] branch)).add nop).cut
  ({ c with label := some skip, lastLabel := skip, count := 0 }.add nop).cut

/-- How an instruction is taken in together with its delay slot. -/
inductive Takes (c : Cutter) (i slot : Instruction) : Cutter → Prop where
  | call :
    i.isJump = false →
    Takes c i slot ((c.add slot).add i)
  | jump :
    i.isLikelyBranch = false →
    Takes c i slot ((c.add i).add slot).cut
  | likely :
    i.isLikelyBranch →
    Takes c i slot (c.expand i slot target inverse)

lemma likelyBranch_expand {c c' : Cutter} {branch slot} (h : c.likelyBranch branch slot = .ok c') :
    ∃ target inverse, c.expand branch slot target inverse = c'.cut := by
  unfold likelyBranch at h
  obtain ⟨target, -, h⟩ := bind_ok h
  obtain ⟨inverse, -, h⟩ := bind_ok h
  refine ⟨target, inverse, ?_⟩
  simp only [bind, count_cons_self] at h
  cases h
  rfl

/-- An instruction and its delay slot are taken in together. -/
lemma withSlot_takes (delay : i.hasDelaySlot) (h : c.withSlot i slot = .ok c') :
    slot.hasDelaySlot = false ∧ Takes c i slot c' := by
  unfold withSlot at h
  dsimp only at h
  split at h
  · cases h
  case isFalse plain =>
    refine ⟨Bool.eq_false_iff.2 plain, ?_⟩
    split at h
    case isTrue likely =>
      obtain ⟨c1, e, h⟩ := bind_ok h
      obtain ⟨target, inverse, eq⟩ := likelyBranch_expand e
      rw [if_pos (isJump_of_isBranch (isBranch_of_likely likely)), ← eq] at h
      cases h
      exact .likely likely
    case isFalse unlikely =>
      have unlikely := Bool.eq_false_iff.2 unlikely
      split at h
      case isTrue called =>
        have stays : i.isJump = false := by
          rw [Instruction.isJump, Instruction.isBranch, unlikely]
          rcases Bool.or_eq_true_iff.1 called with e | e
          all_goals
            rw [eq_of_beq e]
            decide +kernel
        simp only [stays] at h
        split at h
        · cases h
          exact .call stays
        · obtain ⟨_, -, h⟩ := bind_ok h
          split at h <;> cases h
          exact .call stays
      case isFalse other =>
        rw [Instruction.hasDelaySlot, Bool.or_assoc, Bool.or_eq_true] at delay
        have jump : i.isJump := delay.resolve_right other
        simp only [pure_bind, jump, if_true] at h
        cases h
        exact .jump unlikely

/-- A likely branch fills three blocks: one that ends in the inverse branch, one with the delay slot,
and one to which the inverse branch goes. -/
lemma expand_blocks (c : Cutter) (branch slot : Instruction) (target inverse : String) :
    let nop := Instruction.derived "nop" [] branch
    let c' := c.expand branch slot target inverse
    ∃ b b1 b2 around, c'.blocks = b2 :: b1 :: b :: c.blocks ∧
      b.instructions = (nop :: around :: c.current).reverse ∧
      b1.instructions = [slot, .derived "b" [.target target] branch, nop] ∧
      b2.instructions = [nop] ∧ c'.current = [] :=
  ⟨_, _, _, _, rfl, rfl, rfl, rfl, rfl⟩

lemma setLabel_cases {c c' : Cutter} (h : c.setLabel name = .ok c') :
    c' = c ∨ c'.blocks = c.blocks ∧ c'.current = c.current := by
  unfold setLabel at h
  split at h
  · split_ifs at h <;> cases h
    exact .inl rfl
  · cases h
    exact .inr ⟨rfl, rfl⟩

/-- How the items of a body are taken in, one after the other. -/
inductive Reads : Cutter → List Item → Cutter → Prop where
  | done {c} :
    Reads c [] c
  | label {c c1 c' name rest} :
    c.cut.setLabel name = .ok c1 →
    Reads c1 rest c' →
    Reads c (.label name :: rest) c'
  | plain {c c' i rest} :
    i.hasDelaySlot = false →
    Reads (c.add i) rest c' →
    Reads c (.instruction i :: rest) c'
  | slot {c c1 c' i slot rest} :
    slot.hasDelaySlot = false →
    Takes c i slot c1 →
    Reads c1 rest c' →
    Reads c (.instruction i :: .instruction slot :: rest) c'
  | labelled {c c1 c' i name slot rest} :
    slot.hasDelaySlot = false →
    Takes c i slot c1 →
    Reads c1 (.label name :: .instruction slot :: rest) c' →
    Reads c (.instruction i :: .label name :: .instruction slot :: rest) c'

/-- The cutter takes in the items as `Reads` says, a labelled slot twice. -/
lemma items_reads {c c' items} (h : c.items items = .ok c') : Reads c items c' := by
  -- An instruction is taken in together with its delay slot, so the induction is on the length.
  induction len : items.length using Nat.strongRecOn generalizing items c with
  | ind n ih =>
  subst len
  rcases items with _ | ⟨name | i, rest⟩
  · rw [Cutter.items] at h
    cases h
    exact .done
  · rw [Cutter.items] at h
    obtain ⟨c1, set, h⟩ := bind_ok h
    exact .label set (ih _ (by simp) h rfl)
  · rw [Cutter.items.eq_def] at h
    cases delay : i.hasDelaySlot with
    | false =>
      simp only [delay] at h
      exact .plain delay (ih _ (by simp) h rfl)
    | true =>
      simp only [delay, Bool.not_true, Bool.false_eq_true, if_false] at h
      rcases rest with _ | ⟨name | slot, rest⟩
      · cases h
      · rcases rest with _ | ⟨_ | slot, rest⟩
        · cases h
        · cases h
        · dsimp only at h
          split at h
          · cases h
          obtain ⟨c1, e, h⟩ := bind_ok h
          obtain ⟨c2, set, h⟩ := bind_ok h
          obtain ⟨plain, takes⟩ := withSlot_takes delay e
          have reads := ih _ (by simp only [length_cons]; omega) h rfl
          exact .labelled plain takes (.label set (.plain plain reads))
      · obtain ⟨c1, e, h⟩ := bind_ok h
        obtain ⟨plain, takes⟩ := withSlot_takes delay e
        exact .slot plain takes (ih _ (by simp only [length_cons]; omega) h rfl)

/-- The blocks at the end: a labelled one that is still open returns. -/
def finished (c : Cutter) : List Block :=
  match c.label with
  | none => c.blocks.reverse
  | some _ =>
    ((c.add ⟨"jr", ["ra"], .unknown⟩).add ⟨"nop", [], .unknown⟩).cut.blocks.reverse

end Cutter

lemma cutBlocks_finished {body blocks console console'}
    (h : (cutBlocks body).run console = (.ok blocks, console')) :
    ∃ c, Cutter.items {} body = .ok c ∧ blocks = c.finished := by
  obtain ⟨c, _, e, h⟩ := run_bind_ok h
  refine ⟨c, lift_ok e, ?_⟩
  rw [Cutter.finished]
  cases label : c.label with
  | none | some name =>
    rw [label] at h
    cases h
    rfl

/-- Blocks come from reading some body, the given one in standard form. -/
lemma blocks_finished {mentioned body blocks console console'}
    (h : (Flow.blocks mentioned body).run console = (.ok blocks, console')) :
    ∃ body' c, Cutter.Reads {} body' c ∧ blocks = c.finished := by
  obtain ⟨_, _, -, h⟩ := run_bind_ok h
  obtain ⟨_, _, -, h⟩ := run_bind_ok h
  obtain ⟨_, _, -, h⟩ := run_bind_ok h
  obtain ⟨body', _, -, h⟩ := run_bind_ok h
  obtain ⟨c, e, same⟩ := cutBlocks_finished h
  exact ⟨body', c, Cutter.items_reads e, same⟩

end Decompiler.Flow
