import Decompiler.Proofs.GraphShape

/-!
# The shape of blocks

A block is cut behind the delay slot of a jump, so that there is no other jump in it, and visiting the
blocks never meets one with several jumps.

Main statement: `blocks_shaped`.
-/

namespace Decompiler.Flow

open Asm List

/-- Instructions without a jump, or those up to a jump and its delay slot. -/
inductive Shaped : List Instruction → Prop where
  | last {i} :
    i.isJump = false →
    Shaped [i]
  | jump {i slot} :
    slot.isJump = false →
    Shaped [i, slot]
  | cons {i is} :
    i.isJump = false →
    Shaped is →
    Shaped (i :: is)

namespace Shaped

lemma append (plain : ∀ i ∈ front, i.isJump = false) (h : Shaped is) : Shaped (front ++ is) := by
  induction front with
  | nil => exact h
  | cons i front ih =>
    obtain ⟨first, others⟩ := forall_mem_cons.1 plain
    exact .cons first (ih others)

/-- Instructions without a jump, then a jump and its delay slot, from the last one on. -/
lemma of_reversed (others : ∀ j ∈ is, j.isJump = false) (plain : slot.isJump = false) :
    Shaped (slot :: i :: is).reverse := by
  have shaped : Shaped (is.reverse ++ [i, slot]) := .append (by simpa using others) (.jump plain)
  simpa using shaped

lemma ne_nil (h : Shaped is) : is ≠ [] := by
  cases h <;> nofun

lemma filter_length (h : Shaped is) : (is.filter Instruction.isJump).length ≤ 1 := by
  induction h with
  | last plain => simp [plain]
  | jump plain =>
    simp only [filter_cons, plain]
    split <;> simp
  | cons plain _ ih => simpa [plain]

/-- Only its delay slot stands behind a jump. -/
lemma behind {i} (h : Shaped (front ++ i :: back)) (jumps : i.isJump) :
    ∃ slot, back = [slot] ∧ slot.isJump = false := by
  induction front with
  | nil =>
    cases h with
    | jump plain => exact ⟨_, rfl, plain⟩
    | last plain | cons plain => simp [jumps] at plain
  | cons first front ih =>
    rw [cons_append] at h
    generalize whole : front ++ i :: back = is at h ih
    cases h with
    | last => simp at whole
    | jump plain =>
      obtain ⟨rfl, e⟩ | ⟨_, rfl, e⟩ := append_eq_cons_iff.1 whole
      · cases e
        simp [jumps] at plain
      · simp at e
    | cons _ h => exact ih h

end Shaped

def Cutter.Neat (c : Cutter) : Prop :=
  (∀ b ∈ c.blocks, Shaped b.instructions) ∧ ∀ i ∈ c.current, i.isJump = false

lemma not_jump_of_plain {i : Instruction} (plain : i.hasDelaySlot = false) : i.isJump = false := by
  by_contra jumps
  rw [hasDelaySlot_of_isJump (Bool.not_eq_false _ ▸ jumps)] at plain
  cases plain

namespace Cutter

variable {c c' : Cutter} {i slot : Instruction}

lemma Neat.add (h : c.Neat) (plain : i.isJump = false) : (c.add i).Neat :=
  ⟨h.1, forall_mem_cons.2 ⟨plain, h.2⟩⟩

lemma Neat.cut (h : c.Neat) : c.cut.Neat := by
  by_cases none : c.current = []
  · rwa [cut_of_nil none]
  · obtain ⟨b, blocks, instructions, current⟩ := cut_of_ne none
    refine ⟨blocks ▸ forall_mem_cons.2 ⟨instructions ▸ ?_, h.1⟩, current ▸ forall_mem_nil _⟩
    obtain ⟨i, is, whole⟩ := exists_cons_of_ne_nil none
    obtain ⟨last, others⟩ := forall_mem_cons.1 (whole ▸ h.2)
    rw [whole, reverse_cons]
    exact .append (by simpa using others) (.last last)

lemma Neat.jump (h : c.Neat) (i : Instruction) (plain : slot.isJump = false) :
    ((c.add i).add slot).cut.Neat := by
  obtain ⟨b, blocks, instructions, current⟩ := cut_of_ne (c := (c.add i).add slot) nofun
  refine ⟨blocks ▸ forall_mem_cons.2 ⟨?_, h.1⟩, current ▸ forall_mem_nil _⟩
  rw [instructions]
  exact .of_reversed h.2 plain

lemma Neat.setLabel (h : c.Neat) (set : c.setLabel name = .ok c') : c'.Neat := by
  rcases setLabel_cases set with rfl | ⟨blocks, current⟩
  · exact h
  · exact ⟨blocks ▸ h.1, current ▸ h.2⟩

lemma Takes.neat (takes : Takes c i slot c') (plain : slot.isJump = false) (h : c.Neat) :
    c'.Neat := by
  cases takes with
  | call stays => exact (h.add plain).add stays
  | jump => exact h.jump i plain
  | likely =>
    have nop := not_jump_of_plain (i := .derived "nop" [] i) (nop_plain rfl)
    obtain ⟨b, b1, b2, around, blocks, first, slot, skip, current⟩ := expand_blocks c i slot _ _
    have last : Shaped b2.instructions := skip ▸ .last nop
    have middle : Shaped b1.instructions := slot ▸ .cons plain (.jump nop)
    have first : Shaped b.instructions := first ▸ .of_reversed h.2 nop
    refine ⟨?_, current ▸ nofun⟩
    rw [blocks]
    exact forall_mem_cons.2 ⟨last, forall_mem_cons.2 ⟨middle, forall_mem_cons.2 ⟨first, h.1⟩⟩⟩

lemma Reads.neat {items} (reads : Reads c items c') (h : c.Neat) : c'.Neat := by
  induction reads with
  | done => exact h
  | label set _ ih => exact ih (h.cut.setLabel set)
  | plain plain _ ih => exact ih (h.add (not_jump_of_plain plain))
  | slot plain takes _ ih | labelled plain takes _ ih =>
    exact ih (takes.neat (not_jump_of_plain plain) h)

end Cutter

lemma blocks_neat {mentioned body blocks console console'}
    (h : (Flow.blocks mentioned body).run console = (.ok blocks, console')) :
    ∀ b ∈ blocks, Shaped b.instructions := by
  obtain ⟨_, c, reads, rfl⟩ := blocks_finished h
  have neat : c.Neat := reads.neat ⟨nofun, nofun⟩
  unfold Cutter.finished
  split
  · exact fun b mem => neat.1 b (mem_reverse.1 mem)
  · exact fun b mem => (neat.jump _ (not_jump_of_plain (nop_plain rfl))).1 b (mem_reverse.1 mem)

def tooManyJumps : Failure :=
  .broken "too many jump instructions in one block"

section

variable {blocks : Array Block} {rodata : Rodata} {α β γ : Type}

lemma bind_ne {x : Except Failure α} {f : α → Except Failure β} (first : x ≠ .error e)
    (others : ∀ a, f a ≠ .error e) : (x >>= f) ≠ .error e := by
  cases x with
  | error e' => exact fun same => first (by cases same; rfl)
  | ok a => exact others a

lemma foldlM_ne {l : List γ} {f : β → γ → Except Failure β} (each : ∀ b a, f b a ≠ .error e) :
    l.foldlM f b ≠ .error e := by
  induction l generalizing b with
  | nil => exact nofun
  | cons a l ih => exact bind_ne (each b a) fun b => ih

/-- Only a block with several jumps is refused as such. -/
lemma visit_ne (shaped : ∀ b ∈ blocks, (b.instructions.filter Instruction.isJump).length ≤ 1) :
    visit blocks rodata depth k d ≠ .error tooManyJumps := by
  induction depth generalizing k d with
  | zero => rintro ⟨⟩
  | succ depth ih =>
    have arg (i : Instruction) : i.arg 0 ≠ .error tooManyJumps := by
      unfold Instruction.arg
      split <;> rintro ⟨⟩
    have target (i : Instruction) : i.target ≠ .error tooManyJumps := by
      unfold Instruction.target
      split <;> (try split) <;> rintro ⟨⟩
    have labels (b i) : selectedLabels rodata b i ≠ .error tooManyJumps := by
      unfold selectedLabels
      split <;> (try split) <;> rintro ⟨⟩
    unfold visit
    split
    · rintro ⟨⟩
    · split
      · rintro ⟨⟩
      case h_2 block found =>
        have few := shaped block (Array.mem_of_getElem? found)
        dsimp only
        split
        · split
          · rintro ⟨⟩
          · exact bind_ne ih (by rintro _ ⟨⟩)
        · split
          · refine bind_ne (arg _) fun a => ?_
            split
            · rintro ⟨⟩
            · refine bind_ne (labels _ _) fun ls => foldlM_ne fun d label => ?_
              split
              · rintro ⟨⟩
              · exact bind_ne ih (by rintro _ ⟨⟩)
          · refine bind_ne (target _) fun label => ?_
            split
            · rintro ⟨⟩
            · split
              · exact bind_ne ih (by rintro _ ⟨⟩)
              · split
                · rintro ⟨⟩
                · exact bind_ne ih fun _ => bind_ne ih (by rintro _ ⟨⟩)
        case h_3 none one =>
          cases jumps : block.instructions.filter Instruction.isJump with
          | nil => exact (none jumps).elim
          | cons i is =>
            cases is with
            | nil => exact (one i jumps).elim
            | cons i' is => simp [jumps] at few

end

/-- Every block has its number and is not empty. At most one of its instructions is a jump, with one
more instruction behind it, and that is no jump. So there are never too many jumps in a block. -/
theorem blocks_shaped {mentioned : List String} {body : List Item} {blocks : List Block}
    {console console' : Console}
    (h : (Flow.blocks mentioned body).run console = (.ok blocks, console')) :
    (∀ (k : Nat) b, blocks[k]? = some b → b.index = k ∧ b.instructions ≠ [] ∧
      (b.instructions.filter Instruction.isJump).length ≤ 1 ∧
      ∀ front jump back, b.instructions = front ++ jump :: back → jump.isJump →
        ∃ slot, back = [slot] ∧ slot.isJump = false) ∧
    ∀ rodata, reachableNodes blocks rodata ≠
      .error (.broken "too many jump instructions in one block") := by
  have shaped := blocks_neat h
  refine ⟨fun k b found => ?_, fun rodata => bind_ne (visit_ne fun b mem => ?_) nofun⟩
  · have shape := shaped b (mem_of_getElem? found)
    exact ⟨blocks_numbered h k b found, shape.ne_nil, shape.filter_length,
      fun front jump back whole => Shaped.behind (whole ▸ shape)⟩
  · exact (shaped b (by simpa using mem)).filter_length

theorem blocks_shaped_twoWays :
    ∃ blocks console, (Flow.blocks [] Graph.twoWays).run {} = (.ok blocks, console) ∧
      ∃ b, blocks[0]? = some b ∧ b.index = 0 ∧ b.instructions.length = 2 ∧
        (b.instructions.filter Instruction.isJump).length ≤ 1 := by
  have checked : (((Flow.blocks [] Graph.twoWays).run {}).1.toOption.any fun blocks =>
      blocks[0]?.any fun b => b.instructions.length == 2) = true := by cbv
  generalize run : (Flow.blocks [] Graph.twoWays).run {} = r at checked
  obtain ⟨_ | blocks, console⟩ := r
  · cases checked
  · obtain ⟨b, found, length⟩ := (Option.any_eq_true _ _).1 (show blocks[0]?.any _ = true from checked)
    obtain ⟨index, -, few, -⟩ := (blocks_shaped run).1 0 b found
    exact ⟨blocks, console, rfl, b, found, index, eq_of_beq length, few⟩

end Decompiler.Flow
