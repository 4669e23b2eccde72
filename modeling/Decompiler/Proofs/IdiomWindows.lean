import Decompiler.Proofs.Likely
import Decompiler.Proofs.StraightGraph

/-!
# What the replacement of idioms deletes

Where an idiom is replaced, its branches are deleted, and some of its labels. The branches go to
labels of the idiom or to the label behind it, as far as their targets are looked at: of the two
branches of a signed division only one has to, and the conversion to an unsigned integer is not
checked at all. A label is deleted together with a branch to it; other branches may be left.

Main statement: `replaceIdioms_contained`.
-/

namespace Decompiler.Flow

open Asm List Shape

section

variable {shapes : List Shape} {window : List Item} {b : Instruction}

/-- A window that fits has one item for every shape. -/
lemma consumed?_some (plain : ∀ s ∈ shapes, s.isSkippable = false)
    (h : consumed? shapes window = .ok (some n)) :
    n = shapes.length ∧ Forall₂ (fun s x => s.isMatch x = .ok true) shapes (window.take n) := by
  induction shapes generalizing window n with
  | nil =>
    cases h
    exact ⟨rfl, .nil⟩
  | cons shape shapes ih =>
    obtain ⟨here, later⟩ := forall_mem_cons.1 plain
    cases window with
    | nil =>
      obtain ⟨fits, first, h⟩ := bind_ok h
      cases first
      rw [here] at h
      cases h
    | cons x window =>
      obtain ⟨fits, first, h⟩ := bind_ok h
      cases fits with
      | false =>
        rw [here] at h
        cases h
      | true =>
        obtain ⟨found, rest, h⟩ := bind_ok h
        cases found with
        | none => cases h
        | some k =>
          cases h
          obtain ⟨rfl, fit⟩ := ih later rest
          exact ⟨rfl, .cons first fit⟩

lemma matched?_some (plain : ∀ s ∈ shapes, s.isSkippable = false)
    (h : matched? shapes items = .ok (some window)) :
    window <+: items ∧ Forall₂ (fun s x => s.isMatch x = .ok true) shapes window := by
  obtain ⟨found, fit, h⟩ := bind_ok h
  cases found with
  | none => cases h
  | some n =>
    cases h
    have start {l : List Item} (n : Nat) : l.take n <+: l := ⟨_, take_append_drop n l⟩
    exact ⟨(start _).trans (start _), (consumed?_some plain fit).2⟩

lemma exists_mem_zip (h : Forall₂ R shapes window)
    (mem : x ∈ window) : ∃ s, (s, x) ∈ shapes.zip window ∧ R s x := by
  induction h with
  | nil => cases mem
  | cons here _ ih =>
    cases mem with
    | head => exact ⟨_, .head _, here⟩
    | tail _ mem =>
      obtain ⟨s, shape, rel⟩ := ih mem
      exact ⟨s, .tail _ shape, rel⟩

/-- Matches neither branches nor labels. -/
def Shape.isQuiet : Shape → Bool
  | .operation m => !(Instruction.mk m [] .unknown).isBranch
  | .temporary _ => true
  | _ => false

/-- An instruction that is no branch. -/
def NoBranch (x : Item) : Prop :=
  ∃ i, x = .instruction i ∧ i.isBranch = false

lemma isBranch_of_loadsTemporary (h : loadsTemporary value b = .ok true) : b.isBranch = false := by
  have names : ∀ m ∈ Instruction.plainBranches ++ Instruction.likelyBranches,
      ' ' ∉ m.toList ∧ m ≠ "li" := by decide
  have noSpace : ' ' ∉ "li".toList := by decide
  rw [Bool.eq_false_iff]
  intro branch
  have named : b.mnemonic ∈ Instruction.plainBranches ++ Instruction.likelyBranches := by
    simpa [Instruction.isBranch, Instruction.isLikelyBranch] using branch
  obtain ⟨oneWord, other⟩ := names _ named
  unfold loadsTemporary at h
  dsimp only at h
  split at h
  case isTrue same => exact other (mnemonic_of_text oneWord noSpace (eq_of_beq same))
  case isFalse =>
    obtain ⟨first, -, h⟩ := bind_ok h
    split at h
    · cases h
    · rw [beq_false_of_ne other] at h
      cases h

lemma quiet_of_match {s : Shape} (quiet : s.isQuiet)
    (fit : s.isMatch x = .ok true) : NoBranch x := by
  cases s with
  | operation m =>
    cases x with
    | label _ => cases fit
    | instruction i =>
      have same : i.mnemonic = m := eq_of_beq (Except.ok.inj fit)
      refine ⟨i, rfl, ?_⟩
      subst same
      exact Bool.not_eq_true' _ ▸ quiet
  | temporary value =>
    cases x with
    | label _ => cases fit
    | instruction i => exact ⟨i, rfl, isBranch_of_loadsTemporary fit⟩
  | _ => cases quiet

lemma goesTo_true (h : goesTo b l = .ok true) : b.target = .ok l := by
  obtain ⟨found, target, h⟩ := bind_ok h
  rw [target, eq_of_beq (Except.ok.inj h)]

lemma isBranch_of_match (fit : (operation m).isMatch (.instruction b) = .ok true)
    (branch : (Instruction.mk m [] .unknown).isBranch) : b.isBranch := by
  have same : b.mnemonic = m := eq_of_beq (Except.ok.inj fit)
  subst same
  exact branch

end

section

variable {items after others : List Item} {b : Instruction}

/-- The branches that are deleted with a window go to its labels or to the label behind it, and the
labels that are deleted have branches among them. -/
structure Contained (window new after : List Item) : Prop where
  branch : ∀ b, .instruction b ∈ window → b.isBranch = true → .instruction b ∉ new →
    ∃ l, b.target = .ok l ∧ (.label l ∈ window ∨ after.head? = some (.label l))
  label : ∀ l, .label l ∈ window → .label l ∉ new →
    ∃ b, .instruction b ∈ window ∧ b.isBranch = true ∧ b.target = .ok l

lemma Contained.of_quiet (quiet : ∀ x ∈ window, NoBranch x) : Contained window new after where
  branch b mem branch _ := by
    obtain ⟨_, same, plain⟩ := quiet _ mem
    cases same
    exact absurd branch (by rw [plain]; decide)
  label l mem _ := by
    obtain ⟨_, same, _⟩ := quiet _ mem
    cases same

lemma Contained.of_branch (branch : b.isBranch) (target : b.target = .ok l)
    (quiet : ∀ x ∈ others, NoBranch x ∨ x = .label l)
    (there : .label l ∈ others ∨ after.head? = some (.label l)) :
    Contained (.instruction b :: others) new after where
  branch b' mem branch' _ := by
    rcases mem_cons.1 mem with same | mem
    · cases same
      exact ⟨l, target, there.imp_left (.tail _)⟩
    · rcases quiet _ mem with ⟨_, same, plain⟩ | same <;> cases same
      exact absurd branch' (by rw [plain]; decide)
  label l' mem _ := by
    rcases mem_cons.1 mem with same | mem
    · cases same
    · rcases quiet _ mem with ⟨_, same, _⟩ | same <;> cases same
      exact ⟨b, .head _, branch, target⟩

/-- One branch to a label of the window, or right behind it, stays inside. -/
lemma Contained.of_matched
    (fit : matched? (.operation m :: shapes) items = .ok (some (.instruction b :: others)))
    (branch : (Instruction.mk m [] .unknown).isBranch)
    (quiet : ∀ s ∈ shapes, s.isQuiet ∨ s = .label) (target : b.target = .ok l)
    (only : ∀ p ∈ shapes.zip others, p.1 = .label → p.2 = .label l) (within : k ≤ others.length)
    (there : .label l ∈ others.take k ∨ (others.drop k).head? = some (.label l)) :
    Contained (items.take (k + 1)) new (items.drop (k + 1)) := by
  have plain : ∀ s ∈ operation m :: shapes, s.isSkippable = false := by
    refine forall_mem_cons.2 ⟨rfl, fun s mem => ?_⟩
    rcases quiet s mem with isQuiet | rfl
    · cases s with
      | operation | temporary => rfl
      | _ => cases isQuiet
    · rfl
  obtain ⟨⟨rest, rfl⟩, fits⟩ := matched?_some plain fit
  obtain ⟨first, fits⟩ := forall₂_cons.1 fits
  rw [cons_append, take_succ_cons, drop_succ_cons,
    take_append_of_le_length within, drop_append_of_le_length within]
  refine .of_branch (isBranch_of_match first branch) target (fun x mem => ?_)
    (there.imp_right fun next => by rw [head?_append, next]; rfl)
  obtain ⟨s, pair, fit⟩ := exists_mem_zip fits (mem_of_mem_take mem)
  rcases quiet s (of_mem_zip pair).1 with isQuiet | isLabel
  · exact .inl (quiet_of_match isQuiet fit)
  · exact .inr (only _ pair isLabel)

lemma unsigned_contained (h : unsignedDivisionCheck items = .ok (some (new, n)) ∨
    unsignedToFloat items = .ok (some (new, n))) :
    0 < n ∧ Contained (items.take n) new (items.drop n) := by
  rcases h with h | h
  all_goals
    obtain ⟨found, fit, h⟩ := bind_ok h
    split at h
    · obtain ⟨taken, goes, h⟩ := bind_ok h
      cases taken <;> cases h
      exact ⟨by decide, .of_matched fit rfl (by decide) (goesTo_true goes) (by simp) (by simp)
        (.inr rfl)⟩
    · cases h

lemma powerDivisionShifted_contained (h : powerDivisionShifted items = .ok (some (new, n))) :
    0 < n ∧ Contained (items.take n) new (items.drop n) := by
  obtain ⟨found, fit, h⟩ := bind_ok h
  split at h
  · obtain ⟨_, -, h⟩ := bind_ok h
    split at h
    · cases h
    obtain ⟨taken, goes, h⟩ := bind_ok h
    cases taken with
    | false => cases h
    | true =>
      obtain ⟨_, -, h⟩ := bind_ok h
      cases h
      exact ⟨by decide, .of_matched fit rfl (by decide) (goesTo_true goes) (by simp) (by simp)
        (.inr rfl)⟩
  · cases h

lemma powerDivisionMoved_contained (h : powerDivisionMoved items = .ok (some (new, n))) :
    0 < n ∧ Contained (items.take n) new (items.drop n) := by
  obtain ⟨found, fit, h⟩ := bind_ok h
  split at h
  · obtain ⟨_, -, h⟩ := bind_ok h
    split at h
    · cases h
    obtain ⟨_, -, h⟩ := bind_ok h
    split at h
    · cases h
    obtain ⟨taken, goes, h⟩ := bind_ok h
    cases taken with
    | false => cases h
    | true =>
      obtain ⟨_, -, h⟩ := bind_ok h
      cases h
      exact ⟨by decide, .of_matched fit rfl (by decide) (goesTo_true goes) (by simp) (by simp)
        (.inl (by simp))⟩
  · cases h

/-- The branches behind the first one have to go to the label behind the window. -/
lemma signedDivisionChecks_contained (h : signedDivisionChecks items = .ok (some (new, n)))
    (both : ∀ b, .instruction b ∈ items.take n → b.mnemonic = "bne" →
      ∃ l, b.target = .ok l ∧ (items.drop n).head? = some (.label l)) :
    0 < n ∧ Contained (items.take n) new (items.drop n) := by
  obtain ⟨found, fit, run⟩ := bind_ok h
  split at run
  · rename_i bnez slot brk first li bne li' bne' nop brk' last
    obtain ⟨⟨rest, rfl⟩, fits⟩ := matched?_some (by decide) fit
    obtain ⟨taken, goes, run⟩ := bind_ok run
    have replaced : new = [slot] ∧ n = 10 ∧ taken := by
      cases taken
      · cases run
      · obtain ⟨_, -, run⟩ := bind_ok run
        split at run
        · cases run
          exact ⟨rfl, rfl, rfl⟩
        · obtain ⟨_, -, run⟩ := bind_ok run
          split at run <;> cases run
          exact ⟨rfl, rfl, rfl⟩
    obtain ⟨rfl, rfl, rfl⟩ := replaced
    simp only [forall₂_cons] at fits
    obtain ⟨isBnez, -, isBrk, -, isLi, isBne, isLi', isBne', isNop, isBrk', -⟩ := fits
    obtain ⟨brk, rfl, quiet1⟩ := quiet_of_match rfl isBrk
    obtain ⟨li, rfl, quiet2⟩ := quiet_of_match rfl isLi
    obtain ⟨li', rfl, quiet3⟩ := quiet_of_match rfl isLi'
    obtain ⟨nop, rfl, quiet4⟩ := quiet_of_match rfl isNop
    obtain ⟨brk', rfl, quiet5⟩ := quiet_of_match rfl isBrk'
    have named {b : Instruction} (fit : (operation "bne").isMatch (.instruction b) = .ok true) :
        b.mnemonic = "bne" := eq_of_beq (Except.ok.inj fit)
    have behind {b : Instruction} (mem : .instruction b ∈ take 10 ([.instruction bnez, slot,
        .instruction brk, .label first, .instruction li, .instruction bne, .instruction li',
        .instruction bne', .instruction nop, .instruction brk', .label last] ++ rest))
        (fit : (operation "bne").isMatch (.instruction b) = .ok true) :=
      both b mem (named fit)
    refine ⟨by decide, fun b mem branch kept => ?_, fun l mem kept => ?_⟩
    · simp only [cons_append, take_succ_cons, take_zero, mem_cons,
        Item.instruction.injEq, reduceCtorEq, not_mem_nil, or_false, false_or] at mem kept
      rcases mem with rfl | same | rfl | rfl | rfl | rfl | rfl | rfl | rfl
      · exact ⟨first, goesTo_true goes, .inl (by simp)⟩
      · exact absurd same kept
      all_goals first
        | exact absurd branch (by simp only [quiet1, quiet2, quiet3, quiet4, quiet5]; decide)
        | exact (behind (by simp) ‹_›).imp fun _ ⟨target, next⟩ => ⟨target, .inr next⟩
    · simp only [cons_append, take_succ_cons, take_zero, mem_cons,
        Item.label.injEq, reduceCtorEq, not_mem_nil, or_false, false_or] at mem kept
      rcases mem with same | rfl
      · exact absurd same kept
      · exact ⟨bnez, by simp, isBranch_of_match isBnez rfl, goesTo_true goes⟩
  · cases run

lemma doubleHalves_contained (h : doubleHalves items = .ok (some (new, n))) :
    0 < n ∧ Contained (items.take n) new (items.drop n) := by
  unfold doubleHalves at h
  split at h
  · rename_i a b rest
    dsimp only at h
    split at h
    · cases h
    · have names : a.mnemonic = "lwc1" ∧ b.mnemonic = "lwc1" ∨
          a.mnemonic = "swc1" ∧ b.mnemonic = "swc1" := by grind
      have two : n = 2 := by
        obtain ⟨ra, -, h⟩ := bind_ok h
        obtain ⟨rb, -, h⟩ := bind_ok h
        obtain ⟨ma, -, h⟩ := bind_ok h
        obtain ⟨mb, -, h⟩ := bind_ok h
        split at h
        · obtain ⟨_, -, h⟩ := bind_ok h
          split at h
          · cases h
          obtain ⟨_, -, h⟩ := bind_ok h
          split at h
          · cases h
          split at h
          · split at h
            · cases h
            obtain ⟨_, -, h⟩ := bind_ok h
            cases h
            rfl
          · cases h
        · cases h
      subst two
      refine ⟨by decide, .of_quiet fun x mem => ?_⟩
      rcases mem_pair.1 mem with rfl | rfl
      all_goals
        refine ⟨_, rfl, ?_⟩
        rcases names with ⟨first, second⟩ | ⟨first, second⟩ <;>
          simp [Instruction.isBranch, Instruction.isLikelyBranch, Instruction.plainBranches,
            Instruction.likelyBranches, first, second]
  · cases h

lemma firstReplacement?_mem {idioms}
    (h : firstReplacement? items idioms = .ok (some r)) : ∃ i ∈ idioms, i items = .ok (some r) := by
  induction idioms with
  | nil => cases h
  | cons idiom idioms ih =>
    obtain ⟨found, run, h⟩ := bind_ok h
    cases found with
    | some r' =>
      cases h
      exact ⟨idiom, .head _, run⟩
    | none =>
      obtain ⟨i, mem, found⟩ := ih h
      exact ⟨i, .tail _ mem, found⟩

lemma floatToUnsigned_head (h : floatToUnsigned items = .ok (some r)) :
    ∃ i, items.head? = some (.instruction i) ∧ i.mnemonic = "cfc1" := by
  obtain ⟨found, fit, h⟩ := bind_ok h
  split at h
  · rename_i i rest _
    refine ⟨i, rfl, ?_⟩
    by_contra other
    rw [floatToUnsignedShapes, length_cons, consumed?_of_ne other] at fit
    cases fit
  · cases h

lemma firstReplacement?_contained (h : firstReplacement? items idioms = .ok (some (new, n)))
    (plain : ∀ i, items.head? = some (.instruction i) → i.mnemonic ≠ "cfc1")
    (both : ∀ b, .instruction b ∈ items.take n → b.mnemonic = "bne" →
      ∃ l, b.target = .ok l ∧ (items.drop n).head? = some (.label l)) :
    0 < n ∧ Contained (items.take n) new (items.drop n) := by
  obtain ⟨idiom, mem, found⟩ := firstReplacement?_mem h
  simp only [idioms, mem_cons, not_mem_nil, or_false] at mem
  rcases mem with rfl | rfl | rfl | rfl | rfl | rfl | rfl
  · exact signedDivisionChecks_contained found both
  · exact unsigned_contained (.inl found)
  · exact powerDivisionShifted_contained found
  · exact powerDivisionMoved_contained found
  · exact unsigned_contained (.inr found)
  · obtain ⟨i, first, named⟩ := floatToUnsigned_head found
    exact absurd named (plain i first)
  · exact doubleHalves_contained found

end

section

/-- A part of a body: an item that is kept, or a window with the items in its place. -/
inductive Piece where
  | kept (item : Item)
  | replaced (window new : List Item)

def Piece.old : Piece → List Item
  | .kept item => [item]
  | .replaced window _ => window

def Piece.new : Piece → List Item
  | .kept item => [item]
  | .replaced _ new => new

/-- The pieces of a body that idioms are replaced in. -/
inductive Cuts : List Item → List Piece → Prop where
  | nil :
    Cuts [] []
  | kept {item rest ps} :
    firstReplacement? (item :: rest) idioms = .ok none →
    Cuts rest ps →
    Cuts (item :: rest) (.kept item :: ps)
  | replaced {item rest new n ps} :
    firstReplacement? (item :: rest) idioms = .ok (some (new, n)) →
    Cuts (rest.drop (n - 1)) ps →
    Cuts (item :: rest) (.replaced (item :: rest.take (n - 1)) new :: ps)

variable {body out : List Item} {ps front back : List Piece} {window new : List Item}

lemma Cuts.old_eq (h : Cuts body ps) : ps.flatMap Piece.old = body := by
  induction h with
  | nil => rfl
  | kept _ _ ih => rw [flatMap_cons, ih]; rfl
  | replaced _ _ ih => rw [flatMap_cons, ih, Piece.old, cons_append, take_append_drop]

lemma replaceIdioms_cuts (run : replaceIdioms body = .ok out) :
    ∃ ps, Cuts body ps ∧ ps.flatMap Piece.new = out := by
  -- A window is at least one item long, so the rest of the body is shorter.
  induction length : body.length using Nat.strong_induction_on generalizing body out with
  | _ size ih =>
    cases body with
    | nil =>
      rw [replaceIdioms] at run
      cases run
      exact ⟨[], .nil, rfl⟩
    | cons item rest =>
      rw [replaceIdioms] at run
      obtain ⟨found, first, run⟩ := bind_ok run
      cases found with
      | none =>
        obtain ⟨out', later, run⟩ := bind_ok run
        cases run
        obtain ⟨ps, cuts, rfl⟩ := ih _ (by rw [← length]; exact Nat.lt_succ_self _) later rfl
        exact ⟨_, .kept first cuts, rfl⟩
      | some r =>
        obtain ⟨out', later, run⟩ := bind_ok run
        cases run
        obtain ⟨ps, cuts, rfl⟩ := ih _ (by
          rw [← length, length_drop, length_cons]
          omega) later rfl
        exact ⟨_, .replaced first cuts, rfl⟩

/-- What was replaced was found at its place. -/
lemma Cuts.found (h : Cuts body (front ++ .replaced window new :: back)) : ∃ item rest n,
    firstReplacement? (item :: rest) idioms = .ok (some (new, n)) ∧
      window = item :: rest.take (n - 1) ∧ back.flatMap Piece.old = rest.drop (n - 1) := by
  induction front generalizing body with
  | nil =>
    cases h with
    | replaced first cuts => exact ⟨_, _, _, first, rfl, cuts.old_eq⟩
  | cons p front ih =>
    cases h with
    | kept _ cuts => exact ih cuts
    | replaced _ cuts => exact ih cuts

/-- Whether an item is a branch to a label. -/
def refersTo (l : String) : Item → Bool
  | .instruction b => b.isBranch && b.target.toOption == some l
  | .label _ => false

/-- The windows that are replaced in a body are self-contained, apart from conversions to unsigned
integers, if all `bne` of a window go to the label behind it. Where a window is self-contained, be it
a conversion or not, no branch is left to a label that is deleted with it, if there is only one
branch to the label or all are in the window. -/
theorem replaceIdioms_contained (run : replaceIdioms body = .ok out) :
    ∃ ps, Cuts body ps ∧ ps.flatMap Piece.old = body ∧ ps.flatMap Piece.new = out ∧
      ∀ front window new back, ps = front ++ .replaced window new :: back →
        ((∀ i, window.head? = some (.instruction i) → i.mnemonic ≠ "cfc1") →
          (∀ b, .instruction b ∈ window → b.mnemonic = "bne" →
            ∃ l, b.target = .ok l ∧ (back.flatMap Piece.old).head? = some (.label l)) →
          Contained window new (back.flatMap Piece.old)) ∧
        (Contained window new (back.flatMap Piece.old) →
          ∀ l, .label l ∈ window → .label l ∉ new →
            body.countP (refersTo l) ≤ max 1 (window.countP (refersTo l)) →
            ∀ x ∈ front.flatMap Piece.old ++ back.flatMap Piece.old, refersTo l x = false) := by
  obtain ⟨ps, cuts, rfl⟩ := replaceIdioms_cuts run
  refine ⟨ps, cuts, cuts.old_eq, rfl, ?_⟩
  rintro front window new back rfl
  constructor
  · intro plain both
    obtain ⟨item, rest, n, first, rfl, behind⟩ := cuts.found
    rw [behind] at both ⊢
    cases n with
    | zero => exact absurd (firstReplacement?_contained first plain (by simp)).1 (by decide)
    | succ k => exact (firstReplacement?_contained first plain both).2
  · intro contained l mem gone few x outside
    obtain ⟨b, own, branch, target⟩ := contained.label l mem gone
    have refers : refersTo l (.instruction b) = true := by
      rw [refersTo, branch, target]
      exact beq_self_eq_true _
    have here : 0 < window.countP (refersTo l) := List.countP_pos_iff.2 ⟨_, own, refers⟩
    have whole := cuts.old_eq
    rw [List.flatMap_append, List.flatMap_cons, Piece.old] at whole
    rw [← whole, List.countP_append, List.countP_append] at few
    have none : (front.flatMap Piece.old ++ back.flatMap Piece.old).countP (refersTo l) = 0 := by
      rw [List.countP_append]
      omega
    simpa using List.countP_eq_zero.1 none x outside

end

def ins (mnemonic : String) (args : List Operand) : Item :=
  .instruction ⟨mnemonic, args, .unknown⟩

/-- A division by four that another branch leads into. -/
def sharedDivision : List Item :=
  [ins "beqz" ["a1", .target "L1"],
   ins "move" ["at", "a0"],
   ins "bgez" ["a0", .target "L1"],
   ins "move" ["at", "a0"],
   ins "addiu" ["at", "a0", .literal 3],
   .label "L1",
   ins "sra" ["v0", "at", .literal 2]]

/-- The checks of a signed division with two branches to the given labels. -/
def checks (first second : String) : List Item :=
  [ins "bnez" ["a1", .target "L1"],
   ins "nop" [],
   ins "break" [.literal 7],
   .label "L1",
   ins "li" ["at", .literal (-1)],
   ins "bne" ["a1", "at", .target first],
   ins "li" ["at", .literal 0x80000000],
   ins "bne" ["a0", "at", .target second],
   ins "nop" [],
   ins "break" [.literal 6],
   .label "L2"]

theorem replaceIdioms_contained_checks : ∃ new after,
    Contained ((checks "L2" "L2").take 10) new after ∧ .label "L1" ∈ (checks "L2" "L2").take 10 ∧
      .label "L1" ∉ new := by
  have run : replaceIdioms (checks "L2" "L2") = .ok [ins "nop" [], .label "L2"] := by cbv
  have first : firstReplacement? (checks "L2" "L2") idioms = .ok (some ([ins "nop" []], 10)) := by
    cbv
  obtain ⟨ps, cuts, old, -, contained⟩ := replaceIdioms_contained run
  cases cuts with
  | kept none _ => cases first.symm.trans none
  | replaced found cuts =>
    cases first.symm.trans found
    refine ⟨_, _, (contained [] _ _ _ rfl).1 ?_ ?_, by decide, by decide⟩
    · rintro i ⟨⟩
      decide
    · intro b mem named
      refine ⟨"L2", ?_, by rw [cuts.old_eq]; rfl⟩
      have all : ((checks "L2" "L2").take 10).all (fun
          | .instruction b => b.mnemonic != "bne" || b.target.toOption == some "L2"
          | .label _ => true) = true := by decide
      have here := List.all_eq_true.1 all _ mem
      simp only [named, bne_self_eq_false, Bool.false_or, beq_iff_eq] at here
      exact ok_of_toOption here

/-- A branch to a label elsewhere is deleted, and so is a label that a branch is left to. -/
theorem replaceIdioms_not_contained :
    replaceIdioms (checks "L9" "L2") = .ok [ins "nop" [], .label "L2"] ∧
      replaceIdioms sharedDivision =
        .ok (sharedDivision.take 2 ++ [ins "div.fictive"
          ["v0", "a0", .literal 4]]) := by
  constructor <;> cbv

end Decompiler.Flow
