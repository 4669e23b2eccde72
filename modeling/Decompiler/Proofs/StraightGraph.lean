import Decompiler.Flow.Build
import Decompiler.Proofs.Steps
import Decompiler.Proofs.Words

/-!
# The graph of straight code

A function that runs some plain instructions and returns is left alone by all passes before it is
cut, and cut into one block. Its graph is one node without edges.
-/

namespace Decompiler.Flow

open Asm List Instruction Cutter Flow.Graph

def straightCode (is : List Instruction) (ret slot : Origin) : List Instruction :=
  is ++ [⟨"jr", [.register ⟨"ra"⟩], ret⟩, ⟨"nop", [], slot⟩]

def straightBody (is : List Instruction) (ret slot : Origin) : List Item :=
  (straightCode is ret slot).map .instruction

def straightBlock (is : List Instruction) (ret slot : Origin) : Block :=
  ⟨0, none, "initial", straightCode is ret slot⟩

def straightNode (is : List Instruction) (ret slot : Origin) : Node :=
  { block := straightBlock is ret slot, emitGoto := false, link := .exit 0, dominators := .single 0 }

def idiomHeads : List String :=
  ["bnez", "bgez", "cfc1", "lwc1", "swc1"]

structure Inert (i : Instruction) : Prop where
  noBranch : i.isBranch = false
  noIdiom : i.mnemonic ∉ idiomHeads

section

variable {i : Instruction} {is : List Instruction} {items : List Item}

lemma Inert.plain (h : Inert i) : (i.isLikelyBranch || i.mnemonic == "b") = false := by
  have likely : i.isLikelyBranch = false := (Bool.or_eq_false_iff.1 h.noBranch).2
  have b : i.mnemonic ≠ "b" := by
    intro same
    have := (Bool.or_eq_false_iff.1 h.noBranch).1
    rw [same] at this
    exact absurd this (by decide)
  rw [likely, beq_false_of_ne b]
  rfl

lemma replaceFrom_of_inert (inert : ∀ i ∈ is, Inert i) (body : Array Item) (k : Nat) :
    ∃ placed, replaceFrom body [] k (is.map .instruction) = .ok (placed, []) ∧
      placed.map Prod.snd = is.map .instruction := by
  induction is generalizing k with
  | nil => exact ⟨[], rfl, rfl⟩
  | cons i is ih =>
    obtain ⟨placed, run, same⟩ := ih (fun i mem => inert i (.tail _ mem)) (k + 1)
    refine ⟨(some k, .instruction i) :: placed, ?_, by rw [map_cons, same]; rfl⟩
    rw [map_cons, replaceFrom, (inert i (.head _)).plain, run]
    rfl

lemma withLabels_nil (placed : Placed) : withLabels placed [] = placed.map Prod.snd := by
  have none (position : Option Nat) : (position.bind fun i => ([] : NewLabels).lookup i) = none := by
    cases position <;> rfl
  simp only [withLabels, none]
  exact map_eq_flatMap.symm

lemma plainBranches_of_inert (inert : ∀ i ∈ is, Inert i) :
    plainBranches (is.map .instruction) = .ok (is.map .instruction) := by
  obtain ⟨placed, run, same⟩ := replaceFrom_of_inert inert (is.map .instruction).toArray 0
  rw [plainBranches, run, ← same, ← withLabels_nil]
  rfl

lemma pruneLabels_of_inert (inert : ∀ i ∈ is, Inert i) (mentioned : List String) :
    pruneLabels mentioned (is.map .instruction) = .ok (is.map .instruction) := by
  have targets : branchTargets (is.map .instruction) = .ok [] := by
    induction is with
    | nil => rfl
    | cons i is ih =>
      rw [map_cons, branchTargets, (inert i (.head _)).noBranch]
      exact ih fun i mem => inert i (.tail _ mem)
  rw [pruneLabels, targets]
  refine congrArg Except.ok (filter_eq_self.2 fun item mem => ?_)
  obtain ⟨i, -, rfl⟩ := mem_map.1 mem
  rfl

lemma consumed?_of_ne (ne : i.mnemonic ≠ m) (shapes : List Shape) (n : Nat) :
    Shape.consumed? (.operation m :: shapes) ((.instruction i :: items).take (n + 1)) = .ok none := by
  have fits : Shape.isMatch (.operation m) (.instruction i) = .ok false := by
    rw [Shape.isMatch, beq_false_of_ne ne]
    rfl
  rw [take_succ_cons, Shape.consumed?, fits]
  rfl

lemma matched?_of_ne (ne : i.mnemonic ≠ m) (shapes : List Shape) :
    matched? (.operation m :: shapes) (.instruction i :: items) = .ok none := by
  rw [matched?, length_cons, consumed?_of_ne ne]
  rfl

lemma doubleHalves_of_ne (load : i.mnemonic ≠ "lwc1") (store : i.mnemonic ≠ "swc1") :
    doubleHalves (.instruction i :: items) = .ok none := by
  unfold doubleHalves
  split
  case h_1 a b _ same =>
    cases same
    exact if_pos (by simp [load, store])
  case h_2 => rfl

/-- No idiom starts with such an instruction. -/
lemma firstReplacement?_of_inert (inert : Inert i) :
    firstReplacement? (.instruction i :: items) idioms = .ok none := by
  have ne (m : String) (mem : m ∈ idiomHeads) : i.mnemonic ≠ m := fun same => inert.noIdiom (same ▸ mem)
  have bnez := ne "bnez" (by decide)
  have bgez := ne "bgez" (by decide)
  have cfc1 := ne "cfc1" (by decide)
  have none : ∀ idiom ∈ idioms, idiom (.instruction i :: items) = .ok none := by
    intro idiom mem
    simp only [idioms, mem_cons, not_mem_nil, or_false] at mem
    rcases mem with rfl | rfl | rfl | rfl | rfl | rfl | rfl
    · rw [signedDivisionChecks, matched?_of_ne bnez]
      rfl
    · rw [unsignedDivisionCheck, matched?_of_ne bnez]
      rfl
    · rw [powerDivisionShifted, matched?_of_ne bgez]
      rfl
    · rw [powerDivisionMoved, matched?_of_ne bgez]
      rfl
    · rw [unsignedToFloat, matched?_of_ne bgez]
      rfl
    · rw [floatToUnsigned, floatToUnsignedShapes, length_cons, consumed?_of_ne cfc1]
      rfl
    · exact doubleHalves_of_ne (ne "lwc1" (by decide)) (ne "swc1" (by decide))
  generalize idioms = l at none
  induction l with
  | nil => rfl
  | cons idiom l ih =>
    rw [firstReplacement?, none idiom (.head _)]
    exact ih fun idiom mem => none idiom (.tail _ mem)

lemma replaceIdioms_of_inert (inert : ∀ i ∈ is, Inert i) :
    replaceIdioms (is.map .instruction) = .ok (is.map .instruction) := by
  induction is with
  | nil => rw [map_nil, replaceIdioms]; rfl
  | cons i is ih =>
    rw [map_cons, replaceIdioms, firstReplacement?_of_inert (inert i (.head _))]
    have rest := ih fun i mem => inert i (.tail _ mem)
    rw [rest]
    rfl

end

section

variable {is : List Instruction}

lemma items_append (still : ∀ i ∈ is, i.hasDelaySlot = false) (c : Cutter) (rest : List Item) :
    c.items (is.map .instruction ++ rest) =
      items { c with current := is.reverse ++ c.current } rest := by
  induction is generalizing c with
  | nil => rfl
  | cons i is ih =>
    rw [map_cons, cons_append, items.eq_def]
    simp only [still i (.head _)]
    rw [ih fun i mem => still i (.tail _ mem)]
    simp [add]

def plainMnemonics : List String :=
  ["move", "li", "addu", "subu", "and", "or", "xor", "addiu", "sll", "lw", "sw"]

lemma mnemonic_of_op (h : Op.ofInstruction? i = some op) : i.mnemonic ∈ plainMnemonics := by
  obtain ⟨mnemonic, args, origin⟩ := i
  unfold Op.ofInstruction? at h
  dsimp only at h ⊢
  split at h
  case h_12 => cases h
  all_goals decide

section

variable (plain : ∀ i ∈ is, i.mnemonic ∈ plainMnemonics)

include plain

lemma straightCode_inert (ret slot : Origin) : ∀ i ∈ straightCode is ret slot, Inert i := by
  have named {i : Instruction} (mem : i.mnemonic ∈ "jr" :: "nop" :: plainMnemonics) : Inert i := by
    have all : ∀ m ∈ "jr" :: "nop" :: plainMnemonics, Instruction.plainBranches.contains m = false ∧
        likelyBranches.contains m = false ∧ m ∉ idiomHeads := by decide
    obtain ⟨branch, likely, idiom⟩ := all i.mnemonic mem
    exact ⟨by rw [isBranch, isLikelyBranch, branch, likely]; rfl, idiom⟩
  intro i mem
  rcases mem_append.1 mem with mem | mem
  · exact named (.tail _ (.tail _ (plain i mem)))
  · rcases mem_cons.1 mem with rfl | mem
    · exact named (.head _)
    · rw [mem_singleton.1 mem]
      exact named (.tail _ (.head _))

lemma items_straightBody : items {} (straightBody is ret slot) =
      .ok { count := 1, blocks := [straightBlock is ret slot] } := by
  have still (i : Instruction) (mem : i ∈ is) : i.hasDelaySlot = false := by
    have all : ∀ m ∈ plainMnemonics, m ≠ "jr" ∧ m ≠ "jal" ∧ m ≠ "jalr" := by decide
    obtain ⟨jr, jal, jalr⟩ := all i.mnemonic (plain i mem)
    have branch := (straightCode_inert plain ret slot i
      (mem_append_left _ mem)).noBranch
    simp [hasDelaySlot, branch, jr, jal, jalr]
  rw [straightBody, straightCode, map_append, items_append still]
  simp only [map_cons, map_nil, append_nil]
  let jr : Instruction := ⟨"jr", [.register ⟨"ra"⟩], ret⟩
  let nop : Instruction := ⟨"nop", [], slot⟩
  have step (c : Cutter) : c.items [.instruction jr, .instruction nop] = .ok ((c.add jr).add nop).cut := by
    rw [items]
    show items _ [] = _
    rw [items]
    rfl
  rw [step]
  simp [cut, add, straightBlock, straightCode, jr, nop]

lemma cutBlocks_straightBody (console : Console) :
    (cutBlocks (straightBody is ret slot)).run.run console =
      (.ok [straightBlock is ret slot], console) := by
  rw [cutBlocks, items_straightBody plain]
  rfl

lemma blocks_straightBody (ret slot : Origin) (mentioned : List String) (console : Console) :
    (blocks mentioned (straightBody is ret slot)).run.run console =
      (.ok [straightBlock is ret slot], console) := by
  have inert := straightCode_inert plain ret slot
  rw [blocks, straightBody, plainBranches_of_inert inert]
  change (liftM (pruneLabels mentioned _) >>= _ : Command _).run.run console = _
  rw [pruneLabels_of_inert inert]
  change (liftM (replaceIdioms _) >>= _ : Command _).run.run console = _
  rw [replaceIdioms_of_inert inert]
  change (liftM (pruneLabels mentioned _) >>= _ : Command _).run.run console = _
  rw [pruneLabels_of_inert inert]
  exact cutBlocks_straightBody plain console

end

end

section

variable {is : List Instruction}

def lonely (b : Block) : Node :=
  { block := b, emitGoto := false, link := .exit 0 }

lemma reachableNodes_straightBlock (plain : ∀ i ∈ is, i.mnemonic ∈ plainMnemonics) (rodata : Rodata) :
    reachableNodes [straightBlock is ret slot] rodata =
      .ok [(0, lonely (straightBlock is ret slot))] := by
  have jumps : (straightBlock is ret slot).instructions.filter isJump =
      [⟨"jr", [.register ⟨"ra"⟩], ret⟩] := by
    have none : is.filter isJump = [] := by
      rw [filter_eq_nil_iff]
      intro i mem
      have jr : i.mnemonic ≠ "jr" :=
        (by decide : ∀ m ∈ plainMnemonics, m ≠ "jr") i.mnemonic (plain i mem)
      have branch := (straightCode_inert plain ret slot i
        (mem_append_left _ mem)).noBranch
      simp [isJump, branch, jr]
    rw [straightBlock, straightCode, filter_append, none]
    rfl
  have found : #[straightBlock is ret slot][0]? = some (straightBlock is ret slot) := rfl
  have visited : visit #[straightBlock is ret slot] rodata 2 0 [] =
      .ok [(0, lonely (straightBlock is ret slot))] := by
    rw [visit]
    simp only [found, jumps]
    rfl
  change (visit #[straightBlock is ret slot] rodata 2 0 [] >>= _) = _
  rw [visited]
  exact congrArg Except.ok (mergeSort_singleton _)

lemma copyReturns_single (b : Block) (n : Nat) : copyReturns n [(0, lonely b)] = [(0, lonely b)] := by
  simp [copyReturns, earlyReturns, lonely]

lemma ensureFallthrough_single (b : Block) :
    (ofDraft [(0, lonely b)]).ensureFallthrough = .ok ⟨#[lonely b]⟩ := by
  have graph : ofDraft [(0, lonely b)] = ⟨#[lonely b]⟩ := rfl
  have reached : (mk #[lonely b]).reached = .ok (.single 0) := rfl
  rw [graph, ensureFallthrough]
  rw [ensureFallthroughFrom, reached]
  rfl

lemma withDominators_single (b : Block) :
    (mk #[lonely b]).withDominators = ⟨#[{ lonely b with dominators := .single 0 }]⟩ := by
  rfl

/-- The graph of straight code is one node. -/
lemma Graph.ofBody_straightBody (plain : ∀ i ∈ is, i.mnemonic ∈ plainMnemonics) (ret slot : Origin)
    (rodata : Rodata) (console : Console) :
    (ofBody rodata (straightBody is ret slot)).run.run console =
      (.ok ⟨#[straightNode is ret slot]⟩, console) := by
  have cut := blocks_straightBody plain ret slot rodata.mentioned console
  refine (run_bind_of_ok cut).trans ?_
  rw [reachableNodes_straightBlock plain]
  show (liftM (ensureFallthrough (.ofDraft (copyReturns 1 _))) >>= _ : Command Graph).run console = _
  rw [copyReturns_single, ensureFallthrough_single]
  exact Prod.ext (congrArg Except.ok (withDominators_single _)) rfl

end

end Decompiler.Flow
