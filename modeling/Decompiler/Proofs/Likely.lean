import Decompiler.Flow.Likely
import Decompiler.Proofs.DelaySlot

/-!
# Branches that share an instruction with their target: the code before and after

`Placing` says how each branch and its delay slot come out: kept, inverted around its own delay
slot, or redirected to the instruction that its delay slot repeats. It relates the rest of a body to
the rest of the new body, position by position, so that a run can be followed through both.
-/

namespace Decompiler.Flow

open Asm List Instruction

/-- Bodies on which delay slots have a meaning: labels are distinct, branches go to labels of the
body and each is followed by an instruction without a delay slot. -/
structure WellFormed (body : List Item) : Prop where
  distinct : (labels body).Nodup
  targets : ∀ {k : Nat} {i : Instruction}, body[k]? = some (.instruction i) → i.isBranch →
    ∃ label ∈ labels body, i.target = .ok label
  slots : ∀ {k : Nat} {i : Instruction}, body[k]? = some (.instruction i) → i.isBranch →
    ∃ slot, body[k + 1]? = some (.instruction slot) ∧ slot.hasDelaySlot = false
  words : ∀ {k : Nat} {i : Instruction}, body[k]? = some (.instruction i) → ' ' ∉ i.mnemonic.toList

def wellPlaced (body : List Item) : Item × Nat → Bool
  | (.label _, _) => true
  | (.instruction i, k) =>
    !i.mnemonic.toList.contains ' ' && (!i.isBranch ||
      (match i.target with
        | .ok label => (labels body).contains label
        | .error _ => false) &&
      match body[k + 1]? with
      | some (.instruction slot) => !slot.hasDelaySlot
      | _ => false)

lemma wellPlaced_branch (isBranch : i.isBranch) (h : wellPlaced body (.instruction i, k)) :
    (∃ label ∈ labels body, i.target = .ok label) ∧
      ∃ slot, body[k + 1]? = some (.instruction slot) ∧ slot.hasDelaySlot = false := by
  simp only [wellPlaced, isBranch, Bool.not_true, Bool.false_or, Bool.and_eq_true] at h
  obtain ⟨-, target, slot⟩ := h
  constructor
  · split at target
    · next label e => exact ⟨label, contains_iff_mem.1 target, e⟩
    · cases target
  · split at slot
    · next s e => exact ⟨s, e, by simpa using slot⟩
    · cases slot

instance (body : List Item) : Decidable (WellFormed body) :=
  decidable_of_iff ((labels body).Nodup ∧ ∀ p ∈ body.zipIdx, wellPlaced body p) <| by
    constructor
    · rintro ⟨distinct, placed⟩
      have at_ {k} {i} (h : body[k]? = some (.instruction i)) :
          wellPlaced body (.instruction i, k) :=
        placed _ (mem_zipIdx_iff_getElem?.2 h)
      refine ⟨distinct, fun h b => (wellPlaced_branch b (at_ h)).1,
        fun h b => (wellPlaced_branch b (at_ h)).2, fun h => ?_⟩
      have := at_ h
      simp only [wellPlaced, Bool.and_eq_true] at this
      simpa using this.1
    · rintro wf
      refine ⟨wf.distinct, ?_⟩
      rintro ⟨item, k⟩ mem
      have h := mem_zipIdx_iff_getElem?.1 mem
      cases item with
      | label name => rfl
      | instruction i =>
        have word := wf.words h
        cases b : i.isBranch with
        | false => simpa [wellPlaced, b] using word
        | true =>
          obtain ⟨label, mem, target⟩ := wf.targets h b
          obtain ⟨slot, hs, plain⟩ := wf.slots h b
          simpa [wellPlaced, target, hs, plain, mem] using word

/-- The branch at `i` is redirected: its delay slot repeats the instruction at `source`, which
stands in front of its target. An unconditional branch must not lead into a delay slot. -/
structure Redirected (body : List Item) (i source : Nat) (branch slot repeated : Instruction)
    (label : String) : Prop where
  branch_at : body[i]? = some (.instruction branch)
  slot_at : body[i + 1]? = some (.instruction slot)
  repeated_at : body[source]? = some (.instruction repeated)
  label_at : body[source + 1]? = some (.label label)
  target : branch.target = .ok label
  apart : source ≠ i + 1
  alike : repeated.text = slot.text
  kind : branch.isLikelyBranch ∨ branch.mnemonic = "b" ∧ slot.mnemonic ≠ "nop" ∧
    ∀ ins, instructionBefore? body.toArray source = some ins → ins.hasDelaySlot = false

/-! ## Mnemonics -/

/-- Every likely branch has a plain form and an inverse with the opposite test. -/
lemma likely_names : ∀ name ∈ likelyBranches,
    ∃ t w inverse, test? (String.ofList name.toList.dropLast) = some (t, w) ∧
      inverse? (String.ofList name.toList.dropLast) = some inverse ∧
      test? inverse = some (t, !w) ∧
      Instruction.plainBranches.contains (String.ofList name.toList.dropLast) ∧
      Instruction.plainBranches.contains inverse ∧
      likelyBranches.contains (String.ofList name.toList.dropLast) = false ∧
      likelyBranches.contains inverse = false := by
  intro name h
  simp only [likelyBranches, mem_cons, not_mem_nil, or_false] at h
  rcases h with rfl | rfl | rfl | rfl | rfl | rfl | rfl | rfl | rfl | rfl
  · exact ⟨.equal, true, "bne", by decide +kernel⟩
  · exact ⟨.equal, false, "beq", by decide +kernel⟩
  · exact ⟨.zero, true, "bnez", by decide +kernel⟩
  · exact ⟨.zero, false, "beqz", by decide +kernel⟩
  · exact ⟨.nonNegative, true, "bltz", by decide +kernel⟩
  · exact ⟨.positive, true, "blez", by decide +kernel⟩
  · exact ⟨.positive, false, "bgtz", by decide +kernel⟩
  · exact ⟨.nonNegative, false, "bgez", by decide +kernel⟩
  · exact ⟨.flag, true, "bc1f", by decide +kernel⟩
  · exact ⟨.flag, false, "bc1t", by decide +kernel⟩

lemma mnemonic_of_text {i j : Instruction} (hi : ' ' ∉ i.mnemonic.toList)
    (hj : ' ' ∉ j.mnemonic.toList) (e : i.text = j.text) : i.mnemonic = j.mnemonic := by
  have word : ∀ {w rest : List Char}, ' ' ∉ w → (w ++ ' ' :: rest).takeWhile (· != ' ') = w := by
    intro w rest notin
    rw [takeWhile_append_of_pos (by
      intro c mem
      simp only [bne_iff_ne, ne_eq]
      exact fun e => notin (e ▸ mem))]
    simp
  have e' := congrArg (fun t : String => t.toList.takeWhile (· != ' ')) e
  simp only [text, String.toList_append, append_assoc] at e'
  rw [show " ".toList = [' '] from rfl, cons_append, cons_append, word hi, word hj] at e'
  exact String.toList_inj.1 e'

lemma isBranch_of_b {i : Instruction} (h : i.mnemonic = "b") : i.isBranch := by
  rw [isBranch, h]
  rfl

lemma not_likely_of_b {i : Instruction} (h : i.mnemonic = "b") : i.isLikelyBranch = false := by
  rw [isLikelyBranch, h]
  decide +kernel

lemma Redirected.isBranch
    (red : Redirected body i source branch slot repeated label) : branch.isBranch :=
  red.kind.elim isBranch_of_likely fun h => isBranch_of_b h.1

lemma taken_b {m : Machine σ} {i s} (h : i.mnemonic = "b") : m.taken i s = (true, []) := by
  rw [Machine.taken, plainName, not_likely_of_b h, h]
  rfl

section

variable {σ : Type} {m : Machine σ} {branch : Instruction} {args : List Operand}

lemma inverse_isBranch (likely : branch.isLikelyBranch)
    (inv : inverse? (plainName branch) = some inverse) :
    (derived inverse args branch).isBranch ∧
      (derived inverse args branch).isLikelyBranch = false := by
  obtain ⟨_, _, inverse', -, inv', -, -, plain, -, notLikely⟩ :=
    likely_names _ (contains_iff_mem.1 likely)
  rw [plainName, if_pos likely, inv'] at inv
  cases inv
  refine ⟨?_, notLikely⟩
  rw [isBranch, Bool.or_eq_true]
  exact .inl plain

lemma taken_inverse (likely : branch.isLikelyBranch)
    (inv : inverse? (plainName branch) = some inverse)
    (same : args.dropLast = branch.args.dropLast) :
    m.taken (.derived inverse args branch) s =
      (!(m.taken branch s).1, (m.taken branch s).2) := by
  have notLikely : (derived inverse args branch).isLikelyBranch = false :=
    (inverse_isBranch likely inv).2
  obtain ⟨t, w, inverse', test, inv', test', -⟩ :=
    likely_names _ (contains_iff_mem.1 likely)
  have name : plainName branch = String.ofList branch.mnemonic.toList.dropLast := by
    rw [plainName, if_pos likely]
  rw [name, inv'] at inv
  cases inv
  have name' : plainName (.derived inverse args branch) = inverse := by
    rw [plainName, notLikely]
    rfl
  have same' : (derived inverse args branch).args.dropLast = branch.args.dropLast :=
    same
  simp only [Machine.taken, name, name', test, test', same']
  refine Prod.ext ?_ rfl
  cases w <;> cases m.answer t branch.args.dropLast s <;> rfl

end

/-! ## Placing -/

def redirect (branch : Instruction) (target : String) : Instruction :=
  .derived (plainName branch) (branch.args.dropLast ++ [.target target]) branch

def LeadsTo (body : List Item) (new : NewLabels) (source : Nat) (target : String) : Prop :=
  labelBefore? body.toArray source = some target ∨
    labelBefore? body.toArray source = none ∧ new.lookup source = some target

/-- The three ways in which a branch and its delay slot come out. -/
inductive Replaced (body : List Item) (new : NewLabels) (i : Nat) (branch slot : Instruction) :
    Placed → Prop where
  | kept :
    Replaced body new i branch slot
      [(some i, .instruction branch), (some (i + 1), .instruction slot)]
  | inverted {label inverse} :
    branch.isLikelyBranch →
    inverse? (plainName branch) = some inverse →
    branch.target = .ok label →
    body[i + 2]? = some (.label label) →
    Replaced body new i branch slot
      [(some i, .instruction (.derived inverse branch.args branch)),
        (none, .instruction (.derived "nop" [] (.derived inverse branch.args branch))),
        (some (i + 1), .instruction slot)]
  | redirected {source repeated label target} :
    Redirected body i source branch slot repeated label →
    LeadsTo body new source target →
    Replaced body new i branch slot
      [(some i, .instruction (redirect branch target)),
        (some (i + 1), .instruction (.derived "nop" [] (redirect branch target)))]

/-- How the rest of a body from a position on comes out. -/
inductive Placing (body : List Item) (new : NewLabels) : Nat → List Item → Placed → Prop where
  | nil {i} :
    Placing body new i [] []
  | keep {i item rest placed} :
    (∀ ins, item = .instruction ins → ins.isLikelyBranch = false ∧ ins.mnemonic ≠ "b") →
    Placing body new (i + 1) rest placed →
    Placing body new i (item :: rest) ((some i, item) :: placed)
  | branch {i branch slot rest here placed} :
    branch.isBranch →
    Replaced body new i branch slot here →
    Placing body new (i + 2) rest placed →
    Placing body new i (.instruction branch :: .instruction slot :: rest) (here ++ placed)

def Keeps (new final : NewLabels) : Prop :=
  ∀ {k name}, new.lookup k = some name → final.lookup k = some name

def Made (body : List Item) (new : NewLabels) : Prop :=
  ∀ {k name}, new.lookup k = some name → labelBefore? body.toArray k = none ∧
    ∃ i branch slot repeated label, Redirected body i k branch slot repeated label ∧
      name = label ++ "_before"

lemma of_cons_eq_drop {body rest : List Item} (h : item :: rest = body.drop i) :
    body[i]? = some item ∧ rest = body.drop (i + 1) := by
  constructor
  · rw [← head?_drop, ← h]
    rfl
  · rw [← tail_drop, ← h]
    rfl

lemma drop_of_getElem? {body : List Item} (h : body[i]? = some item) :
    body.drop i = item :: body.drop (i + 1) := by
  obtain ⟨lt, rfl⟩ := List.getElem?_eq_some_iff.1 h
  exact drop_eq_getElem_cons lt

lemma getElem?_of_labelPosition? {body : List Item}
    (h : labelPosition? body.toArray label = some p) : body[p]? = some (.label label) := by
  have := find?_some h
  simpa using this

lemma labelPosition?_of_mem (h : label ∈ labels body) :
    ∃ p, labelPosition? body.toArray label = some p := by
  obtain ⟨p, e⟩ := mem_iff_getElem?.1 (mem_labels.1 h)
  have lt := (List.getElem?_eq_some_iff.1 e).1
  refine Option.isSome_iff_exists.1 (find?_isSome.2 ⟨p, by simpa using lt, ?_⟩)
  simpa using e

lemma getElem?_of_instructionBefore? {body : List Item}
    (h : instructionBefore? body.toArray k = some ins) :
    ∃ j, k = j + 1 ∧ body[j]? = some (.instruction ins) := by
  cases k with
  | zero => cases h
  | succ j =>
    refine ⟨j, rfl, ?_⟩
    simp only [instructionBefore?, getElem?_toArray] at h
    split at h
    · next e => cases h; exact e
    · cases h

lemma getElem?_of_labelBefore? {body : List Item}
    (h : labelBefore? body.toArray k = some label) :
    ∃ j, k = j + 1 ∧ body[j]? = some (.label label) := by
  cases k with
  | zero => cases h
  | succ j =>
    refine ⟨j, rfl, ?_⟩
    simp only [labelBefore?, getElem?_toArray] at h
    split at h
    · next e => cases h; exact e
    · cases h

lemma name_of_kind (kind : branch.isLikelyBranch ∨ branch.mnemonic = "b") :
    (if branch.mnemonic == "b" then "b" else String.ofList branch.mnemonic.toList.dropLast) =
      plainName branch := by
  rcases kind with likely | hb
  · have nb : branch.mnemonic ≠ "b" := by
      intro hb
      rw [not_likely_of_b hb] at likely
      cases likely
    rw [if_neg (by simpa using nb), plainName, if_pos likely]
  · rw [plainName, not_likely_of_b hb, hb]
    rfl

lemma LeadsTo.mono {body new final source target} (h : LeadsTo body new source target)
    (keeps : Keeps new final) : LeadsTo body final source target :=
  h.imp_right fun ⟨unlabelled, e⟩ => ⟨unlabelled, keeps e⟩

lemma ensureLabel_spec
    (red : Redirected body i source branch slot repeated label) (made : Made body new) :
    LeadsTo body (ensureLabel body.toArray new source (label ++ "_before")).2 source
        (ensureLabel body.toArray new source (label ++ "_before")).1 ∧
      Keeps new (ensureLabel body.toArray new source (label ++ "_before")).2 ∧
      Made body (ensureLabel body.toArray new source (label ++ "_before")).2 := by
  unfold ensureLabel
  split
  · next name e => exact ⟨.inl e, fun h => h, made⟩
  · next name e e' => exact ⟨.inr ⟨e, e'⟩, fun h => h, made⟩
  · next e e' =>
    refine ⟨.inr ⟨e, by simp [lookup]⟩, ?_, ?_⟩
    · intro k name h
      have ne : k ≠ source := by
        rintro rfl
        rw [h] at e'
        cases e'
      rw [lookup, beq_false_of_ne ne]
      exact h
    · intro k name h
      by_cases eq : k = source
      · subst eq
        simp only [lookup, beq_self_eq_true, Option.some.injEq] at h
        exact ⟨e, i, branch, slot, repeated, label, red, h.symm⟩
      · rw [lookup, beq_false_of_ne eq] at h
        exact made h

/-- A branch is replaced in one of the ways that `Replaced` lists. -/
lemma replaceBranch_replaced
    (hb : body[i]? = some (.instruction branch)) (hs : body[i + 1]? = some (.instruction slot))
    (kind : branch.isLikelyBranch ∨ branch.mnemonic = "b") (ht : branch.target = .ok label)
    (hp : body[position]? = some (.label label)) (made : Made body new) :
    ∃ here new', replaceBranch body.toArray new i branch (.instruction slot) label position =
        .ok (here, new') ∧
      Keeps new new' ∧ Made body new' ∧
      ∀ {final}, Keeps new' final → Replaced body final i branch slot here := by
  unfold replaceBranch
  cases before : instructionBefore? body.toArray position with
  | none => exact ⟨_, _, rfl, fun h => h, made, fun _ => .kept⟩
  | some repeated =>
    obtain ⟨source, rfl, hr⟩ := getElem?_of_instructionBefore? before
    simp only [Nat.add_sub_cancel, name_of_kind kind]
    split_ifs with h1 h2 h3
    · exact ⟨_, _, rfl, fun h => h, made, fun _ => .kept⟩
    · -- The branch goes around its own delay slot.
      simp only [Bool.and_eq_true, beq_iff_eq, Bool.not_eq_true', beq_eq_false_iff_ne] at h2
      obtain ⟨rfl, nb⟩ := h2
      have likely := kind.resolve_right nb
      obtain ⟨_, _, inverse, -, inv, -⟩ := likely_names _ (contains_iff_mem.1 likely)
      refine ⟨_, _, ?_, fun h => h, made,
        fun _ => .inverted likely (by rw [plainName, if_pos likely]; exact inv) ht hp⟩
      simp only [invertLikely, inv]
      rfl
    · simp only [Bool.and_eq_true, bne_iff_ne, ne_eq, beq_iff_eq, Bool.or_eq_true,
        Bool.not_eq_true', beq_eq_false_iff_ne] at h3
      obtain ⟨⟨apart, alike⟩, real⟩ := h3
      have kind' : branch.isLikelyBranch ∨ branch.mnemonic = "b" ∧ slot.mnemonic ≠ "nop" ∧
          ∀ ins, instructionBefore? body.toArray source = some ins → ins.hasDelaySlot = false := by
        refine kind.imp_right fun hb => ⟨hb, real.resolve_left (not_not_intro hb), ?_⟩
        intro ins e
        simp only [hb, beq_self_eq_true, e, Bool.not_eq_true] at h1
        exact h1
      have red : Redirected body i source branch slot repeated label :=
        ⟨hb, hs, hr, hp, ht, apart, alike, kind'⟩
      obtain ⟨leads, keeps, made'⟩ := ensureLabel_spec red made
      exact ⟨_, _, rfl, keeps, made', fun keeps' => .redirected red (leads.mono keeps')⟩
    · exact ⟨_, _, rfl, fun h => h, made, fun _ => .kept⟩

/-- The pass does not fail, and places every item of the body. -/
lemma replaceFrom_placing (wf : WellFormed body) (rest : items = body.drop i)
    (made : Made body new) :
    ∃ placed final, replaceFrom body.toArray new i items = .ok (placed, final) ∧
      Keeps new final ∧ Made body final ∧
      ∀ {final'}, Keeps final final' → Placing body final' i items placed := by
  -- The pass takes a branch together with its delay slot, so the induction is on the length.
  induction len : items.length using Nat.strongRecOn generalizing items i new with
  | ind n ih =>
  subst len
  cases items with
  | nil => exact ⟨[], new, rfl, fun h => h, made, fun _ => .nil⟩
  | cons item tail =>
    obtain ⟨at_i, drop_succ⟩ := of_cons_eq_drop rest
    have keep : (∀ ins, item = .instruction ins →
        ins.isLikelyBranch = false ∧ ins.mnemonic ≠ "b") →
        ∃ placed final, (do
            let r ← replaceFrom body.toArray new (i + 1) tail
            return ((some i, item) :: r.1, r.2)) = Except.ok (placed, final) ∧
          Keeps new final ∧ Made body final ∧
          ∀ {final'}, Keeps final final' → Placing body final' i (item :: tail) placed := by
      intro plain
      obtain ⟨placed, final, e, keeps, made', pl⟩ :=
        ih tail.length (by simp) drop_succ made rfl
      refine ⟨(some i, item) :: placed, final, by rw [e]; rfl, keeps, made', ?_⟩
      exact fun keeps' => .keep plain (pl keeps')
    cases item with
    | label name =>
      exact keep (by simp)
    | instruction ins =>
      rw [replaceFrom]
      split
      · next kind =>
        simp only [Bool.or_eq_true, beq_iff_eq] at kind
        have isBranch : ins.isBranch := kind.elim isBranch_of_likely isBranch_of_b
        obtain ⟨label, mem, ht⟩ := wf.targets at_i isBranch
        obtain ⟨slot, hs, -⟩ := wf.slots at_i isBranch
        obtain ⟨position, ep⟩ := labelPosition?_of_mem mem
        obtain ⟨tail', rfl⟩ : ∃ tail', tail = .instruction slot :: tail' :=
          head?_eq_some_iff.1 (by rw [drop_succ, head?_drop, hs])
        have drop_two := (of_cons_eq_drop drop_succ).2
        have hp := getElem?_of_labelPosition? ep
        obtain ⟨here, new', er, keeps, made', rep⟩ :=
          replaceBranch_replaced at_i hs kind ht hp made
        obtain ⟨placed, final, e, keeps', made'', pl⟩ :=
          ih tail'.length (by simp only [length_cons]; omega) drop_two made' rfl
        refine ⟨here ++ placed, final, ?_, fun h => keeps' (keeps h), made'', ?_⟩
        · rw [ht]
          simp only [bind, Except.bind, ep, er, e]
          rfl
        · intro final' keeps''
          exact .branch isBranch (rep fun h => keeps'' (keeps' h)) (pl keeps'')
      · next kind =>
        simp only [Bool.or_eq_true, beq_iff_eq, not_or, Bool.not_eq_true] at kind
        exact keep fun _ e => by cases e; exact kind

/-! ## Labels -/

def before (new : NewLabels) (i : Nat) : List Item :=
  (new.lookup i).toList.map .label

lemma withLabels_some :
    withLabels ((some i, item) :: placed) new = before new i ++ item :: withLabels placed new := by
  rw [before]
  cases e : new.lookup i with
  | none | some name => simp [e, withLabels]

lemma withLabels_none :
    withLabels ((none, item) :: placed) new = item :: withLabels placed new := rfl

lemma firstInstruction_before :
    firstInstruction (before new i ++ rest) = firstInstruction rest := by
  rw [before]
  cases new.lookup i <;> rfl

lemma firstInstruction_withLabels :
    firstInstruction (withLabels ((some i, .instruction ins) :: placed) new) =
      some (ins, withLabels placed new) := by
  rw [withLabels_some, firstInstruction_before]
  rfl

lemma behind_instruction :
    behind (.instruction i :: rest) label = behind rest label := rfl

lemma behind_before_self (h : new.lookup i = some label) :
    behind (before new i ++ rest) label = some rest := by
  rw [before, h]
  exact if_pos rfl

lemma behind_before (h : new.lookup i ≠ some label) :
    behind (before new i ++ rest) label = behind rest label := by
  rw [before]
  cases e : new.lookup i with
  | none => rfl
  | some name =>
    refine if_neg ?_
    rintro rfl
    exact h e

lemma Replaced.behind (rep : Replaced body new i branch slot here)
    (ne : new.lookup i ≠ some label) (placed : Placed) :
    ∃ x, Flow.behind (withLabels (here ++ placed) new) label =
        Flow.behind (before new (i + 1) ++ .instruction x :: withLabels placed new) label ∧
      (x = slot ∨ isNop x ∧ ∃ source r l, Redirected body i source branch slot r l) := by
  cases rep with
  | kept | inverted =>
    refine ⟨slot, ?_, .inl rfl⟩
    simp [withLabels_some, withLabels_none, behind_before ne, behind_instruction]
  | @redirected _ _ _ target red =>
    refine ⟨.derived "nop" [] (redirect branch target), ?_, .inr ⟨rfl, _, _, _, red⟩⟩
    simp [withLabels_some, behind_before ne, behind_instruction]

/-- An old label stands in front of corresponding code. -/
lemma Placing.behind (pl : Placing body new i items placed)
    (rest : items = body.drop i) (old : ∀ k, new.lookup k ≠ some label) :
    (behind items label = none ∧ behind (withLabels placed new) label = none) ∨
      ∃ j placed', behind items label = some (body.drop j) ∧
        behind (withLabels placed new) label = some (withLabels placed' new) ∧
        Placing body new j (body.drop j) placed' := by
  induction pl with
  | nil => exact .inl ⟨rfl, rfl⟩
  | @keep i item rest' placed _ pl ih =>
    have rest1 := (of_cons_eq_drop rest).2
    rw [withLabels_some, behind_before (old i)]
    cases item with
    | instruction ins => exact ih rest1
    | label name =>
      by_cases e : name = label
      · exact .inr ⟨i + 1, placed, rest1 ▸ if_pos e, if_pos e, rest1 ▸ pl⟩
      · simpa only [Flow.behind, if_neg e] using ih rest1
  | @branch i branch slot rest' here placed _ rep _ ih =>
    obtain ⟨x, found, -⟩ := rep.behind (old i) placed
    rw [found, behind_before (old _)]
    exact ih (of_cons_eq_drop (of_cons_eq_drop rest).2).2

/-- A new label stands in front of the instruction that was repeated. -/
lemma Placing.behind_new
    (pl : Placing body new i items placed) (rest : items = body.drop i) (le : i ≤ source)
    (hr : body[source]? = some (.instruction repeated)) (plain : repeated.isBranch = false)
    (made : new.lookup source = some label) (only : ∀ {k}, new.lookup k = some label → k = source)
    (fresh : label ∉ labels items)
    (unshared : ∀ {j k b s r l}, source = j + 1 → Redirected body j k b s r l → isNop repeated) :
    ∃ x placed', Flow.behind (withLabels placed new) label =
        some (.instruction x :: withLabels placed' new) ∧
      Placing body new (source + 1) (body.drop (source + 1)) placed' ∧
      (x = repeated ∨ isNop x ∧ isNop repeated) := by
  have other {k} (lt : k < source) : new.lookup k ≠ some label := fun e => lt.ne (only e)
  induction pl with
  | nil =>
    have lt := (List.getElem?_eq_some_iff.1 hr).1
    have := congrArg length rest
    simp only [length_nil, length_drop] at this
    omega
  | @keep i item rest' placed _ pl ih =>
    obtain ⟨hi, rest''⟩ := of_cons_eq_drop rest
    rcases lt_or_eq_of_le le with lt | rfl
    · have fresh' : label ∉ labels rest' := by
        cases item with
        | instruction ins => exact fresh
        | label name => exact fun h => fresh (mem_cons_of_mem _ h)
      rw [withLabels_some, behind_before (other lt)]
      cases item with
      | instruction ins => exact ih rest'' lt fresh'
      | label name =>
        have ne : name ≠ label := fun e => fresh (e ▸ mem_cons_self)
        rw [Flow.behind, if_neg ne]
        exact ih rest'' lt fresh'
    · cases hr.symm.trans hi
      rw [withLabels_some, behind_before_self made]
      exact ⟨repeated, placed, rfl, rest'' ▸ pl, .inl rfl⟩
  | @branch i branch slot rest' here placed isBranch rep pl ih =>
    obtain ⟨hi, rest1⟩ := of_cons_eq_drop rest
    obtain ⟨hs, rest2⟩ := of_cons_eq_drop rest1
    have lt : i < source := by
      refine lt_of_le_of_ne le ?_
      rintro rfl
      cases hr.symm.trans hi
      rw [plain] at isBranch
      cases isBranch
    obtain ⟨x, found, known⟩ := rep.behind (other lt) placed
    rw [found]
    rcases lt_or_eq_of_le (Nat.succ_le_of_lt lt) with lt' | rfl
    · rw [behind_before (other lt')]
      exact ih rest2 lt' fresh
    · cases hr.symm.trans hs
      rw [behind_before_self made]
      refine ⟨x, placed, rfl, rest2 ▸ pl, known.imp_right ?_⟩
      rintro ⟨nop, _, _, _, red⟩
      exact ⟨nop, unshared rfl red⟩

end Decompiler.Flow
