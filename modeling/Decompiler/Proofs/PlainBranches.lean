import Decompiler.Proofs.Likely

/-!
# Runs through branches that share an instruction with their target

A body and the body with plain branches in place of those that share an instruction with their
target are followed side by side. Corresponding places have corresponding code in front of them, and
every step of the body is answered by one or two steps of the new one.

Main statement: `plainBranches_sameRuns`.
-/

namespace Decompiler.Flow

open Asm Run Machine Instruction

def SlotsUnshared (body : List Item) : Prop :=
  ∀ {i j k b s r l b' s' r' l'}, Redirected body i (j + 1) b s r l →
    Redirected body j k b' s' r' l' → isNop s'

def NamesFree {σ : Type} (m : Machine σ) (body : List Item) : Prop :=
  ∀ {i source b s r l}, Redirected body i source b s r l → labelBefore? body.toArray source = none →
    l ++ "_before" ∉ labels body ∧ ∀ args s, m.destination args s ≠ some (l ++ "_before")

structure Plain {σ : Type} (m : Machine σ) (body : List Item) (new : NewLabels)
    (placed : Placed) : Prop where
  wellFormed : WellFormed body
  unshared : SlotsUnshared body
  free : NamesFree m body
  made : Made body new
  placing : Placing body new 0 body placed

/-- Places with corresponding code in front of them. -/
inductive Corresponds {σ : Type} (body : List Item) (new : NewLabels) :
    Place (List Item) σ → Place (List Item) σ → Prop where
  | here :
    Placing body new i (body.drop i) placed →
    firstInstruction code = firstInstruction (body.drop i) →
    firstInstruction code' = firstInstruction (withLabels placed new) →
    Corresponds body new (.here code s) (.here code' s)
  | over :
    Corresponds body new (.over r) (.over r)

/-- Corresponding first instructions: none, the same one without a delay slot, or two with one. -/
inductive Heads (body : List Item) (new : NewLabels) :
    Option (Instruction × List Item) → Option (Instruction × List Item) → Prop where
  | none :
    Heads body new none none
  | plain {i ins placed} :
    ins.hasDelaySlot = false →
    Placing body new i (body.drop i) placed →
    Heads body new (some (ins, body.drop i)) (some (ins, withLabels placed new))
  | delayed {ins ins' rest rest'} :
    ins.hasDelaySlot →
    ins'.hasDelaySlot →
    Heads body new (some (ins, rest)) (some (ins', rest'))

/-! ## Branches that come out -/

lemma plainName_plain {branch} (kind : branch.isLikelyBranch ∨ branch.mnemonic = "b") :
    Instruction.plainBranches.contains (plainName branch) ∧
      likelyBranches.contains (plainName branch) = false := by
  rcases kind with likely | hb
  · obtain ⟨_, _, _, -, -, -, plain, -, notLikely, -⟩ :=
      likely_names _ (List.contains_iff_mem.1 likely)
    rw [plainName, if_pos likely]
    exact ⟨plain, notLikely⟩
  · rw [plainName, not_likely_of_b hb, hb]
    decide +kernel

section

variable {σ : Type} {m : Machine σ} {branch : Instruction} {target : String} {s : σ}

lemma redirect_target : (redirect branch target).target = .ok target := by
  simp only [redirect, derived, Instruction.target, List.getLast?_concat]
  rfl

section

variable (kind : branch.isLikelyBranch ∨ branch.mnemonic = "b")

include kind

lemma redirect_not_likely : (redirect branch target).isLikelyBranch = false :=
  (plainName_plain kind).2

lemma redirect_isBranch : (redirect branch target).isBranch := by
  rw [isBranch, Bool.or_eq_true]
  exact .inl (plainName_plain kind).1

lemma taken_redirect : m.taken (redirect branch target) s = m.taken branch s := by
  have name : plainName (redirect branch target) = plainName branch := by
    rw [plainName, redirect_not_likely kind]
    rfl
  have args : (redirect branch target).args.dropLast = branch.args.dropLast :=
    List.dropLast_concat
  simp only [taken, name, args]
  rfl

end

end

/-! ## Corresponding places -/

lemma Corresponds.congr_left {s : σ} {b}
    (h : Corresponds body new (.here code s) b) (e : firstInstruction code2 = firstInstruction code) :
    Corresponds body new (.here code2 s) b := by
  cases h with
  | here pl e1 e2 => exact .here pl (e.trans e1) e2

lemma Placing.heads (pl : Placing body new i items placed)
    (rest : items = body.drop i) :
    Heads body new (firstInstruction items) (firstInstruction (withLabels placed new)) := by
  induction pl with
  | nil => exact .none
  | @keep i item rest' placed _ pl ih =>
    have rest1 := (of_cons_eq_drop rest).2
    rw [withLabels_some, firstInstruction_before]
    cases item with
    | label name => exact ih rest1
    | instruction ins =>
      subst rest1
      cases delay : ins.hasDelaySlot with
      | false => exact .plain delay pl
      | true => exact .delayed delay delay
  | @branch i _ _ _ _ placed isBranch rep =>
    have delayed {b : Instruction} (h : b.isBranch) := hasDelaySlot_of_isJump (isJump_of_isBranch h)
    cases rep with
    | kept =>
      rw [List.cons_append, withLabels_some, firstInstruction_before]
      exact .delayed (delayed isBranch) (delayed isBranch)
    | inverted likely inv =>
      rw [List.cons_append, withLabels_some, firstInstruction_before]
      exact .delayed (delayed isBranch) (delayed (inverse_isBranch likely inv).1)
    | redirected red =>
      rw [List.cons_append, withLabels_some, firstInstruction_before]
      exact .delayed (delayed isBranch) (delayed (redirect_isBranch (red.kind.imp_right And.left)))

namespace Plain

variable {σ : Type} {m : Machine σ} {body : List Item} {new : NewLabels}

section

variable (p : Plain m body new placed)

include p

lemma old_of_mem (h : label ∈ labels body) (k : Nat) : new.lookup k ≠ some label := by
  intro e
  obtain ⟨unlabelled, _, _, _, _, _, red, rfl⟩ := p.made e
  exact (p.free red unlabelled).1 h

lemma old_of_destination {label args s}
    (h : m.destination args s = some label) (k : Nat) : new.lookup k ≠ some label := by
  intro e
  obtain ⟨unlabelled, _, _, _, _, _, red, rfl⟩ := p.made e
  exact (p.free red unlabelled).2 args s h

lemma land {s : σ} (old : ∀ k, new.lookup k ≠ some label) :
    Corresponds body new (land (behind body) label s)
      (land (behind (withLabels placed new)) label s) := by
  unfold Flow.land
  rcases p.placing.behind rfl old with ⟨e, e'⟩ | ⟨j, placed', e, e', pl⟩ <;> rw [e, e']
  · exact .over
  · exact .here pl rfl rfl

lemma slot_plain {i branch slot}
    (hb : body[i]? = some (.instruction branch)) (hs : body[i + 1]? = some (.instruction slot))
    (isBranch : branch.isBranch) : slot.hasDelaySlot = false := by
  obtain ⟨slot', hs', plain⟩ := p.wellFormed.slots hb isBranch
  cases hs'.symm.trans hs
  exact plain

lemma jump
    (target : ins.isBranch → ∃ label ∈ labels body, ins.target = .ok label)
    (go : ∀ {s : σ}, Corresponds body new (.here next s) (.here next' s)) :
    ∃ es a a', m.jump (behind body) next ins slot s = .goOn es a ∧
      m.jump (behind (withLabels placed new)) next' ins slot s = .goOn es a' ∧
      Corresponds body new a a' := by
  cases isBranch : ins.isBranch with
  | true =>
    obtain ⟨label, mem, ht⟩ := target isBranch
    simp only [Machine.jump, isBranch, if_true, branch, landAt, ht]
    split_ifs
    · exact ⟨_, _, _, rfl, rfl, p.land (p.old_of_mem mem)⟩
    · exact ⟨_, _, _, rfl, rfl, go⟩
    · exact ⟨_, _, _, rfl, rfl, go⟩
  | false =>
    simp only [Machine.jump, isBranch, indirect]
    cases e : m.selection ins s with
    | none => exact ⟨_, _, _, rfl, rfl, .over⟩
    | some label =>
      rw [selection] at e
      split_ifs at e
      exact ⟨_, _, _, rfl, rfl, p.land (p.old_of_destination e)⟩

lemma answered_same
    (h : firstInstruction code = some (ins, tail)) (h' : firstInstruction code' = some (ins, tail'))
    (delay : ins.hasDelaySlot) (target : ins.isBranch → ∃ label ∈ labels body, ins.target = .ok label)
    (heads : Heads body new (firstInstruction tail) (firstInstruction tail')) :
    Answered (m.step (withLabels placed new)) (Corresponds body new) (.here code' s)
      (m.step body (.here code s)) := by
  generalize e : firstInstruction tail = found at heads
  generalize e' : firstInstruction tail' = found' at heads
  cases heads with
  | none =>
    rw [step_unpredictable h delay (by simp [e])]
    exact .stop (step_unpredictable h' delay (by simp [e']))
  | delayed d d' =>
    rw [step_unpredictable h delay (by rw [e]; rintro _ _ ⟨⟩; exact d)]
    exact .stop (step_unpredictable h' delay (by rw [e']; rintro _ _ ⟨⟩; exact d'))
  | plain d pl =>
    cases jump : ins.isJump with
    | true =>
      rw [step_jump h e jump d]
      obtain ⟨es, a, a', st, st', corr⟩ := p.jump target (.here pl rfl rfl)
      rw [st]
      exact .single (by rw [step_jump h' e' jump d, st']) corr
    | false =>
      rw [step_call h e delay jump d]
      exact .single (step_call h' e' delay jump d) (.here pl rfl rfl)

lemma repeated_alike {i source branch slot repeated label}
    (red : Redirected body i source branch slot repeated label) :
    repeated.mnemonic = slot.mnemonic ∧ slot.hasDelaySlot = false ∧
      repeated.hasDelaySlot = false := by
  have name := mnemonic_of_text (p.wellFormed.words red.repeated_at)
    (p.wellFormed.words red.slot_at) red.alike
  have plain := p.slot_plain red.branch_at red.slot_at red.isBranch
  refine ⟨name, plain, ?_⟩
  rw [← plain]
  simp only [hasDelaySlot, isBranch, isLikelyBranch, name]

/-- A redirected branch lands in front of the repeated instruction. -/
lemma landing {i source branch slot repeated label target}
    (red : Redirected body i source branch slot repeated label) (leads : LeadsTo body new source target) :
    ∃ code x j placed', behind (withLabels placed new) target = some code ∧
      firstInstruction code = some (x, withLabels placed' new) ∧
      Placing body new j (body.drop j) placed' ∧ body.drop j = body.drop (source + 1) ∧
      (x = repeated ∨ isNop x ∧ isNop repeated) := by
  obtain ⟨-, -, plain⟩ := p.repeated_alike red
  rcases leads with labelled | ⟨unlabelled, made⟩
  · -- The label is one of the body, with the corresponding code behind it.
    obtain ⟨k, rfl, hl⟩ := getElem?_of_labelBefore? labelled
    have found := behind_of_getElem? p.wellFormed.distinct hl
    have old := p.old_of_mem (mem_labels.2 (List.mem_of_getElem? hl))
    rcases p.placing.behind rfl old with ⟨e, -⟩ | ⟨j, placed', e, e', pl⟩
    · rw [found] at e
      cases e
    · rw [found] at e
      have first : firstInstruction (body.drop j) = some (repeated, body.drop (k + 2)) := by
        rw [← Option.some.inj e, drop_of_getElem? red.repeated_at]
        rfl
      have heads := pl.heads rfl
      rw [first] at heads
      generalize eq : firstInstruction (withLabels placed' new) = found' at heads
      generalize body.drop (k + 2) = rest at heads
      cases heads with
      | plain _ pl' => exact ⟨_, _, _, _, e', eq, pl', rfl, .inl rfl⟩
      | delayed d _ =>
        rw [plain] at d
        cases d
  · -- The label is new: its name belongs to one place and is none of the body.
    have branchless : repeated.isBranch = false := by
      cases h : repeated.isBranch with
      | false => rfl
      | true =>
        rw [hasDelaySlot_of_isJump (isJump_of_isBranch h)] at plain
        cases plain
    have only : ∀ {k}, new.lookup k = some target → k = source := by
      intro k h
      obtain ⟨-, _, _, _, _, name, red1, e1⟩ := p.made h
      obtain ⟨-, _, _, _, _, name2, red2, e2⟩ := p.made made
      have eq : name = name2 := by
        have := congrArg String.toList (e1.symm.trans e2)
        simp only [String.toList_append, List.append_cancel_right_eq] at this
        exact String.toList_inj.1 this
      subst eq
      exact Nat.succ.inj (label_position_unique p.wellFormed.distinct red1.label_at red2.label_at)
    have fresh : target ∉ labels body := fun h => p.old_of_mem h source made
    obtain ⟨x, placed', found, pl, hx⟩ :=
      p.placing.behind_new rfl (Nat.zero_le source) red.repeated_at branchless made only fresh (by
        rintro j k b s r l rfl red'
        cases red'.slot_at.symm.trans red.repeated_at
        exact p.unshared red red')
    exact ⟨_, x, _, placed', found, rfl, pl, rfl, hx⟩

lemma answered_inverted
    {i branch slot nop label inverse code' tail' placed' s} (likely : branch.isLikelyBranch)
    (inv : inverse? (plainName branch) = some inverse) (ht : branch.target = .ok label)
    (hl : body[i + 2]? = some (.label label)) (plain : slot.hasDelaySlot = false)
    (pl : Placing body new (i + 2) (body.drop (i + 2)) placed')
    (first : firstInstruction code' =
      some (.derived inverse branch.args branch, .instruction nop :: tail')) (hn : nop.mnemonic = "nop")
    (second : firstInstruction tail' = some (slot, withLabels placed' new)) :
    Answered (m.step (withLabels placed new)) (Corresponds body new) (.here code' s)
      (m.step body (.here (.instruction branch :: .instruction slot :: body.drop (i + 2)) s)) := by
  have isBranch := isBranch_of_likely likely
  obtain ⟨isBranch', unlikely⟩ := inverse_isBranch likely inv
  have ht' : (derived inverse branch.args branch).target = .ok label :=
    target_of_args (i := branch) rfl ht
  have first' : firstInstruction (body.drop (i + 3)) = firstInstruction (body.drop (i + 2)) := by
    rw [drop_of_getElem? hl]
    rfl
  have landed (t : σ) : Flow.land (behind body) label t = .here (body.drop (i + 3)) t := by
    rw [Flow.land, behind_of_getElem? p.wellFormed.distinct hl]
  have step' : m.step (withLabels placed new) (.here code' s) = _ :=
    step_jump first rfl (isJump_of_isBranch isBranch') (nop_plain hn)
  have asks := taken_inverse (m := m) (s := s) likely inv rfl
  rw [step_jump rfl rfl (isJump_of_isBranch isBranch) plain]
  cases taken : (m.taken branch s).1 with
  | true =>
    rw [jump_taken isBranch ht taken, landed]
    rw [jump_passed isBranch' unlikely (by rw [asks, taken]; rfl), asks, shown_nop hn,
      List.append_nil, run_nop hn] at step'
    exact ⟨1, _, .step step' (.single (step_plain second plain)),
      .here pl first' rfl⟩
  | false =>
    rw [jump_skipped likely taken]
    rw [jump_taken isBranch' ht' (by rw [asks, taken]; rfl), asks, shown_nop hn,
      List.append_nil, run_nop hn] at step'
    have corr := p.land (s := s) (p.old_of_mem (mem_labels.2 (List.mem_of_getElem? hl)))
    rw [landed] at corr
    exact .single step' (corr.congr_left first'.symm)

lemma answered_redirected {i source branch slot repeated nop label target code' tail' placed' s}
    (red : Redirected body i source branch slot repeated label) (leads : LeadsTo body new source target)
    (pl : Placing body new (i + 2) (body.drop (i + 2)) placed')
    (first : firstInstruction code' = some (redirect branch target, tail'))
    (second : firstInstruction tail' = some (nop, withLabels placed' new)) (hn : nop.mnemonic = "nop") :
    Answered (m.step (withLabels placed new)) (Corresponds body new) (.here code' s)
      (m.step body (.here (.instruction branch :: .instruction slot :: body.drop (i + 2)) s)) := by
  obtain ⟨alike, plain, plain'⟩ := p.repeated_alike red
  have kind := red.kind.imp_right And.left
  have isBranch' : (redirect branch target).isBranch := redirect_isBranch kind
  have unlikely : (redirect branch target).isLikelyBranch = false := redirect_not_likely kind
  have asks : m.taken (redirect branch target) s = _ := taken_redirect kind
  have step' : m.step (withLabels placed new) (.here code' s) = _ :=
    step_jump first second (isJump_of_isBranch isBranch') (nop_plain hn)
  rw [step_jump rfl rfl (isJump_of_isBranch red.isBranch) plain]
  cases taken : (m.taken branch s).1 with
  | true =>
    obtain ⟨code, x, j, placed'', found', first', pl', rest', hx⟩ := p.landing red leads
    have found := behind_of_getElem? p.wellFormed.distinct red.label_at
    have same : x.hasDelaySlot = false ∧ shown (σ := σ) x = shown slot ∧
        ∀ s, m.run x s = m.run slot s := by
      rcases hx with rfl | ⟨nop1, nop2⟩
      · simp only [shown, run, isNop, alike, red.alike]
        exact ⟨plain', rfl, fun _ => rfl⟩
      · have nop1' : x.mnemonic = "nop" := by simpa [isNop] using nop1
        have nop2' : slot.mnemonic = "nop" := by simpa [isNop, alike] using nop2
        refine ⟨nop_plain nop1', ?_, fun s => ?_⟩
        · rw [shown_nop nop1', shown_nop nop2']
        · rw [run_nop nop1', run_nop nop2']
    obtain ⟨plain1, shown1, run1⟩ := same
    rw [jump_taken red.isBranch red.target taken, Flow.land, found]
    rw [jump_taken isBranch' redirect_target (by rw [asks, taken]), asks, shown_nop hn,
      List.append_nil, run_nop hn, Flow.land, found'] at step'
    rw [← shown1, ← run1]
    refine ⟨1, _, .step step' (.single (step_plain first' plain1)), .here pl' ?_ rfl⟩
    rw [rest', drop_of_getElem? red.label_at]
    rfl
  | false =>
    have likely : branch.isLikelyBranch := by
      refine kind.resolve_right fun hb => ?_
      rw [taken_b hb] at taken
      cases taken
    rw [jump_skipped likely taken]
    rw [jump_passed isBranch' unlikely (by rw [asks, taken]), asks, shown_nop hn,
      List.append_nil, run_nop hn] at step'
    exact .single step' (.here pl rfl rfl)

/-- Every step of the old code is answered by the new code. -/
lemma simulates :
    Simulates (m.step body) (m.step (withLabels placed new)) (Corresponds body new) := by
  have code {i items placed' s} (pl : Placing body new i items placed') :
      items = body.drop i → Answered (m.step (withLabels placed new)) (Corresponds body new)
        (.here (withLabels placed' new) s) (m.step body (.here items s)) := by
    induction pl with
    | nil => exact fun _ => .stop rfl
    | @keep i item rest' placed' _ pl ih =>
      intro items
      obtain ⟨hi, rest⟩ := of_cons_eq_drop items
      cases item with
      | label name =>
        refine (ih rest).of_eq (step_congr ?_)
        rw [withLabels_some, firstInstruction_before]
        rfl
      | instruction ins =>
        cases delay : ins.hasDelaySlot with
        | false =>
          rw [step_plain rfl delay]
          exact .single (step_plain firstInstruction_withLabels delay)
            (.here (rest ▸ pl) (rest ▸ rfl) rfl)
        | true =>
          exact p.answered_same rfl firstInstruction_withLabels delay (p.wellFormed.targets hi)
            (pl.heads rest)
    | @branch i branch slot rest' here placed' isBranch rep pl ih =>
      intro items
      obtain ⟨hi, rest⟩ := of_cons_eq_drop items
      obtain ⟨hs, rest'⟩ := of_cons_eq_drop rest
      subst rest'
      have plain := p.slot_plain hi hs isBranch
      cases rep with
      | kept =>
        rw [List.cons_append, List.singleton_append]
        refine p.answered_same rfl firstInstruction_withLabels
          (hasDelaySlot_of_isJump (isJump_of_isBranch isBranch)) (p.wellFormed.targets hi) ?_
        rw [firstInstruction_withLabels]
        exact .plain plain pl
      | inverted likely inv ht hl =>
        exact p.answered_inverted likely inv ht hl plain pl firstInstruction_withLabels rfl
          firstInstruction_withLabels
      | redirected red leads =>
        exact p.answered_redirected red leads pl firstInstruction_withLabels
          firstInstruction_withLabels rfl
  rintro _ _ (⟨pl, e, e'⟩ | _)
  · rw [step_congr e]
    exact (code pl rfl).of_eq (step_congr e'.symm)
  · exact .stop rfl

end

end Plain

/-- Putting plain branches in place of those that share an instruction with their target succeeds on
well-formed bodies, and the new body runs as the body does: it executes the same instructions, its
branches ask the same tests in the same states, and it ends alike. -/
theorem plainBranches_sameRuns {σ : Type} (m : Machine σ) {body : List Item}
    (wf : WellFormed body) (unshared : SlotsUnshared body) (free : NamesFree m body) :
    ∃ new, plainBranches body = .ok new ∧
      ∀ s, SameRuns (m.step body) (.here body s) (m.step new) (.here new s) := by
  have none_made : Made body [] := nofun
  obtain ⟨placed, new, e, -, made, pl⟩ :=
    replaceFrom_placing wf (show body = body.drop 0 from rfl) none_made
  have p : Plain m body new placed := ⟨wf, unshared, free, made, pl fun h => h⟩
  refine ⟨withLabels placed new, by rw [plainBranches, e]; rfl, fun s => ?_⟩
  exact Simulates.sameRuns p.simulates (.here p.placing rfl rfl)

/-- Two branches to one repeated instruction, and one around its own delay slot. -/
def repeatedTwice : List Item :=
  [inLine 1 "beqzl" ["a0", .target "L1"],
   inLine 2 "addiu" ["v0", "v0", .literal 1],
   inLine 3 "b" [.target "L1"],
   inLine 4 "addiu" ["v0", "v0", .literal 1],
   inLine 5 "addiu" ["v1", "v1", .literal 1],
   inLine 6 "addiu" ["v0", "v0", .literal 1],
   .label "L1",
   inLine 8 "bnezl" ["a1", .target "L2"],
   inLine 9 "move" ["v0", "v1"],
   .label "L2",
   inLine 11 "jr" ["ra"],
   inLine 12 "nop" []]

lemma repeatedTwice_branch (h : repeatedTwice[k]? = some (.instruction i)) (isBranch : i.isBranch) :
    (k = 0 ∨ k = 2 ∨ k = 7) ∧ (i.target = .ok "L1" ∨ i.target = .ok "L2") := by
  rcases k with _ | _ | _ | _ | _ | _ | _ | _ | _ | _ | _ | _ | k
  all_goals cases h
  all_goals first
    | exact ⟨by decide, by decide +kernel⟩
    | exact absurd isBranch (by decide +kernel)

/-- The theorem holds of a body in which two branches are redirected and one is inverted. -/
theorem plainBranches_sameRuns_repeatedTwice :
    (WellFormed repeatedTwice ∧ SlotsUnshared repeatedTwice ∧
      NamesFree Machine.recorder repeatedTwice) ∧
    ∃ new, plainBranches repeatedTwice = .ok new ∧
      ∀ s, SameRuns (Machine.recorder.step repeatedTwice) (.here repeatedTwice s)
        (Machine.recorder.step new) (.here new s) := by
  have wf : WellFormed repeatedTwice := by decide +kernel
  have unshared : SlotsUnshared repeatedTwice := by
    intro i j k b s r l b' s' r' l' red red'
    have label_at := red.label_at
    rcases (repeatedTwice_branch red'.branch_at red'.isBranch).1 with rfl | rfl | rfl
    · cases label_at
    · cases label_at
    · -- That branch goes around its own delay slot and is not redirected.
      cases red'.branch_at
      cases red'.target
      have at_nine : repeatedTwice[9]? = some (.label "L2") := rfl
      have e := label_position_unique wf.distinct red'.label_at at_nine
      exact absurd (Nat.succ.inj e) red'.apart
  have free : NamesFree Machine.recorder repeatedTwice := by
    intro i source b s r l red _
    refine ⟨?_, nofun⟩
    have target := (repeatedTwice_branch red.branch_at red.isBranch).2
    rw [red.target] at target
    rcases target with e | e
    · cases e
      decide +kernel
    · cases e
      decide +kernel
  exact ⟨⟨wf, unshared, free⟩, plainBranches_sameRuns Machine.recorder wf unshared free⟩

/-- The first branch leads to the delay slot of the second, and both are redirected. -/
def sharedSlot : List Item :=
  [inLine 2 "beqzl" ["a0", .target "L1"],
   inLine 3 "addiu" ["v0", "v0", .literal 1],
   inLine 4 "nop" [],
   inLine 5 "beqzl" ["a1", .target "L2"],
   inLine 6 "addiu" ["v0", "v0", .literal 1],
   .label "L1",
   inLine 8 "addiu" ["v1", "v1", .literal 1],
   inLine 9 "addiu" ["v0", "v0", .literal 1],
   .label "L2",
   inLine 11 "jr" ["ra"],
   inLine 12 "nop" []]

def takenName : List Item :=
  [inLine 2 "beqzl" ["a0", .target "L1"],
   inLine 3 "addiu" ["v0", "v0", .literal 1],
   .label "L1_before",
   inLine 5 "addiu" ["v1", "v1", .literal 1],
   inLine 6 "addiu" ["v0", "v0", .literal 1],
   .label "L1",
   inLine 8 "jr" ["ra"],
   inLine 9 "nop" []]

def recordsDiffer (body : List Item) : Bool :=
  match plainBranches body with
  | .error _ => false
  | .ok new =>
    let run := finish (Machine.recorder.step body) 9 (.here body [])
    let run' := finish (Machine.recorder.step new) 9 (.here new [])
    run.isSome ∧ run'.isSome ∧ run ≠ run'

/-- Without either condition, well-formed bodies come out that run differently. -/
theorem plainBranches_runs_differ :
    (WellFormed sharedSlot ∧ ∃ new, plainBranches sharedSlot = .ok new ∧
      ¬ SameRuns (Machine.recorder.step sharedSlot) (.here sharedSlot [])
        (Machine.recorder.step new) (.here new [])) ∧
    WellFormed takenName ∧ ∃ new, plainBranches takenName = .ok new ∧
      ¬ SameRuns (Machine.recorder.step takenName) (.here takenName [])
        (Machine.recorder.step new) (.here new []) := by
  have differ {body : List Item} (h : recordsDiffer body) :
      ∃ new, plainBranches body = .ok new ∧
        ¬ SameRuns (Machine.recorder.step body) (.here body [])
          (Machine.recorder.step new) (.here new []) := by
    unfold recordsDiffer at h
    split at h
    · cases h
    · next new e =>
      obtain ⟨ends, ends', ne⟩ := of_decide_eq_true h
      exact ⟨new, e, not_sameRuns ends ends' ne⟩
  constructor
  · exact ⟨by decide +kernel, differ (by decide +kernel)⟩
  · exact ⟨by decide +kernel, differ (by decide +kernel)⟩

end Decompiler.Flow
