import Decompiler.Proofs.Structured

/-!
# Code with gotos only

Without recovered control flow, the nodes stand in the order of the graph, and a node that goes on
at the one behind it has no jump. Only the last return is out of its place: its code stands at the
end of the body.

Main statement: `buildBody_gotos_follow`.
-/

namespace Decompiler.Structure

open Code Eval Decompiler.Flow Decompiler.Run List

def GoesTo (P : Nat → Prop) (body : Body) : Prop :=
  ∀ n t, Within (.goto n t) body → P t

namespace GoesTo

lemma nil : GoesTo P [] := by
  intro n t h
  cases h.mem nofun

lemma append (ha : GoesTo P a) (hb : GoesTo P b) : GoesTo P (a ++ b) := by
  intro n t h
  rcases within_append.1 h with h | h
  · exact ha n t h
  · exact hb n t h

lemma branch (h : GoesTo P a) : GoesTo P [.branch indent c a none] := by
  intro n t w
  rcases within_branch.1 w with same | w
  · cases same
  · exact h n t (by rwa [Option.getD_none, append_nil] at w)

end GoesTo

section

variable {p : Plan}

lemma Head.goesTo (h : Head p s i body) : GoesTo P body := by
  intro n t w
  cases h with
  | copy => cases mem_singleton.1 (w.mem (by simp))
  | labelled => simpa using w.mem (by simp)

lemma Return.goesTo (h : Return p s i isLast body) : GoesTo P body := by
  cases h with
  | last _ head => exact head.goesTo
  | exit head =>
    refine head.goesTo.append fun n t w => ?_
    cases mem_singleton.1 (w.mem (by simp))

lemma Jump.goesTo (h : Jump p s i o body o') (target : p.isCopy i = false → P i) : GoesTo P body := by
  cases h with
  | copy _ code => exact code.goesTo
  | goto own =>
    intro n t w
    cases mem_singleton.1 (w.mem (by simp))
    exact target own

end

def fallsInto : Link → Nat → Prop
  | .next t, i => t = i
  | .branch _ f, i => f = i
  | _, _ => False

lemma mem_targets_of_fallsInto (h : fallsInto link i) : i ∈ link.targets := by
  cases link with
  | next t => exact mem_singleton.2 h.symm
  | branch t f => exact mem_cons_of_mem _ (mem_singleton.2 h.symm)
  | select cases | exit copy => cases h

def Plan.Passes (p : Plan) (i : Nat) : Prop :=
  fallsInto (p.node i).link (i + 1) ∧ p.isCopy (i + 1) = false

def Plan.Labelled (p : Plan) (i : Nat) : Prop :=
  i < p.graph.nodes.size ∧ p.isCopy i = false

structure Plain (p : Plan) (s : Session) (i : Nat) (body : Body) : Prop where
  begins :
    Begins False p.graph s (fun rest => p.Passes i → Enters False p.graph s rest (i + 1)) body i
  goes : GoesTo p.Labelled body
  label : ∃ n, Within (.label n i) body

inductive InPlace (p : Plan) (s : Session) (exit i : Nat) : Body → Prop where
  | code :
    p.isCopy i = false →
    i ≠ exit →
    Plain p s i body →
    InPlace p s exit i body
  | nothing :
    p.isCopy i ∨ i = exit →
    InPlace p s exit i []

section

variable {p : Plan} {n : Node}

lemma Plain.of_parts {head jump out}
    (begins : Begins False p.graph s (fun rest => Leaves False p.graph s i rest out) head i)
    (label : ∃ n, Within (.label n i) head) (goes : GoesTo p.Labelled head)
    (leaves : ∀ rest, (p.Passes i → Enters False p.graph s rest (i + 1)) →
      Leaves False p.graph s i (jump ++ rest) out ∧ Resolved False p.graph s jump rest)
    (jumps : GoesTo p.Labelled jump) : Plain p s i (head ++ jump) where
  begins := begins.append leaves
  goes := goes.append jumps
  label := by
    obtain ⟨n, w⟩ := label
    exact ⟨n, within_append.2 (.inl w)⟩

lemma GoesOn.enters {next : Nat} (h : GoesOn p s i next body) (found : p.graph.nodes[next]? = some m)
    (falls : next = i + 1 → p.isCopy next = false → p.Passes i) :
    (∀ rest, (p.Passes i → Enters False p.graph s rest (i + 1)) →
      Enters False p.graph s (body ++ rest) next ∧ Resolved False p.graph s body rest) ∧
      GoesTo p.Labelled body := by
  cases h with
  | behind same own =>
    subst same
    exact ⟨fun rest enters => ⟨enters (falls rfl own), .nil⟩, .nil⟩
  | jump jump =>
    have lt := (getElem?_eq_some_iff.1 found).1
    exact ⟨fun rest _ => jump.begins found rest trivial, jump.goesTo fun own => ⟨lt, own⟩⟩

/-- Every node but the return stands in its place. -/
lemma InOrder.inPlace {exit} (h : InOrder p s (some exit) i body) (conn : p.graph.Connected)
    (last : (p.node exit).link = .exit 0) (found : p.graph.nodes[i]? = some n) :
    InPlace p s exit i body := by
  have node := p.node_eq found
  have target {t} (mem : t ∈ (p.node i).link.targets) : ∃ m, p.graph.nodes[t]? = some m := by
    obtain ⟨m, found', -⟩ := conn.links found t (node ▸ mem)
    exact ⟨m, found'⟩
  -- What stands behind the block of a node that goes on somewhere.
  have code {head jump} (written : Head p s i head) (goesOn : (p.node i).isExit = false)
      (leaves : ∀ rest, (p.Passes i → Enters False p.graph s rest (i + 1)) →
        Leaves False p.graph s i (jump ++ rest) (p.node i).link ∧ Resolved False p.graph s jump rest)
      (jumps : GoesTo p.Labelled jump) : InPlace p s exit i (head ++ jump) := by
    have own := p.not_isCopy goesOn
    refine .code own ?_ (.of_parts (node ▸ written.begins found) (written.label own) written.goesTo
      leaves jumps)
    rintro rfl
    rw [Node.isExit, last] at goesOn
    cases goesOn
  cases h with
  | nothing _ gone => exact .nothing (gone.imp_right fun same => (Option.some.inj same).symm)
  | exit link own other code =>
    refine .code own (fun same => other (congrArg some same.symm)) ⟨?_, code.goesTo, code.label own⟩
    refine (code.begins found (node ▸ link)).imp ?_
    rintro _ _ ⟨⟩
  | next link head jump =>
    obtain ⟨m, found'⟩ := target (by rw [link]; exact mem_singleton_self _)
    obtain ⟨enters, jumps⟩ := jump.enters found' (by
      rintro rfl own
      exact ⟨by rw [link]; rfl, own⟩)
    refine code head (by rw [Node.isExit, link]) (fun rest h => ?_) jumps
    rw [link]
    exact (enters rest h).imp_left .next
  | select link head =>
    refine code head (by rw [Node.isExit, link]) (fun rest _ => ?_) fun n t w => ?_
    · rw [link]
      exact ⟨.dispatch, .plain fun _ _ => rfl⟩
    · cases mem_singleton.1 (w.mem (by simp))
  | branch link head jump condition rest =>
    obtain ⟨m, found'⟩ := target (by rw [link]; exact mem_cons_self)
    obtain ⟨m', behind⟩ := target (by rw [link]; exact mem_cons_of_mem _ (mem_singleton_self _))
    obtain ⟨enters, jumps⟩ := rest.enters behind (by
      rintro rfl own
      exact ⟨by rw [link]; rfl, own⟩)
    have lt := (getElem?_eq_some_iff.1 found').1
    refine code head (by rw [Node.isExit, link]) (fun rest h => ?_)
      ((GoesTo.branch (jump.goesTo fun own => ⟨lt, own⟩)).append jumps)
    obtain ⟨passed, resolved⟩ := enters rest h
    obtain ⟨taken, resolved'⟩ := jump.begins found' (_ ++ rest) trivial
    rw [link]
    exact ⟨.branch condition taken passed, Resolved.append (.branch resolved' .nil) resolved⟩

end

def ReturnInPlace (g : Graph) : Prop :=
  ∀ exit, g.returnNode? = some exit →
    (∀ (i : Nat) (n : Node), exit < i → g.nodes[i]? = some n → n.link.isCopy) ∨
    ∀ (i : Nat) (n : Node), i + 1 = exit → g.nodes[i]? = some n → ¬ fallsInto n.link exit

section

variable {p : Plan}

def Plan.Placed (p : Plan) (exit i : Nat) : Prop :=
  p.Labelled i ∧ (i = exit → ∀ j, i < j → j < p.graph.nodes.size → p.isCopy j)

lemma Plan.Passes.placed (passes : p.Passes i) (conn : p.graph.Connected)
    (placed : ReturnInPlace p.graph) (last : p.graph.returnNode? = some exit)
    (found : p.graph.nodes[i]? = some n) : p.Placed exit (i + 1) := by
  obtain ⟨falls, own⟩ := passes
  rw [p.node_eq found] at falls
  obtain ⟨m, found', -⟩ := conn.links found _ (mem_targets_of_fallsInto falls)
  refine ⟨⟨(getElem?_eq_some_iff.1 found').1, own⟩, ?_⟩
  rintro rfl j behind lt
  rcases placed _ last with copies | elsewhere
  · have := copies j _ behind (Array.getElem?_eq_getElem lt)
    rwa [p.isCopy_eq, p.node_eq (Array.getElem?_eq_getElem lt)]
  · exact absurd falls (elsewhere i n rfl found)

lemma flatten_copies (h : Forall₂ (InPlace p s exit) is bodies)
    (copies : ∀ j ∈ is, p.isCopy j) : bodies.flatten = [] := by
  induction h with
  | nil => rfl
  | cons first _ ih =>
    cases first with
    | code own => exact absurd (copies _ mem_cons_self) (by simp [own])
    | nothing => exact ih fun j mem => copies j (mem_cons_of_mem _ mem)

/-- The code of the nodes that are left enters each node where it stands. -/
lemma flatten_enters (conn : p.graph.Connected) (placed : ReturnInPlace p.graph)
    (last : p.graph.returnNode? = some exit) (ends : Enters False p.graph s ret exit)
    (size : k + m = p.graph.nodes.size) (h : Forall₂ (InPlace p s exit) (range' k m) bodies) :
    (p.Placed exit k → Enters False p.graph s (bodies.flatten ++ ret) k) ∧
      Resolved False p.graph s bodies.flatten ret := by
  -- From the last node to the first one, as each may fall into the next.
  induction m generalizing k bodies with
  | zero =>
    cases h
    refine ⟨fun here => ?_, .nil⟩
    have := here.1.1
    omega
  | succ m ih =>
    obtain _ | ⟨first, rest⟩ := h
    obtain ⟨enters, resolved⟩ := ih (by omega) rest
    have found : p.graph.nodes[k]? = some p.graph.nodes[k] := Array.getElem?_eq_getElem (by omega)
    cases first with
    | code own other plain =>
      obtain ⟨enters', resolved'⟩ := plain.begins _ fun passes =>
        enters (passes.placed conn placed last found)
      rw [flatten_cons, append_assoc]
      exact ⟨fun _ => enters', resolved'.append resolved⟩
    | nothing gone =>
      rw [flatten_cons]
      refine ⟨fun ⟨⟨_, own⟩, behind⟩ => ?_, resolved⟩
      obtain rfl : k = exit := gone.resolve_left (by simp [own])
      rw [flatten_copies rest]
      · exact ends
      · intro j mem
        have := mem_range'_1.1 mem
        exact behind rfl j (by omega) (by omega)

lemma flatten_labels (h : Forall₂ (InPlace p s exit) is bodies) (mem : i ∈ is)
    (own : p.isCopy i = false) (other : i ≠ exit) : ∃ n, Within (.label n i) bodies.flatten := by
  induction h with
  | nil => cases mem
  | cons first _ ih =>
    rcases mem_cons.1 mem with rfl | mem
    · cases first with
      | code _ _ plain =>
        obtain ⟨n, w⟩ := plain.label
        exact ⟨n, within_append.2 (.inl w)⟩
      | nothing gone => exact absurd gone (by simp [own, other])
    · obtain ⟨n, w⟩ := ih mem
      exact ⟨n, within_append.2 (.inr w)⟩

lemma flatten_goesTo (h : Forall₂ (InPlace p s exit) is bodies) :
    GoesTo p.Labelled bodies.flatten := by
  induction h with
  | nil => exact .nil
  | cons first _ ih =>
    cases first with
    | code _ _ plain => exact plain.goes.append ih
    | nothing => exact ih

/-- The body enters the first node, and all its jumps have labels. -/
lemma buildBody_plain (conn : p.graph.Connected) (falls : p.graph.FallsOn)
    (structured : p.options.structured = false) (placed : ReturnInPlace p.graph)
    (last : p.graph.returnNode? = some exit)
    (entry : p.Placed exit 0) : Yields s (buildBody p) {} fun body _ =>
      Enters False p.graph s body 0 ∧ Resolved False p.graph s body [] ∧ GoesTo p.Labelled body ∧
        ∀ i, p.Labelled i → ∃ n, Within (.label n i) body := by
  have link := p.returnNode last
  have found := p.exists_returnNode last
  refine (buildBody_whole (Q := fun body _ => ∃ bodies, body = bodies.flatten ∧
      Forall₂ (InPlace p s exit) (range p.graph.nodes.size) bodies) falls
    (by simp [structured]) fun _ bodies _ each => ⟨bodies, rfl, ?_⟩).imp fun body _ whole => ?_
  · rw [last] at each
    refine ((forall₂_and_left _ _).2 ⟨fun i => mem_range.1, each⟩).imp fun i body code => ?_
    exact code.2.inPlace conn link (Array.getElem?_eq_getElem code.1)
  cases whole with
  | none none => simp [last] at none
  | last last' plain code =>
    obtain ⟨bodies, rfl, places⟩ := plain
    cases last.symm.trans last'
    obtain ⟨ends, resolved⟩ := code.begins found link [] fun _ => rfl
    rw [append_nil] at ends
    have range := range_eq_range' ▸ places
    obtain ⟨enters, resolved'⟩ := flatten_enters conn placed last ends (zero_add _) range
    refine ⟨enters entry, Resolved.append ?_ resolved, (flatten_goesTo places).append code.goesTo, ?_⟩
    · rwa [append_nil]
    · intro i ⟨lt, own⟩
      by_cases same : i = exit
      · subst same
        obtain ⟨n, w⟩ := code.label own
        exact ⟨n, within_append.2 (.inr w)⟩
      · obtain ⟨n, w⟩ := flatten_labels places (mem_range.2 lt) own same
        exact ⟨n, within_append.2 (.inl w)⟩

end

variable {g : Graph}

lemma eq_zero_of_exit (rooted : g.Rooted) {n copy i} (found : g.nodes[0]? = some n)
    (link : n.link = .exit copy) (lt : i < g.nodes.size) : i = 0 := by
  obtain ⟨path, along⟩ := rooted.reached i lt
  induction along with
  | here => rfl
  | @step _ j k _ edge ih =>
    obtain ⟨m, found', target⟩ := edge
    obtain rfl := ih (getElem?_eq_some_iff.1 found').1
    cases found.symm.trans found'
    rw [link] at target
    cases target

lemma not_copy_of_case (conn : g.Connected) {i t : Nat} (found : g.nodes[i]? = some n)
    (link : n.link = .select cases) (mem : t ∈ cases) (target : g.nodes[t]? = some m) :
    m.link.isCopy = false := by
  by_contra copy
  obtain ⟨j, n', parents, found', link'⟩ := conn.copies target (Bool.not_eq_false _ ▸ copy)
  obtain ⟨m', target', parent⟩ := conn.links found t (by rw [link]; exact mem)
  cases target.symm.trans target'
  rw [parents, mem_singleton] at parent
  subst parent
  cases found.symm.trans found'
  cases link.symm.trans link'

lemma entry_placed (conn : g.Connected) (rooted : g.Rooted)
    (last : g.returnNode? = some exit) (nonempty : 0 < g.nodes.size) :
    Plan.Placed ⟨options, g⟩ exit 0 := by
  have found := Array.getElem?_eq_getElem nonempty
  refine ⟨⟨nonempty, ?_⟩, ?_⟩
  · by_contra copy
    rw [Bool.not_eq_false] at copy
    obtain ⟨k, link⟩ := Plan.exit_of_isCopy found copy
    rw [Plan.isCopy_eq, Plan.node_eq found] at copy
    obtain ⟨i, n, -, found', next⟩ := conn.copies found copy
    obtain rfl := eq_zero_of_exit rooted found link (getElem?_eq_some_iff.1 found').1
    cases found.symm.trans found'
    cases link.symm.trans next
  · rintro rfl j behind lt
    have link := Plan.returnNode (p := ⟨options, g⟩) last
    rw [Plan.node_eq found] at link
    exact absurd (eq_zero_of_exit rooted found link lt) behind.ne'

variable {rodata : Asm.Rodata} {items : List Asm.Item} {console console' : Console}
  {options : Options} {labels : Labels} {s s' : Session} {code : Body} {outline : Outline}

/-- A body with gotos only is executed like a walk through the graph if its last return is in its
place, however branches turn out and whichever cases are selected. As no condition is turned around,
branches may turn out in any way. -/
theorem buildBody_gotos_follow
    (built : (Graph.ofBody rodata items).run console = (.ok g, console'))
    (structured : options.structured = false) (returns : g.returnNode?.isSome)
    (placed : ReturnInPlace g) (labelled : Labels.ofGraph g = .ok labels)
    (run : ((buildBody ⟨options, g⟩).run {}).run s = (.ok (code, outline), s')) :
    (∀ o : Answers g,
      SameRuns (walk g s o) (.front 0 0) (execute code labels o) ⟨0, 0, code⟩) ∧
    ∀ (branches : Nat → Nat → Bool) (selections : Nat → Nat → Nat),
      (∀ {k i : Nat} {n : Node} {cases}, g.nodes[i]? = some n → n.link = .select cases →
        cases ≠ [] → selections k i < cases.length) →
      ∃ o : Answers g, (∀ k i c, o.holds k i c = some (branches k i)) ∧ o.selected = selections := by
  obtain ⟨conn, covered⟩ := Graph.ofBody_connected_covered built
  obtain ⟨rooted, n, first, -⟩ := Graph.ofBody_rooted built
  obtain ⟨exit, last⟩ := Option.isSome_iff_exists.1 returns
  have entry : Plan.Placed ⟨options, g⟩ exit 0 :=
    entry_placed conn rooted last (Array.getElem?_eq_some_iff.1 first).1
  obtain ⟨-, enters, resolved, goes, labels⟩ :=
    buildBody_plain (p := ⟨options, g⟩) conn (Plan.falls covered) structured placed last
      entry _ _ _ .refl run
  refine ⟨fun o => Sound.sameRuns ⟨resolved, ?_, ?_⟩ labelled enters False.elim, ?_⟩
  · intro indent t w
    exact labels t (goes indent t w)
  · intro indent i text n cases _ found link t mem
    obtain ⟨m, target, -⟩ := conn.links found t (by rw [link]; exact mem)
    refine labels t ⟨(Array.getElem?_eq_some_iff.1 target).1, ?_⟩
    rw [Plan.isCopy_eq, Plan.node_eq target]
    exact not_copy_of_case conn found link mem target
  · intro branches selections inside
    exact ⟨⟨fun k i _ => some (branches k i), selections, inside⟩, fun _ _ _ => rfl, rfl⟩

def firstTest : Session :=
  { rodata := {}
    blocks := #[{ (default : BlockResult) with condition := some (.symbol "a" 0) }] }

theorem buildBody_gotos_follow_twoWays :
    ∃ g labels code outline console s',
      (Graph.ofBody {} Graph.twoWays).run {} = (.ok g, console) ∧ g.returnNode? = some 3 ∧
      ReturnInPlace g ∧ Labels.ofGraph g = .ok labels ∧
      ((buildBody ⟨{ file := "", structured := false }, g⟩).run {}).run firstTest =
        (.ok (code, outline), s') ∧
      (∃ indent statements header, .block indent 4 statements header ∈ code) ∧
      ∀ o : Answers g,
        SameRuns (walk g firstTest o) (.front 0 0) (execute code labels o) ⟨0, 0, code⟩ := by
  have checked : writes { file := "", structured := false } {} Graph.twoWays firstTest
      fun g _ code _ => g.returnNode? == some 3 && (List.range g.nodes.size).all
        (fun i => i ≤ 3 || g.nodes[i]?.any (·.link.isCopy)) &&
        code.any fun part => part matches .block _ 4 _ _ := by cbv
  obtain ⟨g, labels, code, outline, console, s', built, labelled, run, checked⟩ :=
    exists_of_writes checked
  simp only [Bool.and_eq_true, beq_iff_eq] at checked
  obtain ⟨⟨last, copies⟩, copy⟩ := checked
  have placed : ReturnInPlace g := by
    intro exit same
    refine .inl fun i n behind found => ?_
    cases last.symm.trans same
    have lt := (Array.getElem?_eq_some_iff.1 found).1
    have := List.all_eq_true.1 copies i (List.mem_range.2 lt)
    simpa [found, behind.not_ge] using this
  refine ⟨g, labels, code, outline, console, s', built, last, placed, labelled, run, ?_, ?_⟩
  · obtain ⟨part, mem, shape⟩ := List.any_eq_true.1 copy
    split at shape
    · exact ⟨_, _, _, mem⟩
    · cases shape
  · exact (buildBody_gotos_follow built rfl (by rw [last]; rfl) placed labelled run).1

def returnFirst : List Asm.Item :=
  [inLine 1 "beqz" ["a0", .target "L2"],
   inLine 2 "nop" [],
   .label "L1",
   inLine 4 "jr" ["ra"],
   inLine 5 "nop" [],
   .label "L2",
   inLine 7 "sw" ["a1", .memoryAt (.literal 0) "a2"],
   inLine 8 "b" [.target "L1"],
   inLine 9 "nop" []]

def Answers.negative (g : Graph) : Answers g where
  holds _ _ x := (sign? x).map not
  selected _ _ := 0
  inside {_ _ _ _} _ _ nonempty := List.length_pos_iff.2 nonempty

lemma Answers.negative_opposed (g : Graph) : (negative g).Opposed := by
  intro k i x y s s' run
  exact congrArg (·.map not) (sign?_negate x y s' run)

theorem buildBody_gotos_differ :
    ∃ g labels code outline console s',
      (Graph.ofBody {} returnFirst).run {} = (.ok g, console) ∧ g.returnNode? = some 1 ∧
      Labels.ofGraph g = .ok labels ∧
      ((buildBody ⟨{ file := "", structured := false }, g⟩).run {}).run firstTest =
        (.ok (code, outline), s') ∧
      (Answers.negative g).Opposed ∧
      Ends (walk g firstTest (.negative g)) (.front 0 0) [0, 1] .returned ∧
      Ends (execute code labels (.negative g)) ⟨0, 0, code⟩ [0, 2, 1] .returned ∧
      ¬ SameRuns (walk g firstTest (.negative g)) (.front 0 0)
        (execute code labels (.negative g)) ⟨0, 0, code⟩ := by
  have checked : writes { file := "", structured := false } {} returnFirst firstTest
      fun g labels code _ => g.returnNode? == some 1 &&
        finish (walk g firstTest (.negative g)) 5 (.front 0 0) == some ([0, 1], .returned) &&
        finish (execute code labels (.negative g)) 15 ⟨0, 0, code⟩ == some ([0, 2, 1], .returned) := by
    cbv
  obtain ⟨g, labels, code, outline, console, s', built, labelled, run, checked⟩ :=
    exists_of_writes checked
  simp only [Bool.and_eq_true, beq_iff_eq] at checked
  obtain ⟨⟨last, walks⟩, executes⟩ := checked
  refine ⟨g, labels, code, outline, console, s', built, last, labelled, run,
    Answers.negative_opposed g, ends_of_finish walks, ends_of_finish executes,
    not_sameRuns (by rw [walks]; rfl) (by rw [executes]; rfl) ?_⟩
  rw [walks, executes]
  simp

end Decompiler.Structure
