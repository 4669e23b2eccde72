import Decompiler.Proofs.Coverage
import Decompiler.Proofs.Following

/-!
# Structured code follows the flow graph

The code between two nodes enters the first of them if it stands in front of code that enters the
second one. So conditions nest as the graph asks for, and the body of a function visits the nodes of
its graph.

Main statement: `buildBody_follows`.
-/

namespace Decompiler.Structure

open Code Eval Decompiler.Flow Decompiler.Run List

section

variable {g : Graph}

lemma forward_lt (conn : g.Connected) (mem : j ∈ forward g i) : j < g.nodes.size := by
  have target {n : Node} (found : g.nodes[i]? = some n) (mem : j ∈ n.link.targets) :
      j < g.nodes.size := by
    obtain ⟨m, found', -⟩ := conn.links found j mem
    exact (getElem?_eq_some_iff.1 found').1
  unfold forward at mem
  split at mem
  · cases mem
  case h_2 n found =>
    refine target found ?_
    split at mem
    case h_1 t f link =>
      rw [link]
      split at mem
      · exact mem_cons_of_mem _ mem
      · exact mem
    case h_2 => exact mem

lemma postdominatorsFrom_lt (conn : g.Connected)
    (stack_lt : ∀ n ∈ stack, n < g.nodes.size) (found_lt : ∀ n ∈ found, n < g.nodes.size)
    (h : (postdominatorsFrom g start stop fuel seen stack found).run searches = .ok (result, searches')) :
    ∀ n ∈ result, n < g.nodes.size := by
  induction fuel generalizing seen stack found searches with
  | zero => cases h
  | succ fuel ih =>
    cases stack with
    | nil =>
      cases h
      intro n mem
      exact found_lt n (mem_reverse.1 mem)
    | cons n stack =>
      obtain ⟨n_lt, stack_lt⟩ := forall_mem_cons.1 stack_lt
      unfold postdominatorsFrom at h
      split at h
      · exact ih stack_lt found_lt h
      · simp only [StateT.run_bind] at h
        obtain ⟨⟨passed, searches1⟩, -, h⟩ := bind_ok h
        split at h
        · exact ih stack_lt (forall_mem_cons.2 ⟨n_lt, found_lt⟩) h
        · split at h
          · cases h
          · refine ih (fun m mem => ?_) found_lt h
            rcases mem_append.1 mem with mem | mem
            · exact forward_lt conn (mem_reverse.1 mem)
            · exact stack_lt m mem

lemma immediatePostdominator_lt (conn : g.Connected)
    (lt : start < g.nodes.size)
    (h : (immediatePostdominator g start stop).run searches = .ok (meet, searches')) :
    meet < g.nodes.size := by
  unfold immediatePostdominator at h
  split at h
  · cases h
  · obtain ⟨⟨result, searches1⟩, search, h⟩ := bind_ok h
    dsimp only at h
    split at h
    · cases h
      refine postdominatorsFrom_lt conn (fun n mem => ?_) (fun n mem => ?_) search meet
        (mem_singleton_self _)
      · exact mem_singleton.1 mem ▸ lt
      · cases mem
    · cases h

end

section

variable {p : Plan}

def EntersStop (g : Graph) (s : Session) (stop : Option Nat) (rest : Body) : Prop :=
  ∀ e, stop = some e → Enters True g s rest e

lemma Plan.getElem?_node (lt : start < p.graph.nodes.size) :
    p.graph.nodes[start]? = some (p.node start) := by
  rw [Array.getElem?_eq_getElem lt, ← p.node_eq (Array.getElem?_eq_getElem lt)]

lemma Plan.target_lt (conn : p.graph.Connected) (lt : start < p.graph.nodes.size)
    (mem : t ∈ (p.node start).link.targets) : t < p.graph.nodes.size := by
  obtain ⟨m, found, -⟩ := conn.links (p.getElem?_node lt) t mem
  exact (getElem?_eq_some_iff.1 found).1

lemma Opens.begins {head} (h : Opens p s start o head o') (lt : start < p.graph.nodes.size)
    (goesOn : (p.node start).isExit = false) :
    Begins True p.graph s (fun rest => Leaves True p.graph s start rest (p.node start).link) head
      start := by
  cases h with
  | exit exit => simp [goesOn] at exit
  | block _ _ head => exact head.begins (p.getElem?_node lt)

lemma Leap.begins (conn : p.graph.Connected) (covered : p.graph.Covered) {head jump o1}
    (h : Leap p s start o1 jump o') (opens : Opens p s start o head o1)
    (lt : start < p.graph.nodes.size) :
    Begins True p.graph s (fun rest => Enters True p.graph s rest (start + 1)) (head ++ jump)
      start := by
  cases h with
  | @next t _ _ link jump =>
    have target := p.target_lt conn lt (by rw [link]; exact mem_singleton_self t)
    refine (opens.begins lt (by rw [Node.isExit, link])).append fun rest _ => ?_
    rw [link]
    exact (jump.begins (p.getElem?_node target) rest trivial).imp_left .next
  | @branch t _ _ _ _ _ link cond jump =>
    have target := p.target_lt conn lt (by rw [link]; exact mem_cons_self)
    refine (opens.begins lt (by rw [Node.isExit, link])).append fun rest enters => ?_
    obtain ⟨enters', resolved⟩ := jump.begins (p.getElem?_node target) rest trivial
    rw [link, p.falls covered link]
    exact ⟨.branch cond enters' enters, .branch resolved .nil⟩
  | select link =>
    refine (opens.begins lt (by rw [Node.isExit, link])).append fun rest _ => ?_
    rw [link]
    exact ⟨.dispatch, .plain fun _ _ => rfl⟩
  | exit link code =>
    cases opens with
    | block goesOn => simp [Node.isExit, link] at goesOn
    | exit => exact (code.begins (p.getElem?_node lt) link).imp fun _ _ => by simp

lemma Condition.leaves (h : Condition p s start meet c nodes i j)
    (plain : p.options.andOr = false) (link : (p.node start).link = .branch t f) :
    (i = t ∧ j = f ∨ i = f ∧ j = t) ∧ ∀ {body rest : Body} {elseBody : Option Body},
      Enters True p.graph s (body ++ rest) i → Enters True p.graph s (elseBody.getD [] ++ rest) j →
      Leaves True p.graph s start (.branch indent c body elseBody :: rest) (.branch t f) := by
  cases h with
  | guard link' cond =>
    cases link'.symm.trans link
    exact ⟨.inl ⟨rfl, rfl⟩, .branch cond⟩
  | joint _ andOr joint =>
    have single : nodes = [] := by
      by_contra more
      simp [plain] at andOr
      exact more andOr
    cases joint with
    | some => simp at single
    | none chained joined =>
      rw [map_eq_nil_iff] at single
      subst single
      cases chained with
      | done link' =>
        cases link'.symm.trans link
        obtain ⟨x, cond, _, _, negated⟩ := joined.first_of_nil
        exact ⟨.inr ⟨rfl, rfl⟩, .opposite trivial cond negated⟩

/-- Derived code enters its first node, in front of code that enters its end. -/
lemma Derives.begins (conn : p.graph.Connected) (covered : p.graph.Covered)
    (plain : p.options.andOr = false) {stop body} (h : Derives p s start stop o body o')
    (lt : start < p.graph.nodes.size) : Begins True p.graph s (EntersStop p.graph s stop) body start := by
  induction h with
  | stop => exact fun rest enters => ⟨enters _ rfl, .nil⟩
  | again => exact .goto
  | exit _ link _ code => exact (code.begins (p.getElem?_node lt) link).imp fun _ _ => nofun
  | @next _ _ _ _ _ t _ _ _ opens link _ _ ih =>
    have target := p.target_lt conn lt (by rw [link]; exact mem_singleton_self t)
    refine (opens.begins lt (by rw [Node.isExit, link])).append fun rest enters => ?_
    rw [link]
    exact (ih target rest enters).imp_left .next
  | leap _ opens _ leap behind _ ih =>
    exact (leap.begins conn covered opens lt).append fun rest enters => ih behind rest enters
  | @branch _ _ _ _ _ _ _ t f meet i j _ _ _ _ _ _ _ _ _ opens link _ meets condition _ _ _ ih1 ih2 ih =>
    have inside {k : Nat} (h : k = t ∨ k = f) : k < p.graph.nodes.size :=
      p.target_lt conn lt (by simpa [link, Link.targets] using h)
    obtain ⟨sides, leaves⟩ := condition.leaves plain link
    refine (opens.begins lt (by rw [Node.isExit, link])).append fun rest enters => ?_
    obtain ⟨enters', resolved⟩ := ih (immediatePostdominator_lt conn lt meets) rest enters
    have only : EntersStop p.graph s (some meet) (_ ++ rest) :=
      fun _ same => Option.some.inj same ▸ enters'
    obtain ⟨enters1, resolved1⟩ := ih1 (inside (by omega)) _ only
    obtain ⟨enters2, resolved2⟩ := ih2 (inside (by omega)) _ only
    rw [link]
    exact ⟨leaves enters1 enters2, Resolved.append (.branch resolved1 resolved2) resolved⟩

lemma Plan.exists_returnNode (h : p.graph.returnNode? = some exit) :
    p.graph.nodes[exit]? = some (p.node exit) := by
  have mem := mem_of_find?_eq_some h
  rw [mem_reverse, mem_range] at mem
  exact p.getElem?_node mem

lemma buildBody_begins (conn : p.graph.Connected) (covered : p.graph.Covered)
    (structured : p.options.structured) (plain : p.options.andOr = false)
    (entry : 0 < p.graph.nodes.size) :
    Yields s (buildBody p) {} fun body _ =>
      Enters True p.graph s body 0 ∧ Resolved True p.graph s body [] := by
  refine (buildBody_whole (p.falls covered) (fun _ _ _ => id) (by simp [structured])).imp
    fun body _ whole => ?_
  cases whole with
  | none last derives =>
    have whole := derives.begins conn covered plain entry [] (by simp [EntersStop, last])
    rwa [append_nil] at whole
  | last last derives code =>
    obtain ⟨enters, resolved⟩ := code.begins (p.exists_returnNode last) (p.returnNode last) [] fun _ => rfl
    rw [append_nil] at enters
    obtain ⟨enters', resolved'⟩ := derives.begins conn covered plain entry _ fun e same =>
      Option.some.inj (last.symm.trans same) ▸ enters
    refine ⟨enters', Resolved.append ?_ resolved⟩
    rwa [append_nil]

lemma buildBody_labels (covered : p.graph.Covered) (structured : p.options.structured)
    (unmarked : ∀ i, (p.node i).emitGoto = false)
    (run : ((buildBody p).run {}).run s = (.ok (code, outline), s'))
    (within : Within (.goto indent t) code) : ∃ n, Within (.label n t) code := by
  obtain ⟨-, ns, lays, -⟩ := buildBody_yields (p.falls covered) structured _ _ _ .refl run
  obtain ⟨-, written | ⟨-, k, marked, -⟩⟩ := lays.jumps indent t within
  · rcases lays.fresh t written with before | ⟨-, label⟩
    · simp [NodeSet.contains, NodeSet.empty] at before
    · exact label
  · rw [unmarked k] at marked
    cases marked

end

variable {g : Graph} {rodata : Asm.Rodata} {items : List Asm.Item} {console console' : Console}
  {options : Options} {labels : Labels} {s s' : Session} {code : Body} {outline : Outline}

/-- A body in which every goto and every case of a selection has its label is executed like a walk
through the graph, however branches turn out and whichever cases are selected. Branches may turn out
in any way, errors apart. -/
theorem buildBody_follows (built : (Graph.ofBody rodata items).run console = (.ok g, console'))
    (structured : options.structured = true) (plain : options.andOr = false)
    (labelled : Labels.ofGraph g = .ok labels)
    (run : ((buildBody ⟨options, g⟩).run {}).run s = (.ok (code, outline), s'))
    (gotos : ∀ {indent t}, Within (.goto indent t) code → ∃ n, Within (.label n t) code)
    (cases : ∀ {indent i text} {n : Node} {cases}, Within (.dispatch indent i text) code →
      g.nodes[i]? = some n → n.link = .select cases → ∀ t ∈ cases, ∃ n, Within (.label n t) code) :
    (∀ o : Outcomes g,
      SameRuns (walk g s o.toAnswers) (.front 0 0) (execute code labels o.toAnswers) ⟨0, 0, code⟩) ∧
    ∀ (branches : Nat → Nat → Bool) (selections : Nat → Nat → Nat),
      (∀ {k i : Nat} {n : Node} {cases}, g.nodes[i]? = some n → n.link = .select cases →
        cases ≠ [] → selections k i < cases.length) →
      ∃ o : Outcomes g, (∀ k i c, (s.block i).condition = some c → (sign? c).isSome →
        o.holds k i c = some (branches k i)) ∧ o.selected = selections := by
  obtain ⟨conn, covered⟩ := Graph.ofBody_connected_covered built
  obtain ⟨-, n, first, -⟩ := Graph.ofBody_rooted built
  have entry : 0 < g.nodes.size := (Array.getElem?_eq_some_iff.1 first).1
  obtain ⟨-, enters, resolved⟩ :=
    buildBody_begins (p := ⟨options, g⟩) conn covered structured plain entry _ _ _ .refl run
  refine ⟨fun o => Sound.sameRuns ⟨resolved, gotos, cases⟩ labelled enters fun _ => o.opposite, ?_⟩
  intro branches selections inside
  exact Outcomes.exists_of s branches selections inside

def guardedLoop : List Asm.Item :=
  [.label "L1",
   inLine 2 "beqz" ["a1", .target "L2"],
   inLine 3 "nop" [],
   inLine 4 "sw" ["a1", .memoryAt (.literal 0) "a2"],
   .label "L2",
   inLine 6 "bnez" ["a0", .target "L1"],
   inLine 7 "nop" [],
   inLine 8 "jr" ["ra"],
   inLine 9 "nop" []]

def loopTests : Session :=
  { rodata := {}
    blocks := #[{ (default : BlockResult) with condition := some (.symbol "a" 0) },
      default,
      { (default : BlockResult) with condition := some (.symbol "b" 0) }] }

def choosesCase : Link → Bool
  | .select _ => true
  | _ => false

/-- A conditional jump to the first node. -/
def Part.repeats : Part → Bool
  | .branch _ _ [.goto _ 0] none => true
  | _ => false

theorem buildBody_follows_guardedLoop :
    ∃ g labels code outline console s', (Graph.ofBody {} guardedLoop).run {} = (.ok g, console) ∧
      Labels.ofGraph g = .ok labels ∧
      ((buildBody ⟨{ file := "", andOr := false }, g⟩).run {}).run loopTests =
        (.ok (code, outline), s') ∧
      (∃ indent c n, .branch indent c [.goto n 0] none ∈ code) ∧
      ∀ o : Outcomes g,
        SameRuns (walk g loopTests o.toAnswers) (.front 0 0) (execute code labels o.toAnswers)
          ⟨0, 0, code⟩ := by
  have checked : writes { file := "", andOr := false } {} guardedLoop loopTests fun g _ code _ =>
      g.nodes.all (fun n => !n.emitGoto && !choosesCase n.link) && code.any Part.repeats := by cbv
  obtain ⟨g, labels, code, outline, console, s', built, labelled, run, checked⟩ :=
    exists_of_writes checked
  obtain ⟨nodes, jump⟩ := Bool.and_eq_true_iff.1 checked
  have nodes : ∀ n ∈ g.nodes, _ := Array.all_eq_true'.1 nodes
  have unmarked (i : Nat) : ((⟨{ file := "", andOr := false }, g⟩ : Plan).node i).emitGoto = false := by
    by_contra marked
    have found := Plan.exists_marked (Bool.not_eq_false _ ▸ marked)
    have := nodes _ (Array.mem_of_getElem? found)
    simp_all
  refine ⟨g, labels, code, outline, console, s', built, labelled, run, ?_, ?_⟩
  · obtain ⟨part, mem, shape⟩ := List.any_eq_true.1 jump
    unfold Part.repeats at shape
    split at shape
    · exact ⟨_, _, _, mem⟩
    · cases shape
  · refine (buildBody_follows built rfl rfl labelled run ?_ ?_).1
    · intro indent t within
      exact buildBody_labels (Graph.ofBody_connected_covered built).2 rfl unmarked run within
    · intro indent i text n cases _ found link
      have := nodes _ (Array.mem_of_getElem? found)
      simp [link, choosesCase] at this

end Decompiler.Structure
