import Decompiler.Eval.Output
import Decompiler.Proofs.DominatorTree
import Decompiler.Proofs.Search

/-!
# Registers between a node and its dominator

Two searches go back from a node to its immediate dominator: one for the registers that change on
some path, and one that asks whether a register is set on every path. Both give what the paths give.

Main statement: `ofBody_registers_between`.
-/

namespace Decompiler.Eval

open Asm Code Infer Decompiler.Flow List NodeSet

section

variable {g : Graph} {fx : Effects} {seen : NodeSet} {stack : List Nat}

abbrev remaining (g : Graph) (seen : NodeSet) : Nat :=
  unseenEdges (parentsOf g) g.nodes.size seen

lemma parentsOf_outside (le : g.nodes.size ≤ n) : parentsOf g n = [] := by
  rw [parentsOf, Array.getElem?_eq_none le]

lemma remaining_le (g : Graph) (seen : NodeSet) : remaining g seen ≤ edgeCount g := by
  have nodes : g.nodes.toList.map (·.parents) = (range g.nodes.size).map (parentsOf g) := by
    refine ext_getElem (by simp) fun k lt lt' => ?_
    have lt : k < g.nodes.size := by simpa using lt
    simp [parentsOf, lt]
  have all : edgeCount g = ((range g.nodes.size).map fun m => (parentsOf g m).length).sum := by
    rw [edgeCount, flatMap_def, nodes, length_flatten, map_map]
    rfl
  rw [all]
  exact unseenEdges_le _ (fun _ => le_rfl) seen

abbrev Above (g : Graph) : NodeSet → List Nat → Nat → Prop :=
  Found (parentsOf g)

def Effects.Changes (fx : Effects) (m : Nat) (r : Register) : Prop :=
  ∃ effects, fx.at m = .ok effects ∧ ∃ e ∈ effects, r ∈ e.outputs ∨ e.isCall ∧ r ∈ callerSaved

lemma mem_foldl_changed (effects : List Effect) (changed : List Register) :
    r ∈ effects.foldl (fun changed e =>
        changed ++ e.outputs ++ if e.isCall then callerSaved else []) changed ↔
      r ∈ changed ∨ ∃ e ∈ effects, r ∈ e.outputs ∨ e.isCall ∧ r ∈ callerSaved := by
  induction effects generalizing changed with
  | nil => simp
  | cons e effects ih =>
    cases call : e.isCall <;> simp [call, or_assoc]

/-- The first search finds what changes above a node. -/
lemma changedFrom_spec (known : ∀ m, ∃ effects, fx.at m = .ok effects)
    (enough : remaining g seen + stack.length < fuel) (changed : List Register) :
    ∃ found, changedFrom g fx fuel seen stack changed = .ok found ∧
      ∀ r, r ∈ found ↔ r ∈ changed ∨ ∃ m, Above g seen stack m ∧ fx.Changes m r := by
  refine search_induction (motive := fun fuel seen stack => ∀ changed,
    ∃ found, changedFrom g fx fuel seen stack changed = .ok found ∧
      ∀ r, r ∈ found ↔ r ∈ changed ∨ ∃ m, Above g seen stack m ∧ fx.Changes m r)
    (fun _ => parentsOf_outside) ?_ ?_ ?_ enough changed
  · intro _ _ changed
    exact ⟨changed, rfl, fun r => by simp [found_nil]⟩
  · intro _ _ _ _ old ih changed
    rw [changedFrom, if_pos old]
    simpa only [found_seen old] using ih changed
  · intro _ _ n _ new ih changed
    obtain ⟨effects, here⟩ := known n
    obtain ⟨found, run, spec⟩ := ih (parentsOf g n).reverse length_reverse.le
      (effects.foldl (fun changed e =>
        changed ++ e.outputs ++ if e.isCall then callerSaved else []) changed)
    refine ⟨found, ?_, fun r => ?_⟩
    · rw [changedFrom, if_neg (Bool.eq_false_iff.1 new), here]
      exact run
    · rw [spec, mem_foldl_changed]
      constructor
      · rintro ((mem | changes) | ⟨m, above, changes⟩)
        · exact .inl mem
        · exact .inr ⟨n, (found_new new).2 (.inl rfl), effects, here, changes⟩
        · exact .inr ⟨m, (found_new new).2 (.inr above), changes⟩
      · rintro (mem | ⟨m, above, changes⟩)
        · exact .inl (.inl mem)
        · rcases (found_new new).1 above with rfl | above
          · obtain ⟨_, here', changes⟩ := changes
            cases here.symm.trans here'
            exact .inl (.inr changes)
          · exact .inr ⟨m, above, changes⟩

def Effects.setAt (fx : Effects) (r : Register) (m : Nat) : Option Bool :=
  match fx.at m with
  | .ok effects => setIn r effects
  | .error _ => none

/-- The parents of a node behind which a search goes on. -/
def parentsIf (g : Graph) (p : Nat → Bool) (n : Nat) : List Nat :=
  if p n then parentsOf g n else []

abbrev Effects.silentParents (fx : Effects) (g : Graph) (r : Register) : Nat → List Nat :=
  parentsIf g fun n => fx.setAt r n == none

def Effects.Passes (fx : Effects) (r : Register) (d : Nat) (set : Bool) (seen : NodeSet) (m : Nat) :
    Prop :=
  (m = d → set) ∧ (seen.contains m = false → fx.setAt r m ≠ some false)

/-- The second search looks behind nodes that neither set nor clear the register. -/
lemma alwaysSetFrom_spec (known : ∀ m, ∃ effects, fx.at m = .ok effects) {set}
    (enough : remaining g seen + stack.length < fuel) :
    ∃ b, alwaysSetFrom g fx r d set fuel seen stack = .ok b ∧
      (b ↔ ∀ m, Exposed (fx.silentParents g r) seen stack m → fx.Passes r d set seen m) := by
  have stops {fuel seen n stack} (stop : (n == d && !set)) :
      ∃ b, alwaysSetFrom g fx r d set (fuel + 1) seen (n :: stack) = .ok b ∧ (b ↔
        ∀ m, Exposed (fx.silentParents g r) seen (n :: stack) m → fx.Passes r d set seen m) := by
    refine ⟨false, by rw [alwaysSetFrom, if_pos stop]; rfl, by simp, fun all => ?_⟩
    simp only [Bool.and_eq_true, beq_iff_eq, Bool.not_eq_true'] at stop
    have set_true := (all n (.top mem_cons_self)).1 stop.1
    rw [stop.2] at set_true
    cases set_true
  refine search_induction (motive := fun fuel seen stack =>
    ∃ b, alwaysSetFrom g fx r d set fuel seen stack = .ok b ∧
      (b ↔ ∀ m, Exposed (fx.silentParents g r) seen stack m → fx.Passes r d set seen m))
    (fun _ => parentsOf_outside) ?_ ?_ ?_ enough
  · intro _ _
    exact ⟨true, rfl, fun _ m h => absurd h exposed_nil, fun _ => rfl⟩
  · intro _ seen n stack old ih
    by_cases stop : (n == d && !set)
    · exact stops stop
    obtain ⟨b, run, spec⟩ := ih
    refine ⟨b, by rw [alwaysSetFrom, if_neg stop, if_pos old, run], spec.trans ?_⟩
    simp only [exposed_seen old, forall_eq_or_imp]
    refine (and_iff_right ⟨?_, fun new => ?_⟩).symm
    · rintro rfl
      simpa using stop
    · rw [old] at new
      cases new
  · intro fuel seen n stack new ih
    by_cases stop : (n == d && !set)
    · exact stops stop
    obtain ⟨effects, here⟩ := known n
    have setHere : fx.setAt r n = setIn r effects := by rw [Effects.setAt, here]
    rw [alwaysSetFrom, if_neg stop, if_neg (Bool.eq_false_iff.1 new), here]
    dsimp only [bind, Except.bind]
    -- What is left to do, unless the register is unset here.
    have goOn (fine : fx.setAt r n ≠ some false) {b : Bool} (spec : b ↔ ∀ m,
        Exposed (fx.silentParents g r) (seen.insert n) ((fx.silentParents g r n).reverse ++ stack) m →
          fx.Passes r d set (seen.insert n) m) :
        b ↔ ∀ m, Exposed (fx.silentParents g r) seen (n :: stack) m → fx.Passes r d set seen m := by
      simp only [exposed_new new, forall_eq_or_imp]
      refine spec.trans ((forall_congr' fun m => ?_).trans (and_iff_right ⟨?_, fun _ => fine⟩).symm)
      · refine imp_congr_right fun _ => and_congr_right fun _ => ?_
        rw [contains_insert_eq_false]
        refine ⟨fun all fresh => ?_, fun all fresh => all fresh.1⟩
        by_cases same : m = n
        · exact same ▸ fine
        · exact all ⟨fresh, same⟩
      · rintro rfl
        simpa using stop
    cases state : setIn r effects with
    | none =>
      have parents : fx.silentParents g r n = parentsOf g n := by simp [parentsIf, setHere, state]
      obtain ⟨b, run, spec⟩ := ih (parentsOf g n).reverse length_reverse.le
      exact ⟨b, run, goOn (by simp [setHere, state]) (parents ▸ spec)⟩
    | some isSet =>
      cases isSet with
      | false =>
        refine ⟨false, rfl, by simp, fun all => ?_⟩
        exact absurd (setHere.trans state) ((all n (.top mem_cons_self)).2 new)
      | true =>
        have parents : fx.silentParents g r n = [] := by simp [parentsIf, setHere, state]
        obtain ⟨b, run, spec⟩ := ih [] (Nat.zero_le _)
        exact ⟨b, run, goOn (by simp [setHere, state]) (by rwa [parents])⟩

lemma enough_steps (i : Nat) : remaining g (.single d) + (parentsOf g i).reverse.length <
    edgeCount g + (parentsOf g i).length + 1 := by
  have := remaining_le g (.single d)
  rw [length_reverse]
  omega

lemma changedRegisters_spec (known : ∀ m, ∃ effects, fx.at m = .ok effects)
    (idom : g.idom? i = some d) :
    ∃ changed, changedRegisters g fx i = .ok changed ∧
      ∀ r, r ∈ changed ↔
        ∃ m, Above g (.single d) (parentsOf g i).reverse m ∧ fx.Changes m r := by
  obtain ⟨changed, run, spec⟩ := changedFrom_spec known (enough_steps i) []
  rw [Graph.idom?] at idom
  refine ⟨changed.eraseDups, ?_, fun r => ?_⟩
  · rw [changedRegisters, idom]
    dsimp only
    rw [run]
    rfl
  · rw [mem_eraseDups, spec]
    simp

lemma isAlwaysSet_spec (known : ∀ m, ∃ effects, fx.at m = .ok effects) (idom : g.idom? i = some d)
    (r : Register) (set : Bool) :
    ∃ answer, isAlwaysSet g fx i r set = .ok answer ∧
      (answer ↔ ∀ m, Exposed (fx.silentParents g r) (.single d) (parentsOf g i).reverse m →
        fx.Passes r d set (.single d) m) := by
  obtain ⟨answer, run, spec⟩ := alwaysSetFrom_spec known (enough_steps i)
  rw [Graph.idom?] at idom
  refine ⟨answer, ?_, spec⟩
  rw [isAlwaysSet, idom]
  exact run

end

section

variable {g : Graph} {path : List Nat}

structure Between (g : Graph) (d i : Nat) (mid : List Nat) : Prop where
  path : g.Path d (d :: mid ++ [i]) i
  apart : d ∉ mid

lemma Between.suffix {front behind} (h : Between g d i (front ++ m :: behind)) :
    g.Path m (m :: behind ++ [i]) i ∧ d ∉ m :: behind := by
  have whole : g.Path d (d :: front ++ m :: (behind ++ [i])) i := by simpa using h.path
  exact ⟨whole.suffix, fun mem => h.apart (mem_append_right _ mem)⟩

section

variable (rooted : g.Rooted)

include rooted

lemma mem_parentsOf (lt : m < g.nodes.size) : y ∈ parentsOf g m ↔ g.Edge y m := by
  rw [parentsOf, Array.getElem?_eq_getElem lt]
  exact rooted.parents (Array.getElem?_eq_getElem lt) y

lemma between_of_path (dom : g.Dominates d i) (strict : d ≠ i)
    (along : g.Path m (m :: post ++ [i]) i) (lt : m < g.nodes.size) (apart : d ∉ m :: post) :
    ∃ pre, Between g d i (pre ++ m :: post) := by
  obtain ⟨front, before⟩ := rooted.reached m lt
  have mem : d ∈ front := by
    rcases mem_append.1 (dom _ (before.append along)) with mem | mem
    · exact mem
    · rcases mem_append.1 (show d ∈ post ++ [i] from mem) with mem | mem
      · exact absurd (mem_cons_of_mem m mem) apart
      · exact absurd (mem_singleton.1 mem) strict
  obtain ⟨first, behind, -, -, between, fresh⟩ := before.split mem
  -- The part behind the dominator ends with the node itself.
  have ends : behind ≠ [] := by
    rintro rfl
    exact ne_of_not_mem_cons apart (mem_singleton.1 between.end_mem).symm
  obtain ⟨pre, z, rfl⟩ : ∃ pre z, behind = pre ++ [z] :=
    ⟨_, _, (dropLast_append_getLast ends).symm⟩
  have last : z = m := by
    generalize whole : d :: (pre ++ [z]) = l at between
    cases between with
    | here => simp at whole
    | step => exact singleton_inj.1 (@append_inj' _ (d :: pre) _ _ _ whole rfl).2
  subst last
  refine ⟨pre, ?_, ?_⟩
  · have joined := between.append along
    simpa using joined
  · intro mem
    rcases mem_append.1 mem with mem | mem
    · exact fresh (mem_append_left _ mem)
    · exact apart mem

lemma exposed_back (along : g.Path m path y)
    (silent : ∀ k ∈ path.tail, d ≠ k ∧ p k) (lt : y < g.nodes.size)
    (h : Exposed (parentsIf g p) (.single d) stack y) :
    Exposed (parentsIf g p) (.single d) stack m := by
  induction along with
  | here => exact h
  | @step path x y before edge ih =>
    rw [tail_append_of_ne_nil before.ne_nil] at silent
    refine ih (fun k mem => silent k (mem_append_left _ mem)) edge.lt ?_
    obtain ⟨ne, unset⟩ := silent y (mem_append_right _ (mem_singleton_self _))
    refine .on h (contains_single_ne.2 ne) ?_
    rw [parentsIf, if_pos unset]
    exact (mem_parentsOf rooted lt).2 edge

lemma exposed_iff (lt : i < g.nodes.size) :
    Exposed (parentsIf g p) (.single d) (parentsOf g i).reverse m ↔
      ∃ post, g.Path m (m :: post ++ [i]) i ∧ m < g.nodes.size ∧ ∀ k ∈ post, d ≠ k ∧ p k := by
  constructor
  · intro h
    induction h with
    | @top k mem =>
      have edge := (mem_parentsOf rooted lt).1 (mem_reverse.1 mem)
      exact ⟨[], .step .here edge, edge.lt, by simp⟩
    | @on k q _ fresh parent ih =>
      obtain ⟨post, along, ltk, silent⟩ := ih
      obtain ⟨unset, parent⟩ := mem_ite_nil_right.1 parent
      have edge := (mem_parentsOf rooted ltk).1 parent
      have first : g.Path q [q, k] k := .step .here edge
      refine ⟨k :: post, first.append along, edge.lt, forall_mem_cons.2 ⟨?_, silent⟩⟩
      exact ⟨contains_single_ne.1 fresh, unset⟩
  · rintro ⟨post, along, -, silent⟩
    generalize whole : m :: post ++ [i] = l at along
    cases along with
    | here => simp at whole
    | step before edge =>
      obtain ⟨rfl, -⟩ := append_inj' whole rfl
      refine exposed_back rooted before silent edge.lt (.top ?_)
      exact mem_reverse.2 ((mem_parentsOf rooted lt).2 edge)

lemma above_iff (lt : i < g.nodes.size) (dom : g.Dominates d i) (strict : d ≠ i) :
    Above g (.single d) (parentsOf g i).reverse m ↔ ∃ mid, Between g d i mid ∧ m ∈ mid := by
  have exposed := exposed_iff (d := d) (m := m) (p := fun _ => true) rooted lt
  rw [Above, found_iff_exposed, contains_single_ne]
  refine (and_congr_left' exposed).trans ?_
  constructor
  · rintro ⟨⟨post, along, lt, apart⟩, ne⟩
    have apart : d ∉ m :: post := not_mem_cons_of_ne_of_not_mem ne fun mem => (apart d mem).1 rfl
    obtain ⟨pre, between⟩ := between_of_path rooted dom strict along lt apart
    exact ⟨_, between, mem_append_right _ mem_cons_self⟩
  · rintro ⟨mid, between, mem⟩
    obtain ⟨front, behind, rfl⟩ := append_of_mem mem
    obtain ⟨along, apart⟩ := between.suffix
    obtain ⟨ne, apart⟩ := ne_and_not_mem_of_not_mem_cons apart
    refine ⟨⟨behind, along, along.lt_of_mem lt along.start_mem, fun k mem => ⟨?_, rfl⟩⟩, ne⟩
    rintro rfl
    exact apart mem

end

end

section

variable {g : Graph} {context : Option C.TypeMap} {r : Register} {d i m : Nat} {mid : List Nat}

inductive Event where
  /-- A call may change it. -/
  | clobbered
  | set
  deriving DecidableEq

def operandsNeeded (context : Option C.TypeMap) (j : Instruction) : Nat :=
  match action j.mnemonic with
  | .moveToFloat => 2
  | .set _ | .loadLower => 1
  | .call => if context.isSome && j.mnemonic == "jal" then 1 else 0
  | _ => 0

def Complete (context : Option C.TypeMap) (g : Graph) : Prop :=
  ∀ n ∈ g.nodes.toList, ∀ j ∈ n.block.instructions, operandsNeeded context j ≤ j.args.length

def hasOperands (context : Option C.TypeMap) (j : Instruction) : Bool :=
  if 2 ≤ j.args.length then true else operandsNeeded context j ≤ j.args.length

lemma operandsNeeded_le (j : Instruction) : operandsNeeded context j ≤ 2 := by
  unfold operandsNeeded
  split <;> try split
  all_goals omega

lemma complete_of_hasOperands
    (all : (g.nodes.toList.all fun n => n.block.instructions.all (hasOperands context))) :
    Complete context g := by
  intro n memn j memj
  have test := all_eq_true.1 (all_eq_true.1 all n memn) j memj
  unfold hasOperands at test
  split at test
  · exact (operandsNeeded_le j).trans ‹_›
  · exact of_decide_eq_true test

def effectOf (context : Option C.TypeMap) (j : Instruction) : Effect where
  outputs := match outputs context j with
    | .ok rs => rs
    | .error _ => []
  isCall := j.mnemonic == "jal" || j.mnemonic == "jalr"

def eventsIn (context : Option C.TypeMap) (r : Register) (j : Instruction) : List Event :=
  (if (effectOf context j).isCall ∧ r ∈ callerSaved then [.clobbered] else []) ++
    if r ∈ (effectOf context j).outputs then [.set] else []

def instructionsAt (g : Graph) (m : Nat) : List Instruction :=
  match g.nodes[m]? with
  | some n => n.block.instructions
  | none => []

def eventsAlong (context : Option C.TypeMap) (g : Graph) (r : Register) (nodes : List Nat) :
    List Event :=
  (nodes.flatMap (instructionsAt g)).flatMap (eventsIn context r)

lemma eventsAlong_append (front behind : List Nat) : eventsAlong context g r (front ++ behind) =
      eventsAlong context g r front ++ eventsAlong context g r behind := by
  rw [eventsAlong, flatMap_append, flatMap_append]
  rfl

lemma mem_eventsAlong : (∃ e, e ∈ eventsAlong context g r nodes) ↔
      ∃ m ∈ nodes, ∃ e, e ∈ eventsAlong context g r [m] := by
  simp only [eventsAlong, flatMap_singleton, mem_flatMap]
  constructor
  · rintro ⟨e, j, ⟨m, mem, inside⟩, happens⟩
    exact ⟨m, mem, e, j, inside, happens⟩
  · rintro ⟨m, mem, e, j, inside, happens⟩
    exact ⟨e, j, ⟨m, mem, inside⟩, happens⟩

lemma arg_ok {j : Instruction} (lt : index < j.args.length) : j.arg index = .ok j.args[index] := by
  rw [Instruction.arg, getElem?_eq_getElem lt]
  rfl

lemma changedAt_ok (lt : index < j.args.length) : ∃ rs, changedAt j index = .ok rs := by
  rw [changedAt, arg_ok lt]
  dsimp only [bind, Except.bind]
  split
  · exact ⟨_, rfl⟩
  · exact ⟨_, rfl⟩

lemma outputs_ok (enough : operandsNeeded context j ≤ j.args.length) :
    outputs context j = .ok (effectOf context j).outputs := by
  suffices known : ∃ rs, outputs context j = .ok rs by
    obtain ⟨rs, known⟩ := known
    rw [effectOf, known]
  unfold operandsNeeded at enough
  unfold outputs
  cases act : action j.mnemonic <;> rw [act] at enough
  case moveToFloat => exact changedAt_ok enough
  case set => exact changedAt_ok enough
  case loadLower => exact changedAt_ok enough
  case unknown =>
    cases args : j.args with
    | nil => exact ⟨_, rfl⟩
    | cons a args' =>
      have lt : 0 < j.args.length := by simp [args]
      cases a with
      | register => exact changedAt_ok lt
      | _ => exact ⟨_, rfl⟩
  case call =>
    cases context with
    | none => exact ⟨_, rfl⟩
    | some map =>
      by_cases direct : (j.mnemonic == "jal")
      · have lt : 1 ≤ j.args.length := by simpa [direct] using enough
        simp only [direct, if_true, arg_ok lt, bind, Except.bind]
        split
        · exact ⟨_, rfl⟩
        · exact ⟨_, rfl⟩
      · simp only [direct]
        exact ⟨_, rfl⟩
  all_goals exact ⟨_, rfl⟩

lemma blockEffects_ok (enough : ∀ j ∈ code, operandsNeeded context j ≤ j.args.length) :
    blockEffects context code = .ok (code.map (effectOf context)) := by
  rw [blockEffects]
  induction code with
  | nil => rfl
  | cons j code ih =>
    obtain ⟨first, others⟩ := forall_mem_cons.1 enough
    rw [mapM_cons, ih others, outputs_ok first]
    rfl

lemma graphEffects_at (complete : Complete context g) (m : Nat) :
    (graphEffects context g).at m = .ok ((instructionsAt g m).map (effectOf context)) := by
  rw [Effects.at, graphEffects, Array.getD_eq_getD_getElem?, Array.getElem?_map, instructionsAt]
  cases found : g.nodes[m]? with
  | none => rfl
  | some n =>
    have mem : n ∈ g.nodes.toList := Array.mem_toList_iff.2 (Array.mem_of_getElem? found)
    exact blockEffects_ok (complete n mem)

lemma mem_eventsIn : (∃ e, e ∈ eventsIn context r j) ↔
      r ∈ (effectOf context j).outputs ∨ (effectOf context j).isCall ∧ r ∈ callerSaved := by
  unfold eventsIn
  by_cases call : (effectOf context j).isCall ∧ r ∈ callerSaved <;>
    by_cases out : r ∈ (effectOf context j).outputs <;> simp [call, out]

lemma changes_iff (complete : Complete context g) :
    (graphEffects context g).Changes m r ↔ ∃ e, e ∈ eventsAlong context g r [m] := by
  have known := graphEffects_at complete m
  rw [eventsAlong, flatMap_singleton]
  constructor
  · rintro ⟨effects, here, x, mem, changes⟩
    cases known.symm.trans here
    obtain ⟨j, inside, rfl⟩ := mem_map.1 mem
    obtain ⟨e, happens⟩ := mem_eventsIn.2 changes
    exact ⟨e, mem_flatMap.2 ⟨j, inside, happens⟩⟩
  · rintro ⟨e, happens⟩
    obtain ⟨j, inside, happens⟩ := mem_flatMap.1 happens
    exact ⟨_, known, _, mem_map_of_mem inside, mem_eventsIn.1 ⟨e, happens⟩⟩

lemma setIn_effects (code : List Instruction) : setIn r (code.map (effectOf context)) =
      ((code.flatMap (eventsIn context r)).getLast?).map (· == .set) := by
  induction code using reverseRecOn with
  | nil => rfl
  | append_singleton code j ih =>
    rw [setIn] at ih
    rw [setIn, map_append, foldl_append, ih, flatMap_append,
      flatMap_singleton, eventsIn]
    by_cases call : (effectOf context j).isCall ∧ r ∈ callerSaved <;>
      by_cases out : r ∈ (effectOf context j).outputs <;> simp [call, out]

lemma setAt_eq (complete : Complete context g) (m : Nat) : (graphEffects context g).setAt r m =
      ((eventsAlong context g r [m]).getLast?).map (· == .set) := by
  rw [Effects.setAt, graphEffects_at complete m, eventsAlong, flatMap_singleton]
  exact setIn_effects _

lemma setAt_none (complete : Complete context g) (m : Nat) :
    (graphEffects context g).setAt r m = none ↔ eventsAlong context g r [m] = [] := by
  rw [setAt_eq complete, Option.map_eq_none_iff, getLast?_eq_none_iff]

lemma eventsAlong_eq_nil :
    eventsAlong context g r nodes = [] ↔ ∀ k ∈ nodes, eventsAlong context g r [k] = [] := by
  induction nodes with
  | nil => simp [eventsAlong]
  | cons k nodes ih =>
    rw [← singleton_append, eventsAlong_append, append_eq_nil_iff, ih,
      singleton_append, forall_mem_cons]

lemma lastEvent_cases (context : Option C.TypeMap) (g : Graph) (r : Register) (nodes : List Nat) :
    eventsAlong context g r nodes = [] ∨
      ∃ front m behind, nodes = front ++ m :: behind ∧ eventsAlong context g r [m] ≠ [] ∧
        eventsAlong context g r behind = [] := by
  induction nodes with
  | nil => exact .inl rfl
  | cons k nodes ih =>
    rcases ih with silent | ⟨front, m, behind, rfl, happens, silent⟩
    · by_cases here : eventsAlong context g r [k] = []
      · exact .inl (eventsAlong_eq_nil.2 (forall_mem_cons.2 ⟨here, eventsAlong_eq_nil.1 silent⟩))
      · exact .inr ⟨[], k, nodes, rfl, here, silent⟩
    · exact .inr ⟨k :: front, m, behind, rfl, happens, silent⟩

lemma lastEvent_eq {front behind} (happens : eventsAlong context g r [m] ≠ [])
    (silent : eventsAlong context g r behind = []) :
    (eventsAlong context g r (front ++ m :: behind)).getLast? =
      (eventsAlong context g r [m]).getLast? := by
  rw [← singleton_append, eventsAlong_append, eventsAlong_append, silent, append_nil,
    getLast?_append_of_ne_nil _ happens]

def SetAfter (events : List Event) (before : Bool) : Prop :=
  events.getLast? = some .set ∨ events = [] ∧ before

/-- A register is always set if it is after every path. -/
lemma exposed_passes_iff (rooted : g.Rooted) (complete : Complete context g) (lt : i < g.nodes.size)
    (dom : g.Dominates d i) (strict : d ≠ i) {set} :
    (∀ m, Exposed ((graphEffects context g).silentParents g r) (.single d) (parentsOf g i).reverse m →
        (graphEffects context g).Passes r d set (.single d) m) ↔
      ∀ mid, Between g d i mid → SetAfter (eventsAlong context g r mid) set := by
  constructor
  · intro all mid between
    have silentAt {behind : List Nat} (apart : d ∉ behind)
        (silent : eventsAlong context g r behind = []) :
        ∀ k ∈ behind, d ≠ k ∧ ((graphEffects context g).setAt r k == none) := by
      intro k mem
      refine ⟨?_, beq_iff_eq.2 ((setAt_none complete k).2 (eventsAlong_eq_nil.1 silent k mem))⟩
      rintro rfl
      exact apart mem
    rcases lastEvent_cases context g r mid with silent | ⟨front, m, behind, rfl, happens, silent⟩
    · -- Nothing happens on the way, so the search comes to the dominator.
      have exposed := (exposed_iff rooted lt).2
        ⟨mid, between.path, rooted.lt_of_dominates lt dom, silentAt between.apart silent⟩
      exact .inr ⟨silent, (all d exposed).1 rfl⟩
    · -- The search comes to the last node where something happens.
      obtain ⟨along, apart⟩ := between.suffix
      obtain ⟨ne, apart⟩ := ne_and_not_mem_of_not_mem_cons apart
      have ltm : m < g.nodes.size := along.lt_of_mem lt along.start_mem
      have exposed := (exposed_iff rooted lt).2 ⟨behind, along, ltm, silentAt apart silent⟩
      have fine := (all m exposed).2 (contains_single_ne.2 ne)
      rw [setAt_eq complete, getLast?_eq_some_getLast happens] at fine
      refine .inl ?_
      rw [lastEvent_eq happens silent, getLast?_eq_some_getLast happens]
      simpa using fine
  · intro all m exposed
    obtain ⟨post, along, ltm, silent⟩ := (exposed_iff rooted lt).1 exposed
    have apart : d ∉ post := fun mem => (silent d mem).1 rfl
    have nothing : eventsAlong context g r post = [] :=
      eventsAlong_eq_nil.2 fun k mem => (setAt_none complete k).1 (beq_iff_eq.1 (silent k mem).2)
    constructor
    · rintro rfl
      rcases all post ⟨along, apart⟩ with last | ⟨-, set⟩
      · rw [nothing] at last
        cases last
      · exact set
    · intro fresh unset
      have happens : eventsAlong context g r [m] ≠ [] := by
        intro silent
        rw [(setAt_none complete m).2 silent] at unset
        cases unset
      obtain ⟨pre, between⟩ := between_of_path rooted dom strict along ltm
        (not_mem_cons_of_ne_of_not_mem (contains_single_ne.1 fresh) apart)
      rcases all _ between with last | ⟨silent, -⟩
      · rw [lastEvent_eq happens nothing] at last
        rw [setAt_eq complete, last] at unset
        cases unset
      · rw [← singleton_append, eventsAlong_append, eventsAlong_append] at silent
        simp [happens] at silent

/-- In the graph of a body, a register is among those that change on the way from the immediate
dominator if something happens to it on some path, and it is said to be set if it is set after every
path. -/
theorem ofBody_registers_between {rodata : Rodata} {body : List Item} {console console' : Console}
    (made : (Graph.ofBody rodata body).run console = (.ok g, console'))
    (complete : Complete context g) {n : Node} (found : g.nodes[i]? = some n)
    (link : n.immediateDominator = some d) (r : Register) :
    (∃ changed, changedRegisters g (graphEffects context g) i = .ok changed ∧
      (r ∈ changed ↔ ∃ mid, Between g d i mid ∧ ∃ e, e ∈ eventsAlong context g r mid)) ∧
    ∀ set, ∃ answer, isAlwaysSet g (graphEffects context g) i r set = .ok answer ∧
      (answer = true ↔ ∀ mid, Between g d i mid → SetAfter (eventsAlong context g r mid) set) := by
  have tree := Graph.ofBody_tree made
  have rooted := tree.toRooted
  have lt : i < g.nodes.size := (Array.getElem?_eq_some_iff.1 found).1
  have idom : g.idom? i = some d := by
    rw [Graph.idom?, found]
    exact link
  have closest := tree.closest_idom lt idom
  have known : ∀ m, ∃ effects, (graphEffects context g).at m = .ok effects :=
    fun m => ⟨_, graphEffects_at complete m⟩
  constructor
  · obtain ⟨changed, run, spec⟩ := changedRegisters_spec known idom
    refine ⟨changed, run, (spec r).trans ?_⟩
    constructor
    · rintro ⟨m, above, changes⟩
      obtain ⟨mid, between, mem⟩ := (above_iff rooted lt closest.dominates closest.strict).1 above
      exact ⟨mid, between, mem_eventsAlong.2 ⟨m, mem, (changes_iff complete).1 changes⟩⟩
    · rintro ⟨mid, between, happens⟩
      obtain ⟨m, mem, happens⟩ := mem_eventsAlong.1 happens
      refine ⟨m, ?_, (changes_iff complete).2 happens⟩
      exact (above_iff rooted lt closest.dominates closest.strict).2 ⟨mid, between, mem⟩
  · intro set
    obtain ⟨answer, run, spec⟩ := isAlwaysSet_spec known idom r set
    exact ⟨answer, run,
      spec.trans (exposed_passes_iff rooted complete lt closest.dominates closest.strict)⟩

def skippedCall : List Item :=
  [inLine 1 "beqz" ["a0", .target "L2"],
   inLine 2 "nop" [],
   inLine 3 "jal" [.symbol "step"],
   inLine 4 "nop" [],
   .label "L2",
   inLine 6 "addiu" ["t0", "t0", .literal 1],
   inLine 7 "bnez" ["a1", .target "L2"],
   inLine 8 "nop" [],
   inLine 9 "jr" ["ra"],
   inLine 10 "nop" []]

theorem ofBody_registers_between_skippedCall :
    ∃ g console n, (Graph.ofBody {} skippedCall).run {} = (.ok g, console) ∧
      Complete none g ∧ g.nodes[2]? = some n ∧ n.immediateDominator = some 0 ∧
      (∃ changed, changedRegisters g (graphEffects none g) 2 = .ok changed ∧
        (⟨"v0"⟩ ∈ changed ↔
          ∃ mid, Between g 0 2 mid ∧ ∃ e, e ∈ eventsAlong none g ⟨"v0"⟩ mid)) ∧
      ∀ set, ∃ answer, isAlwaysSet g (graphEffects none g) 2 ⟨"v0"⟩ set = .ok answer ∧
        (answer = true ↔
          ∀ mid, Between g 0 2 mid → SetAfter (eventsAlong none g ⟨"v0"⟩ mid) set) := by
  have checked : Graph.makes {} skippedCall fun g =>
      (g.nodes.toList.all fun n => n.block.instructions.all (hasOperands none)) &&
        g.nodes[2]?.any fun n => n.immediateDominator == some 0 := by cbv
  obtain ⟨g, console, run, checked⟩ := Graph.exists_of_makes checked
  obtain ⟨all, checked⟩ := Bool.and_eq_true_iff.1 checked
  obtain ⟨n, found, link⟩ := (Option.any_eq_true _ _).1 checked
  have complete := complete_of_hasOperands all
  have link := beq_iff_eq.1 link
  exact ⟨g, console, n, run, complete, found, link,
    ofBody_registers_between run complete found link ⟨"v0"⟩⟩

end

end Decompiler.Eval
