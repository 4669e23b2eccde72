import Decompiler.Proofs.Postdominators
import Decompiler.Proofs.Recursion
import Decompiler.Proofs.ShortCircuit

/-!
# Every node is used once

A node is written when the code first comes to it, and later code goes to it by a goto. Branches
that are joined in a condition are not written; but then nothing else leads to them than the branch
in front of them.

Main statement: `buildBody_ends_uses_once`.
-/

namespace Decompiler.Structure

open Code Eval Decompiler.Flow Infer List

def Part.isJump : Part → Bool
  | .goto _ _ | .dispatch _ _ _ | .exit _ _ _ => true
  | _ => false

/-- The nodes whose statements stand in a body, behind the block of a node. The condition of a branch
is that of the node whose block stands in front of it, joined with the tests of those behind that
node. -/
inductive Inventory (s : Session) : Nat → Body → List Nat → Prop where
  | nil {i} :
    Inventory s i [] []
  | block {i j indent statements header rest ns} :
    s.shown j = .ok statements →
    Inventory s j rest ns →
    Inventory s i (.block indent j statements header :: rest) (j :: ns)
  | labelled {i j outer indent statements header rest ns} :
    s.shown j = .ok statements →
    Inventory s j rest ns →
    Inventory s i (.label outer j :: .block indent j statements header :: rest) (j :: ns)
  | jump {i part rest ns} :
    part.isJump →
    Inventory s i rest ns →
    Inventory s i (part :: rest) ns
  | branch {i n indent c thenBody elseBody rest ns ms ks} :
    Joins s i c (List.range' (i + 1) n) →
    Inventory s i thenBody ns →
    Inventory s i (elseBody.getD []) ms →
    Inventory s i rest ks →
    Inventory s i (.branch indent c thenBody elseBody :: rest)
      (List.range' (i + 1) n ++ (ns ++ ms ++ ks))

def Holds (p : Plan) (s : Session) (body : Body) (ns : List Nat) : Prop :=
  ∃ all, (∀ i, Inventory s i body all) ∧
    ∀ k, (p.node k).isExit = false → all.count k = ns.count k

section

variable {p : Plan} {s : Session} {o o' o1 : Outline} {i : Nat} {ns ms : List Nat}

lemma Inventory.append (first : Inventory s i a ns) (second : ∀ j, Inventory s j b ms) :
    Inventory s i (a ++ b) (ns ++ ms) := by
  induction first with
  | nil => exact second _
  | block shown _ ih => exact .block shown ih
  | labelled shown _ ih => exact .labelled shown ih
  | jump jump _ ih => exact .jump jump ih
  | branch joins thenInv elseInv _ _ _ ih =>
    rw [append_assoc, append_assoc (_ ++ _)]
    exact .branch joins thenInv elseInv ih

lemma Holds.append (first : Holds p s a ns) (second : Holds p s b ms) :
    Holds p s (a ++ b) (ns ++ ms) := by
  obtain ⟨all, inv, count⟩ := first
  obtain ⟨all', inv', count'⟩ := second
  refine ⟨all ++ all', fun i => (inv i).append inv', fun k goesOn => ?_⟩
  rw [count_append, count_append, count k goesOn, count' k goesOn]

lemma Holds.nil : Holds p s [] [] :=
  ⟨[], fun _ => .nil, fun _ _ => rfl⟩

lemma Head.inventory (h : Head p s i a) (rest : Inventory s i b ns) :
    Inventory s j (a ++ b) (i :: ns) := by
  cases h with
  | copy _ shown => exact .block shown rest
  | labelled _ shown => exact .labelled shown rest

lemma Return.inventory (h : Return p s i isLast a) : Inventory s j a [i] := by
  cases h with
  | exit head => exact head.inventory (.jump rfl .nil)
  | last _ head => exact append_nil a ▸ head.inventory .nil

lemma count_exit (exit : (p.node i).isExit) (goesOn : (p.node k).isExit = false) :
    [i].count k = 0 :=
  count_eq_zero.2 fun mem => by simp_all

lemma Head.holds (h : Head p s i a) : Holds p s a [i] :=
  ⟨[i], fun _ => append_nil a ▸ h.inventory .nil, fun _ _ => rfl⟩

lemma Return.holds (h : Return p s i isLast a) (exit : (p.node i).isExit) : Holds p s a [] :=
  ⟨[i], fun _ => h.inventory, fun _ goesOn => count_exit exit goesOn⟩

lemma Plan.isExit_of_isCopy (h : p.isCopy i) : (p.node i).isExit := by
  by_contra goesOn
  rw [p.not_isCopy (Bool.not_eq_true _ ▸ goesOn)] at h
  cases h

lemma Jump.holds (h : Jump p s i o a o') :
    Holds p s a [] ∧ o'.emitted = o.emitted ∧ o'.searches = o.searches := by
  cases h with
  | goto => exact ⟨⟨[], fun _ => .jump rfl .nil, fun _ _ => rfl⟩, rfl, rfl⟩
  | copy copy code => exact ⟨code.holds (p.isExit_of_isCopy copy), rfl, rfl⟩

lemma Holds.guarded (h : Holds p s b []) (head : Head p s i a)
    (condition : (s.block i).condition = some c) : Holds p s (a ++ [.branch indent c b none]) [i] := by
  obtain ⟨all, inv, count⟩ := h
  refine ⟨i :: all, fun j => head.inventory ?_, fun k goesOn => ?_⟩
  · have joins : Joins s i c (range' (i + 1) 0) := .first condition .same
    have whole : Inventory s i [.branch indent c b none] ([] ++ (all ++ [] ++ [])) :=
      .branch joins (inv i) .nil .nil
    simpa using whole
  · rw [count_cons, count_cons, count k goesOn]

lemma Leap.holds (h : Leap p s i o1 b o') (opens : Opens p s i o a o1) :
    Holds p s (a ++ b) [i] ∧ o'.emitted = o1.emitted ∧ o'.searches = o1.searches := by
  cases opens with
  | exit exit =>
    cases h with
    | exit _ code =>
      exact ⟨⟨[i], fun _ => code.inventory, fun _ _ => rfl⟩, rfl, rfl⟩
    | _ => simp_all [Node.isExit]
  | block goesOn _ head =>
    cases h with
    | next _ jump =>
      obtain ⟨holds, same⟩ := jump.holds
      exact ⟨head.holds.append holds, same⟩
    | branch _ condition jump =>
      obtain ⟨holds, same⟩ := jump.holds
      exact ⟨holds.guarded head condition, same⟩
    | select => exact ⟨⟨[i], fun _ => head.inventory (.jump rfl .nil), fun _ _ => rfl⟩, rfl, rfl⟩
    | exit link => simp [Node.isExit, link] at goesOn

lemma Opens.searches (h : Opens p s i o a o') : o'.searches = o.searches := by
  cases h <;> rfl

lemma Opens.fresh (h : Opens p s i o a o') (goesOn : (p.node k).isExit = false) :
    [i].count k + (o.emitted.contains k).toNat ≤ (o'.emitted.contains k).toNat := by
  cases h with
  | exit exit => rw [count_exit exit goesOn, zero_add]
  | block _ new =>
    by_cases same : i = k
    · subst same
      simp [new]
    · simp [same, beq_eq_false_iff_ne.2 (symm same)]

end

section

variable {g : Graph} {start k : Nat}

lemma edge_of_forward (h : g.withoutBackBranches.Edge i j) : g.Edge i j := by
  rw [← mem_forward, forward] at h
  split at h
  case h_1 => cases h
  case h_2 n found =>
    refine ⟨n, found, ?_⟩
    split at h
    case h_1 t f link =>
      rw [link]
      split at h
      · exact mem_cons_of_mem _ h
      · exact h
    case h_2 => exact h

lemma immediatePostdominator_self (ends : lastOnPaths g start stop = some start) :
    (immediatePostdominator g start stop).run searches = .error (.broken "") := by
  have passed : isPassed g start start start = fun searches => (false, searches) := by
    funext
    simp [isPassed]
  have stopped : (postdominatorsFrom g start start (searchBound g) .empty [start] []).run searches =
      .error (.broken "") := by
    simp only [searchBound, postdominatorsFrom, passed, NodeSet.contains, NodeSet.empty,
      Nat.zero_testBit, beq_self_eq_true, if_true, Bool.false_eq_true, if_false]
    rfl
  unfold immediatePostdominator
  rw [ends]
  rw [StateT.run_bind, stopped]
  rfl

lemma meet_inner {p : Plan} (wf : p.graph.WellFormed)
    (searched : Searched p.graph searches)
    (run : (immediatePostdominator p.graph start stop).run searches = .ok (meet, searches')) :
    Searched p.graph searches' ∧ (p.Inner meet → meet = start + 1) := by
  obtain ⟨last, ends, endsAt⟩ := lastOnPaths_endsAt p.graph start stop
  obtain ⟨path, along⟩ := endsAt.reached
  by_cases other : last = start
  · rw [immediatePostdominator_self (other ▸ ends)] at run
    cases run
  obtain ⟨_, ⟨⟨away, passed⟩, toMeet, alongMeet, first⟩, finds⟩ :=
    immediatePostdominator_meets ends along other
  obtain ⟨_, run', searched'⟩ := finds searches searched
  cases run.symm.trans run'
  refine ⟨searched', fun inner => ?_⟩
  obtain ⟨k, t, rfl, -, -, only⟩ := inner.only wf
  -- The only way to the node where they meet leads over the branch in front of it.
  have before {path} (along : p.graph.withoutBackBranches.Path start path (k + 1)) :
      k ∈ path := by
    cases along with
    | here => exact absurd rfl away
    | step along edge =>
      rw [← only _ (edge_of_forward edge)]
      exact mem_append_left _ along.end_mem
  by_contra ne
  have earlier : p.graph.withoutBackBranches.Passed start last k := by
    refine ⟨fun same => ne (congrArg _ same), fun path along => ?_⟩
    obtain ⟨front, behind, rfl, toMeet, -, -⟩ := along.split (passed path along)
    exact mem_append_left _ (before toMeet)
  have := first k (before alongMeet) earlier
  omega

end

def enters (start : Nat) (stop : Option Nat) (k : Nat) : Nat :=
  if start = k ∧ stop ≠ some k then 1 else 0

/-- What the code between two nodes uses. A node inside a condition is used along with the one in
front of it, or the code begins with it. Any other node is used if it is written for the first time. -/
structure Uses (p : Plan) (s : Session) (start : Nat) (stop : Option Nat) (o : Outline) (body : Body)
    (o' : Outline) (ns : List Nat) : Prop where
  searched : Searched p.graph o'.searches
  holds : Holds p s body ns
  inner : ∀ k, p.Inner (k + 1) → (p.node (k + 1)).isExit = false →
    ns.count (k + 1) ≤ ns.count k + enters start stop (k + 1)
  fresh : ∀ k, ¬ p.Inner k → (p.node k).isExit = false →
    ns.count k + (o.emitted.contains k).toNat ≤ (o'.emitted.contains k).toNat

section

variable {p : Plan} {s : Session} {start i k : Nat} {stop : Option Nat} {nodes : List Nat}

lemma enters_le (start : Nat) (stop : Option Nat) (k : Nat) : enters start stop k ≤ [start].count k := by
  rw [enters]
  split <;> simp_all

lemma enters_self (away : stop ≠ some start) : enters start stop k = [start].count k := by
  rw [enters]
  by_cases same : start = k
  · subst same
    simp [away]
  · simp [same]

lemma count_not_inner (away : ¬ p.Inner i) (inner : p.Inner k) : [i].count k = 0 :=
  count_eq_zero.2 fun mem => away (mem_singleton.1 mem ▸ inner)

lemma Plan.next_not_inner (wf : p.graph.WellFormed) (link : (p.node i).link = .next j) :
    ¬ p.Inner j := by
  by_cases none : p.node i = default
  · -- The node that stands for none goes to the entry.
    rw [none] at link
    cases link
    intro inner
    obtain ⟨_, _, same, -⟩ := inner.only wf
    cases same
  · refine p.not_inner wf ⟨_, p.exists_node none, by simp [link, Link.targets]⟩ fun b link' => ?_
    cases link.symm.trans link'

lemma Chained.range {next : Nat} (wf : p.graph.WellFormed) (h : Chained p s bottom i tests next) :
    tests.map Prod.snd = range' (i + 1) tests.length ∧ next = i + 1 + tests.length := by
  induction h with
  | done link => exact ⟨rfl, p.behind_branch wf link⟩
  | more link _ _ _ ih =>
    obtain rfl := p.behind_branch wf link
    obtain ⟨range, rfl⟩ := ih
    rw [map_cons, range, length_cons]
    exact ⟨rfl, by omega⟩

lemma count_range (n : Nat) : (range' (i + 1) n).count (k + 1) = (range' i n).count k := by
  rw [add_comm i, add_comm k, ← map_add_range',
    count_map_of_injective _ _ (add_right_injective 1)]

lemma Joint.charged (wf : p.graph.WellFormed) (h : Joint p s start c nodes i j)
    (inner : p.Inner (k + 1)) :
    nodes.count (k + 1) + [i].count (k + 1) + [j].count (k + 1) ≤ (start :: nodes).count k := by
  cases h with
  | none chained _ =>
    obtain ⟨range, rfl⟩ := chained.range wf
    obtain ⟨⟨_, link, _⟩, -⟩ := chained.goes
    rw [count_not_inner (p.target_not_inner wf link) inner, add_zero, range, ← range'_succ,
      ← count_append, ← count_range, range'_1_concat]
  | some chained _ closes _ =>
    obtain ⟨range, rfl⟩ := chained.range wf
    obtain ⟨⟨_, link, _⟩, -⟩ := chained.goes
    obtain ⟨-, -, link'⟩ := closes
    rw [count_not_inner (p.target_not_inner wf link) inner,
      count_not_inner (p.target_not_inner wf link') inner, range,
      ← range'_1_concat, count_range]
    exact (range'_sublist_right.2 (Nat.le_succ _)).count_le k

lemma Condition.charged (wf : p.graph.WellFormed) (h : Condition p s start meet c nodes i j)
    (apart : p.Inner meet → meet = start + 1) (inner : p.Inner (k + 1)) :
    nodes.count (k + 1) + enters i (some meet) (k + 1) + enters j (some meet) (k + 1) +
      [meet].count (k + 1) ≤ (start :: nodes).count k := by
  cases h with
  | guard link _ =>
    obtain rfl := p.behind_branch wf link
    have target := enters_le i (some (start + 1)) (k + 1)
    rw [count_not_inner (p.target_not_inner wf link) inner] at target
    have stopped : enters (start + 1) (some (start + 1)) (k + 1) = 0 := by
      simp only [enters, ite_eq_right_iff]
      rintro ⟨same, away⟩
      exact absurd (congrArg some same) away
    rw [Nat.le_zero.1 target, stopped]
    simp [count_singleton]
  | joint away _ joint =>
    rw [count_not_inner (fun inner => away (apart inner).symm) inner]
    have := joint.charged wf inner
    have := enters_le i (some meet) (k + 1)
    have := enters_le j (some meet) (k + 1)
    omega

lemma Condition.range (wf : p.graph.WellFormed) (h : Condition p s start meet c nodes i j) :
    ∃ n, nodes = range' (start + 1) n := by
  cases h with
  | guard => exact ⟨0, rfl⟩
  | joint _ _ joint =>
    cases joint with
    | none chained _ => exact ⟨_, (chained.range wf).1⟩
    | some chained _ _ _ =>
      obtain ⟨range, rfl⟩ := chained.range wf
      exact ⟨_, by rw [range, range'_1_concat]⟩

end

section

variable {p : Plan} {s : Session} {start i k : Nat} {stop : Option Nat} {o o1 o2 o' : Outline}
  {body : Body} {ns ms ks nodes : List Nat}

lemma Uses.behind (uses : Uses p s j stop o1 b o' ns) (block : Holds p s a [i])
    (away : stop ≠ some i) (charged : p.Inner j → j = i + 1)
    (new : ∀ k, (p.node k).isExit = false →
      [i].count k + (o.emitted.contains k).toNat ≤ (o1.emitted.contains k).toNat) :
    Uses p s i stop o (a ++ b) o' ([i] ++ ns) := by
  refine ⟨uses.searched, block.append uses.holds, fun k inner goesOn => ?_, fun k outer goesOn => ?_⟩
  · have front : [j].count (k + 1) ≤ [i].count k := by
      by_cases same : j = k + 1
      · obtain rfl := Nat.succ.inj ((charged (same ▸ inner)).symm.trans same)
        simp [same]
      · rw [count_eq_zero.2 (by simpa using Ne.symm same)]
        exact Nat.zero_le _
    have := uses.inner k inner goesOn
    have := enters_le j stop (k + 1)
    rw [count_append, count_append, enters_self away]
    omega
  · have := uses.fresh k outer goesOn
    have := new k goesOn
    rw [count_append]
    omega

/-- The tests in a condition are charged to the branch in front of them. -/
lemma Uses.branch (wf : p.graph.WellFormed) (opens : Opens p s i o a o1)
    (goesOn : (p.node i).isExit = false) (away : stop ≠ some i)
    (condition : Condition p s i meet c nodes j k) (apart : p.Inner meet → meet = i + 1)
    (first : Uses p s j (some meet) { o1 with searches := searches } body o2 ns)
    (second : Uses p s k (some meet) o2 (elseBody.getD []) o3 ms) (rest : Uses p s meet stop o3 b o' ks) :
    Uses p s i stop o (a ++ .branch indent c body elseBody :: b) o'
      (i :: (nodes ++ (ns ++ ms ++ ks))) := by
  have fresh {k} := opens.fresh (k := k)
  refine ⟨rest.searched, ?_, fun k inner on => ?_, fun k outer on => ?_⟩
  · obtain ⟨ns', inv, count⟩ := first.holds
    obtain ⟨ms', inv', count'⟩ := second.holds
    obtain ⟨ks', inv'', count''⟩ := rest.holds
    obtain ⟨n, rfl⟩ := condition.range wf
    cases opens with
    | exit exit => simp [goesOn] at exit
    | block _ _ head =>
      refine ⟨i :: (range' (i + 1) n ++ (ns' ++ ms' ++ ks')), fun _ => head.inventory ?_, ?_⟩
      · exact .branch condition.joins (inv i) (inv' i) (inv'' i)
      · intro k on
        simp only [count_cons, count_append, count k on, count' k on, count'' k on]
  · have := first.inner k inner on
    have := second.inner k inner on
    have := rest.inner k inner on
    have := enters_le meet stop (k + 1)
    have charged := condition.charged wf apart inner
    rw [count_cons (b := i)] at charged
    rw [enters_self away]
    simp only [count_cons, count_append]
    omega
  · have none : nodes.count k = 0 := count_eq_zero.2 fun mem => outer (condition.inner k mem)
    have : ns.count k + (o1.emitted.contains k).toNat ≤ _ := first.fresh k outer on
    have := second.fresh k outer on
    have := rest.fresh k outer on
    have new := fresh on
    rw [count_singleton] at new
    simp only [count_cons, count_append, none]
    omega

/-- Derived code uses every node at most once. -/
lemma Derives.uses (wf : p.graph.WellFormed) (h : Derives p s start stop o body o')
    (searched : Searched p.graph o.searches) : ∃ ns, Uses p s start stop o body o' ns := by
  induction h with
  | stop => exact ⟨[], searched, .nil, by simp, by simp⟩
  | again => exact ⟨[], searched, ⟨[], fun _ => .jump rfl .nil, by simp⟩, by simp, by simp⟩
  | exit _ link _ code =>
    exact ⟨[], searched, code.holds (by rw [Node.isExit, link]), by simp, by simp⟩
  | @next i _ o o1 _ t head rest away opens link _ _ ih =>
    have new {k} := opens.fresh (k := k)
    cases opens with
    | exit exit => simp [Node.isExit, link] at exit
    | block _ _ head =>
      obtain ⟨ns, uses⟩ := ih searched
      exact ⟨_, uses.behind head.holds away (fun inner => absurd inner (p.next_not_inner wf link))
        fun _ => new⟩
  | @leap i _ o o1 o2 _ head jump _ away opens _ leap _ _ ih =>
    obtain ⟨block, emitted, searches⟩ := leap.holds opens
    obtain ⟨ns, uses⟩ := ih (searches ▸ opens.searches ▸ searched)
    exact ⟨_, uses.behind block away (fun _ => rfl) fun k on => emitted ▸ opens.fresh on⟩
  | branch away opens link _ meets condition _ _ _ ih1 ih2 ih3 =>
    obtain ⟨searched, apart⟩ := meet_inner wf (opens.searches ▸ searched) meets
    obtain ⟨ns, first⟩ := ih1 searched
    obtain ⟨ms, second⟩ := ih2 first.searched
    obtain ⟨ks, rest⟩ := ih3 second.searched
    exact ⟨_, .branch wf opens (by rw [Node.isExit, link]) away condition apart first second rest⟩

lemma Uses.count_le (wf : p.graph.WellFormed) (uses : Uses p s 0 stop o body o' ns) (k : Nat)
    (goesOn : (p.node k).isExit = false) : ns.count k ≤ 1 := by
  induction k with
  | zero =>
    refine Nat.le_of_add_right_le ((uses.fresh 0 (fun inner => ?_) goesOn).trans (Bool.toNat_le _))
    obtain ⟨_, _, same, -⟩ := inner.only wf
    cases same
  | succ k ih =>
    by_cases inner : p.Inner (k + 1)
    · obtain ⟨_, t, same, link, -⟩ := inner.only wf
      cases Nat.succ.inj same
      have := ih (by rw [Node.isExit, link])
      have := uses.inner k inner goesOn
      rw [enters, if_neg fun h => Nat.succ_ne_zero k h.1.symm] at this
      omega
    · exact Nat.le_of_add_right_le ((uses.fresh _ inner goesOn).trans (Bool.toNat_le _))

end

section

variable {p : Plan} {s : Session} {o : Outline} {i : Nat}

lemma GoesOn.holds (h : GoesOn p s i t a) : Holds p s a [] := by
  cases h with
  | behind => exact .nil
  | jump jump => exact jump.holds.1

lemma InOrder.holds (h : InOrder p s exit? i a) : Holds p s a [i] := by
  cases h with
  | nothing link =>
    exact ⟨[], fun _ => .nil, fun k on => (count_exit (by rw [Node.isExit, link]) on).symm⟩
  | exit _ _ _ code => exact ⟨[i], fun _ => code.inventory, fun _ _ => rfl⟩
  | next _ head jump => exact head.holds.append jump.holds
  | select _ head => exact ⟨[i], fun _ => head.inventory (.jump rfl .nil), fun _ _ => rfl⟩
  | branch _ head jump condition rest =>
    rw [append_cons]
    exact (jump.holds.1.guarded head condition).append rest.holds

lemma flatten_holds (each : Forall₂ (InOrder p s exit?) ns bodies) :
    Holds p s bodies.flatten ns := by
  induction each with
  | nil => exact .nil
  | cons first _ ih => exact first.holds.append ih

def HoldsOnce (p : Plan) (s : Session) (body : Body) : Prop :=
  ∃ ns, Holds p s body ns ∧ ∀ k, (p.node k).isExit = false → ns.count k ≤ 1

/-- The whole body uses every node at most once. -/
lemma buildBody_once (wf : p.graph.WellFormed) :
    Yields s (buildBody p) {} fun body _ => HoldsOnce p s body := by
  refine (buildBody_whole (Q := fun body _ => HoldsOnce p s body) (p.behind_branch wf)
    (fun _ _ _ derives => ?_) fun _ _ _ each => ?_).imp fun body _ whole => ?_
  · obtain ⟨ns, uses⟩ := derives.uses wf .none
    exact ⟨ns, uses.holds, uses.count_le wf⟩
  · exact ⟨_, flatten_holds each, fun k _ => nodup_iff_count_le_one.1 nodup_range k⟩
  · cases whole with
    | none _ once => exact once
    | last last once code =>
      obtain ⟨ns, holds, once⟩ := once
      refine ⟨ns ++ [], holds.append ?_, by simpa⟩
      exact code.holds (by rw [Node.isExit, p.returnNode last])

/-- Structuring comes to an end: neither what happens below the bounds of its recursions nor a greater
bound makes a difference. And it copies nothing but returns: any other node is written or joined in a
condition once at most. -/
theorem buildBody_ends_uses_once (wf : p.graph.WellFormed) :
    (∀ (e : Failure) (n : Nat), Nat.pow (p.graph.nodes.size + 2) 2 ≤ n →
      p.bounded e n = buildBetween p (Nat.pow (p.graph.nodes.size + 2) 2)) ∧
    (∀ (bottom : Nat) (below : Nat → List (Expr × Nat) → Build Chain),
      (followStep p.graph bottom)^[p.graph.nodes.size + 1] below =
        followChain p.graph bottom (p.graph.nodes.size + 1)) ∧
    ∀ {s s' : Session} {code : Body} {outline : Outline},
      ((buildBody p).run {}).run s = (.ok (code, outline), s') →
      ∃ ns, Inventory s 0 code ns ∧ ∀ i, (p.node i).isExit = false → ns.count i ≤ 1 := by
  obtain ⟨n, first, -⟩ := wf.first
  have pos : 0 < p.graph.nodes.size := (Array.getElem?_eq_some_iff.1 first).1
  refine ⟨fun e n enough => bounded_eq (p.behind_branch wf) pos e enough,
    fun bottom below => iterate_followStep (p.behind_branch wf) below, fun run => ?_⟩
  obtain ⟨-, ns, ⟨all, inv, count⟩, once⟩ := buildBody_once wf _ _ _ .refl run
  exact ⟨all, inv 0, fun i goesOn => count i goesOn ▸ once i goesOn⟩

def eitherStore : List Asm.Item :=
  [inLine 1 "beqz" ["a0", .target "L1"],
   inLine 2 "nop" [],
   inLine 3 "beqz" ["a1", .target "L2"],
   inLine 4 "nop" [],
   .label "L1",
   inLine 6 "sw" ["a1", .memoryAt (.literal 0) "a2"],
   .label "L2",
   inLine 8 "jr" ["ra"],
   inLine 9 "nop" []]

/-- The second test of the condition that was written has statements of its own. -/
def runsInside : Except Failure (Body × Outline) × Session → Bool
  | (.ok (_ :: _ :: .branch _ (.binary _ .or (.comma (_ :: _) _) _ false) _ _ :: _, _), _) => true
  | _ => false

/-- The second test runs a statement inside the condition, and is used once. -/
theorem buildBody_ends_uses_once_eitherStore :
    ∃ p first label n x stmt stmts y type body elseBody rest outline s' ns, p.graph.WellFormed ∧
      ((buildBody p).run {}).run busyGuards = (.ok (first :: label ::
        .branch n (.binary x .or (.comma (stmt :: stmts) y) type false) body elseBody :: rest, outline), s') ∧
      Inventory busyGuards 0 (first :: label ::
        .branch n (.binary x .or (.comma (stmt :: stmts) y) type false) body elseBody :: rest) ns ∧
      (p.node 1).isExit = false ∧ ns.count 1 ≤ 1 := by
  have checked : Graph.makes {} eitherStore fun g =>
      !(g.nodes.getD 1 default).isExit &&
      runsInside (((buildBody ⟨{ file := "" }, g⟩).run {}).run busyGuards) := by cbv
  obtain ⟨g, console, built, checked⟩ := Graph.exists_of_makes checked
  have wf := Graph.wellFormed_ofBody built
  obtain ⟨goesOn, checked⟩ := Bool.and_eq_true_iff.1 checked
  rw [Bool.not_eq_true'] at goesOn
  unfold runsInside at checked
  split at checked
  case h_2 => cases checked
  case h_1 run =>
    obtain ⟨-, -, once⟩ := buildBody_ends_uses_once (p := ⟨{ file := "" }, g⟩) wf
    obtain ⟨ns, inv, once⟩ := once run
    exact ⟨_, _, _, _, _, _, _, _, _, _, _, _, _, _, ns, wf, run, inv, goesOn, once 1 goesOn⟩

end

end Decompiler.Structure
