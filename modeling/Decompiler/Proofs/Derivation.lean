import Decompiler.Proofs.GraphShape
import Decompiler.Proofs.Occurrence

/-!
# How code is put together

The code between two nodes is derived from the graph step by step: a node that was written before is
gone to, any other one is written, and the code goes on at the nodes behind it. This module says what
each step can write, and that building writes nothing else.
-/

namespace Decompiler.Structure

open Code Eval Decompiler.Flow Infer List Prod

inductive Head (p : Plan) (s : Session) (i : Nat) : Body → Prop where
  | copy {indent statements header} :
    p.isCopy i →
    s.shown i = .ok statements →
    Head p s i [.block indent i statements header]
  | labelled {outer indent statements header} :
    p.isCopy i = false →
    s.shown i = .ok statements →
    Head p s i [.label outer i, .block indent i statements header]

inductive Return (p : Plan) (s : Session) (i : Nat) (isLast : Bool) : Body → Prop where
  | exit {head indent value} :
    Head p s i head →
    Return p s i isLast (head ++ [.exit indent i value])
  | last {head} :
    isLast →
    Head p s i head →
    Return p s i isLast head

inductive Jump (p : Plan) (s : Session) (t : Nat) (o : Outline) : Body → Outline → Prop where
  | goto :
    p.isCopy t = false →
    Jump p s t o [.goto indent t] { o with gotos := o.gotos.insert t }
  | copy :
    p.isCopy t →
    Return p s t false body →
    Jump p s t o body { o with returnsValue := valued }

section

variable {p : Plan} {s : Session} {o : Outline} {i indent : Nat}

lemma emitNode_head :
    Yields s (emitNode p notes i indent) o fun body o' => Head p s i body ∧ o' = o := by
  refine .bind_same statementsOf_yields fun statements shown => ?_
  refine .ite (fun copy => .pure ⟨.copy copy shown, rfl⟩) fun own => .pure ⟨?_, rfl⟩
  exact .labelled (Bool.not_eq_true _ ▸ own) shown

lemma emitDispatch_eq : Yields s (emitDispatch p i indent) o fun body o' =>
    (∃ text, body = [.dispatch indent i text]) ∧ o' = o := by
  refine .bind_same blockOf_yields fun b _ => ?_
  split
  · exact .bind (textOf_yields _) fun text o' same => .pure ⟨⟨text, rfl⟩, same⟩
  · exact .throw _

lemma emitReturn_return : Yields s (emitReturn p notes i indent isLast) o fun body o' =>
    Return p s i isLast body ∧ ∃ valued, o' = { o with returnsValue := valued } := by
  refine .bind_same emitNode_head fun _ head => .bind_same blockOf_yields fun b _ => ?_
  split
  · refine .bind (textOf_yields _) fun text o' same => ?_
    subst same
    exact .bind (.modify _) fun _ o' same => .pure ⟨.exit head, true, same⟩
  · refine .pure ⟨?_, _, rfl⟩
    split
    case isTrue last => exact .last last head
    case isFalse => exact .exit head

lemma emitJump_jump : Yields s (emitJump p notes i indent) o (Jump p s i o) := by
  refine .ite (fun copy => ?_) fun own => .bind (.modify _) fun _ o' same => .pure ?_
  · refine emitReturn_return.imp fun body o' ⟨code, valued, same⟩ => ?_
    subst same
    exact .copy copy code
  · subst same
    exact .goto (Bool.not_eq_true _ ▸ own)

end

section

def Opposite (x y : Expr) : Prop :=
  ∃ s s', (negate x).run s = (.ok y, s')

/-- A condition joined from that of a branch and the tests of further nodes, all of them turned in the
same way. -/
inductive Joined (s : Session) (first : Nat) (turned : Expr → Expr → Prop) (op : BinOp) :
    Expr → List (Expr × Nat) → Prop where
  | first {c y} :
    (s.block first).condition = some c →
    turned c y →
    Joined s first turned op y []
  | next {left tests i x y type} :
    Joined s first turned op left tests →
    Tests s i x →
    turned x y →
    Joined s first turned op (.binary left op y type false) (tests ++ [(x, i)])

variable {s : Session} {first : Nat} {op : BinOp} {turned : Expr → Expr → Prop}

lemma Opposite.signed (h : Opposite x y) : Signed x y := by
  obtain ⟨_, _, run⟩ := h
  exact .opposite run

lemma Joined.joins (h : Joined s first turned op c tests)
    (signed : ∀ {x y}, turned x y → Signed x y) : Joins s first c (tests.map snd) := by
  induction h with
  | first condition turned => exact .first condition (signed turned)
  | next _ test turned ih =>
    rw [map_append]
    exact .next ih test (signed turned)

lemma Joined.condition (h : Joined s first turned op c tests) :
    ∃ x, (s.block first).condition = some x := by
  induction h with
  | first condition _ => exact ⟨_, condition⟩
  | next _ _ _ ih => exact ih

lemma Joined.first_of_nil (h : Joined s first turned op c []) :
    ∃ x, (s.block first).condition = some x ∧ turned x c := by
  generalize none : [] = tests at h
  cases h with
  | first condition turned => exact ⟨_, condition, turned⟩
  | next => simp at none

lemma negate_opposite (x : Expr) : Gives s (negate x) (Opposite x) :=
  fun s1 _ s2 agrees e => ⟨agrees.trans (negate_noting.agrees.ensures _ _ e), s1, s2, e⟩

lemma joinConditions_joined (joined : Joined s first turned op y tests)
    (known : ∀ t ∈ more, Tests s t.2 t.1) (turns : Forall₂ (fun t y => turned t.1 y) more ys) :
    Gives s (joinConditions op (y :: ys)) fun c => Joined s first turned op c (tests ++ more) := by
  induction turns generalizing y tests with
  | nil => exact .pure (by simpa using joined)
  | cons turned _ ih =>
    obtain ⟨test, known⟩ := forall_mem_cons.1 known
    rw [append_cons]
    exact .bind (.bind (.of_quiet infer_noting) fun type _ => .pure (.next joined test turned))
      fun z joined => ih joined known

lemma joinConditions_append (x : Expr) (xs : List Expr) (y : Expr) :
    joinConditions op (x :: xs ++ [y]) = (do
      let left ← joinConditions op (x :: xs)
      return .binary left op y (← freshType .truth) false) := by
  simp [joinConditions]

lemma noneOf_joined (condition : (s.block first).condition = some c)
    (known : ∀ t ∈ tests, Tests s t.2 t.1) :
    Gives s (noneOf (c :: tests.map fst)) fun c => Joined s first Opposite .and c tests := by
  have opposites (xs : List Expr) : Gives s (xs.mapM negate) fun ys => Forall₂ Opposite xs ys := by
    induction xs with
    | nil => exact .pure .nil
    | cons x xs ih =>
      rw [mapM_cons]
      exact .bind (negate_opposite x) fun y hy => .bind ih fun ys hys => .pure (.cons hy hys)
  refine .bind (opposites _) fun ys hys => ?_
  cases hys with
  | cons hy hys =>
    exact joinConditions_joined (.first condition hy) known (forall₂_map_left_iff.1 hys)

lemma noneOf_nil : Gives s (noneOf []) Q :=
  fun _ _ _ _ e => by cases e

end

section

variable {p : Plan} {s : Session} {bottom : Nat}

lemma Plan.node_eq (h : p.graph.nodes[i]? = some n) : p.node i = n := by
  rw [node, Array.getD_eq_getD_getElem?, h]
  rfl

lemma Plan.exists_node (h : p.node i ≠ default) : p.graph.nodes[i]? = some (p.node i) := by
  cases e : p.graph.nodes[i]? with
  | none =>
    rw [node, Array.getD_eq_getD_getElem?, e] at h
    exact absurd rfl h
  | some n => rw [node_eq e]

lemma Plan.exists_branch (h : (p.node i).link = .branch t f) :
    p.graph.nodes[i]? = some (p.node i) :=
  p.exists_node fun same => by rw [same] at h; cases h

lemma Plan.exists_marked (h : (p.node i).emitGoto) : p.graph.nodes[i]? = some (p.node i) :=
  p.exists_node fun same => by rw [same] at h; cases h

lemma Plan.onward_branch (link : (p.node i).link = .branch t f) (h : k ∈ p.onward i) :
    k = t ∨ k = f := by
  simp only [onward, link] at h
  split at h <;> simp_all

inductive Chained (p : Plan) (s : Session) (bottom : Nat) :
    Nat → List (Expr × Nat) → Nat → Prop where
  | done {i next} :
    (p.node i).link = .branch bottom next →
    Chained p s bottom i [] next
  | more {i j x tests next} :
    (p.node i).link = .branch bottom j →
    Tests s j x →
    p.Inner j →
    Chained p s bottom j tests next →
    Chained p s bottom i ((x, j) :: tests) next

namespace Chained

variable {i next : Nat} {tests : List (Expr × Nat)}

section

variable (h : Chained p s bottom i tests next)

include h

lemma known : ∀ t ∈ tests, Tests s t.2 t.1 := by
  induction h with
  | done => simp
  | more _ test _ _ ih => exact forall_mem_cons.2 ⟨test, ih⟩

lemma inner : ∀ j ∈ tests.map snd, p.Inner j := by
  induction h with
  | done => simp
  | more _ _ inner _ ih => simpa [inner] using ih

lemma goes : (∃ f, (p.node i).link = .branch bottom f ∧ (f ∈ tests.map snd ∨ f = next)) ∧
      ∀ j ∈ tests.map snd, ∀ k ∈ p.onward j,
        k = bottom ∨ k ∈ tests.map snd ∨ k = next := by
  induction h with
  | done link => exact ⟨⟨_, link, .inr rfl⟩, by simp⟩
  | @more i j x tests next link _ _ _ ih =>
    obtain ⟨⟨f, link', along⟩, rest⟩ := ih
    have grow {k} (h : k ∈ tests.map snd ∨ k = next) :
        k ∈ ((x, j) :: tests).map snd ∨ k = next :=
      h.imp_left (mem_cons_of_mem _)
    refine ⟨⟨j, link, .inl mem_cons_self⟩, fun j' mem k hk => ?_⟩
    rcases mem_cons.1 mem with rfl | mem
    · rcases Plan.onward_branch link' hk with rfl | rfl
      · exact .inl rfl
      · exact .inr (grow along)
    · exact (rest j' mem k hk).imp_right grow

end

lemma before (h : Chained p s bottom i (front ++ (x, j) :: back) next) :
    Chained p s bottom i front j := by
  induction front generalizing i with
  | nil =>
    cases h with
    | more link _ _ _ => exact .done link
  | cons test front ih =>
    cases h with
    | more link test inner rest => exact .more link test inner (ih rest)

end Chained

section

variable (wf : p.graph.WellFormed)

include wf

lemma Plan.behind_branch (link : (p.node k).link = .branch t f) : f = k + 1 :=
  (wf.falls (p.exists_branch link) link).1

lemma Plan.Inner.only (h : p.Inner i) :
    ∃ k t, i = k + 1 ∧ (p.node k).link = .branch t i ∧ t ≠ i ∧ ∀ q, p.graph.Edge q i → q = k := by
  obtain ⟨parents, k, t, link, ne⟩ := h
  have found := p.exists_branch link
  obtain ⟨rfl, lt⟩ := wf.falls found link
  obtain ⟨m, found'⟩ : ∃ m, p.graph.nodes[k + 1]? = some m := ⟨_, Array.getElem?_eq_getElem lt⟩
  have parent : k ∈ m.parents := (wf.parents found' k).2 ⟨_, found, by simp [link, Link.targets]⟩
  rw [p.node_eq found'] at parents
  refine ⟨k, t, rfl, link, ne, fun q edge => ?_⟩
  have parent' := (wf.parents found' q).2 edge
  -- Both are the only parent.
  obtain ⟨_, all⟩ := length_eq_one_iff.1 (le_antisymm parents (length_pos_of_mem parent))
  simp_all

lemma Plan.not_inner (edge : p.graph.Edge k t)
    (other : ∀ b, (p.node k).link = .branch b t → b = t) : ¬ p.Inner t := by
  intro inner
  obtain ⟨q, b, -, link, ne, only⟩ := inner.only wf
  obtain rfl := only k edge
  exact ne (other b link)

lemma Plan.target_not_inner (link : (p.node k).link = .branch t f) : ¬ p.Inner t := by
  refine p.not_inner wf ⟨_, p.exists_branch link, by simp [link, Link.targets]⟩ fun b link' => ?_
  cases link.symm.trans link'
  rfl

end

def Closes (p : Plan) (s : Session) (bottom next : Nat) : Option (Expr × Nat) → Prop
  | none => True
  | some (x, other) => Tests s next x ∧ p.Inner next ∧ (p.node next).link = .branch other bottom

lemma Plan.inner_of_chain {next : Nat} (falls : p.graph.FallsOn)
    (link : (p.node i).link = .branch bottom next)
    (link' : (p.node next).link = .branch target fall) (meets : target = bottom ∨ fall = bottom)
    (loop : p.graph.isLoop next = false) (parents : (p.node next).parents.length ≤ 1) :
    p.Inner next := by
  refine ⟨parents, i, bottom, link, ?_⟩
  rintro rfl
  rcases meets with rfl | rfl
  · simp [Graph.isLoop, exists_branch link', link', Graph.isLoopEdge] at loop
  · have := falls link'
    omega

/-- Following a chain finds tests that all jump to its bottom. -/
lemma followChain_yields (falls : p.graph.FallsOn)
    (link : ∃ f, (p.node i).link = .branch bottom f) :
    Yields s (followChain p.graph bottom fuel i tests) o fun chain o' =>
      (chain.bottom = bottom ∧ ∃ more, chain.tests = tests ++ more ∧
        Chained p s bottom i more chain.next ∧ Closes p s bottom chain.next chain.closing) ∧
      o' = o := by
  induction fuel generalizing i tests with
  | zero => exact .throw _
  | succ fuel ih =>
    obtain ⟨next, link⟩ := link
    unfold followChain followStep
    simp only [show (p.graph.nodes.getD i default).link = .branch bottom next from link]
    split
    case h_1 target fall link' =>
      split
      · exact .pure ⟨⟨rfl, [], by simp, .done link, trivial⟩, rfl⟩
      case isFalse on =>
        simp only [Bool.or_eq_true, Bool.and_eq_true, bne_iff_ne, decide_eq_true_eq, not_or, not_and,
          not_not] at on
        obtain ⟨⟨meets, loop⟩, parents⟩ := on
        have inner : p.Inner next := by
          refine p.inner_of_chain falls link link' ?_ (by simpa using loop) (Nat.le_of_not_lt parents)
          by_cases h : target = bottom
          · exact .inl h
          · exact .inr (meets h)
        split
        case isTrue closed =>
          obtain rfl := eq_of_beq closed
          refine .bind_same conditionWithStatements_yields fun x test => ?_
          exact .pure ⟨⟨rfl, [], by simp, .done link, test, inner, link'⟩, rfl⟩
        case isFalse along =>
          have same : target = bottom := by
            by_contra h
            exact along (beq_iff_eq.2 (meets h))
          subst same
          refine .bind_same conditionWithStatements_yields fun x test => ?_
          refine (ih ⟨fall, link'⟩).imp fun chain o' ⟨⟨bottom, more, all, chained, closes⟩, same⟩ => ?_
          exact ⟨⟨bottom, (x, next) :: more, by simpa using all, .more link test inner chained, closes⟩,
            same⟩
    · exact .pure ⟨⟨rfl, [], by simp, .done link, trivial⟩, rfl⟩

end

/-- A condition joined from the tests of a chain of branches. The code goes on at the first of two
nodes if the condition holds, and at the second one if it does not. -/
inductive Joint (p : Plan) (s : Session) (start : Nat) : Expr → List Nat → Nat → Nat → Prop where
  | none {bottom next tests c} :
    Chained p s bottom start tests next →
    Joined s start Opposite .and c tests →
    Joint p s start c (tests.map Prod.snd) next bottom
  | some {bottom next other tests left x y type} :
    Chained p s bottom start tests next →
    Joined s start Eq .or left tests →
    Closes p s bottom next (some (x, other)) →
    Opposite x y →
    Joint p s start (.binary left .or y type false) (tests.map Prod.snd ++ [next]) bottom other

/-- The condition of a branch, in front of the node where its paths meet again. -/
inductive Condition (p : Plan) (s : Session) (start meet : Nat) :
    Expr → List Nat → Nat → Nat → Prop where
  | guard {c target} :
    (p.node start).link = .branch target meet →
    (s.block start).condition = some c →
    Condition p s start meet c [] target meet
  | joint {c nodes i j} :
    start + 1 ≠ meet →
    (nodes ≠ [] → p.options.andOr) →
    Joint p s start c nodes i j →
    Condition p s start meet c nodes i j

section

variable {p : Plan} {s : Session} {start meet i j : Nat} {c : Expr} {nodes : List Nat}

section

variable (h : Joint p s start c nodes i j)

include h

lemma Joint.joins : Joins s start c nodes := by
  cases h with
  | none _ joined => exact joined.joins Opposite.signed
  | some _ joined closes opposite =>
    exact .next (joined.joins fun | rfl => .same) closes.1 opposite.signed

lemma Joint.inner : ∀ k ∈ nodes, p.Inner k := by
  cases h with
  | none chained _ => exact chained.inner
  | some chained _ closes _ =>
    intro k mem
    rcases mem_append.1 mem with mem | mem
    · exact chained.inner k mem
    · exact mem_singleton.1 mem ▸ closes.2.1

lemma Joint.goes :
    (∀ t f, (p.node start).link = .branch t f → ∀ k, k = t ∨ k = f → k ∈ nodes ∨ k = i ∨ k = j) ∧
      ∀ m ∈ nodes, ∀ k ∈ p.onward m, k ∈ nodes ∨ k = i ∨ k = j := by
  cases h with
  | none chained _ =>
    obtain ⟨⟨fall, link, along⟩, rest⟩ := chained.goes
    refine ⟨fun t f link' k h => ?_, fun m mem k hk => ?_⟩
    · cases link.symm.trans link'
      rcases h with rfl | rfl
      · exact .inr (.inr rfl)
      · exact along.imp_right .inl
    · rcases rest m mem k hk with h | h | h
      · exact .inr (.inr h)
      · exact .inl h
      · exact .inr (.inl h)
  | @some _ next _ tests _ _ _ _ chained _ closes _ =>
    obtain ⟨⟨fall, link, along⟩, rest⟩ := chained.goes
    have behind {k : Nat} (h : k ∈ tests.map snd ∨ k = next) :
        k ∈ tests.map snd ++ [next] ∨ k = i ∨ k = j := by
      rw [mem_append, mem_singleton]
      exact .inl h
    refine ⟨fun t f link' k h => ?_, fun m mem k hk => ?_⟩
    · cases link.symm.trans link'
      rcases h with rfl | rfl
      · exact .inr (.inl rfl)
      · exact behind along
    · rcases mem_append.1 mem with mem | mem
      · rcases rest m mem k hk with h | h
        · exact .inr (.inl h)
        · exact behind h
      · cases mem_singleton.1 mem
        exact .inr (p.onward_branch closes.2.2 hk).symm

end

section

variable (h : Condition p s start meet c nodes i j)

include h

lemma Condition.joins : Joins s start c nodes := by
  cases h with
  | guard _ condition => exact .first condition .same
  | joint _ _ joint => exact joint.joins

lemma Condition.inner : ∀ k ∈ nodes, p.Inner k := by
  cases h with
  | guard => simp
  | joint _ _ joint => exact joint.inner

lemma Condition.goes :
    (∀ t f, (p.node start).link = .branch t f → ∀ k, k = t ∨ k = f → k ∈ nodes ∨ k = i ∨ k = j) ∧
      ∀ m ∈ nodes, ∀ k ∈ p.onward m, k ∈ nodes ∨ k = i ∨ k = j := by
  cases h with
  | joint _ _ joint => exact joint.goes
  | guard link _ =>
    refine ⟨fun t f link' k h => .inr ?_, by simp⟩
    cases link.symm.trans link'
    exact h

end

end

/-- A condition around code from two nodes on up to the node where they meet. -/
inductive Branches (condition : Expr → List Nat → Nat → Nat → Prop)
    (between : Nat → Option Nat → Outline → Body → Outline → Prop) (meet : Nat) (o : Outline) :
    Part → Outline → Prop where
  | both {indent c nodes i j body elseBody o1 o'} :
    condition c nodes i j →
    between i (some meet) o body o1 →
    between j (some meet) o1 (elseBody.getD []) o' →
    Branches condition between meet o (.branch indent c body elseBody) o'

lemma Plan.not_isCopy {p : Plan} (h : (p.node i).isExit = false) : p.isCopy i = false := by
  unfold Node.isExit at h
  unfold isCopy
  split <;> simp_all

inductive Opens (p : Plan) (s : Session) (i : Nat) (o : Outline) : Body → Outline → Prop where
  | exit :
    (p.node i).isExit →
    Opens p s i o [] o
  | block {head} :
    (p.node i).isExit = false →
    o.emitted.contains i = false →
    Head p s i head →
    Opens p s i o head { o with emitted := o.emitted.insert i }

/-- The jump of a marked node. -/
inductive Leap (p : Plan) (s : Session) (i : Nat) (o : Outline) : Body → Outline → Prop where
  | next :
    (p.node i).link = .next t →
    Jump p s t o jump o1 →
    Leap p s i o jump o1
  | branch {t f indent c jump o1} :
    (p.node i).link = .branch t f →
    (s.block i).condition = some c →
    Jump p s t o jump o1 →
    Leap p s i o [.branch indent c jump none] o1
  | select :
    (p.node i).link = .select cases →
    Leap p s i o [.dispatch indent i text] o
  | exit :
    (p.node i).link = .exit copy →
    Return p s i false code →
    Leap p s i o code { o with returnsValue := valued }

/-- The code from a node up to `stop`, which is not part of it. -/
inductive Derives (p : Plan) (s : Session) :
    Nat → Option Nat → Outline → Body → Outline → Prop where
  | stop {i o} :
    Derives p s i (some i) o [] o
  | again {i stop o indent} :
    stop ≠ some i →
    (p.node i).isExit = false →
    o.emitted.contains i →
    Derives p s i stop o [.goto indent i] { o with gotos := o.gotos.insert i }
  | exit {i stop o copy code valued} :
    stop ≠ some i →
    (p.node i).link = .exit copy →
    (p.node i).emitGoto = false →
    Return p s i false code →
    Derives p s i stop o code { o with returnsValue := valued }
  | next {i stop o o1 o' t head rest} :
    stop ≠ some i →
    Opens p s i o head o1 →
    (p.node i).link = .next t →
    (p.node i).emitGoto = false →
    Derives p s t stop o1 rest o' →
    Derives p s i stop o (head ++ rest) o'
  | leap {i stop o o1 o2 o' head jump rest} :
    stop ≠ some i →
    Opens p s i o head o1 →
    (p.node i).emitGoto →
    Leap p s i o1 jump o2 →
    i + 1 < p.graph.nodes.size →
    Derives p s (i + 1) stop o2 rest o' →
    Derives p s i stop o (head ++ jump ++ rest) o'
  | branch {i stop o o1 o2 o3 o' t f meet j k searches head indent c nodes body elseBody rest} :
    stop ≠ some i →
    Opens p s i o head o1 →
    (p.node i).link = .branch t f →
    (p.node i).emitGoto = false →
    (immediatePostdominator p.graph i stop).run o1.searches = .ok (meet, searches) →
    Condition p s i meet c nodes j k →
    Derives p s j (some meet) { o1 with searches := searches } body o2 →
    Derives p s k (some meet) o2 (elseBody.getD []) o3 →
    Derives p s meet stop o3 rest o' →
    Derives p s i stop o (head ++ .branch indent c body elseBody :: rest) o'

section

variable {p : Plan} {s : Session} {o : Outline} {start stop indent : Nat}
  {between : Nat → Option Nat → Nat → Build Body}
  {R : Nat → Option Nat → Outline → Body → Outline → Prop}

section

variable (built : ∀ {i e n o}, Yields s (between i e n) o (R i e o))

include built

section

variable (empty : ∀ {i o}, R i (some i) o [] o)

include empty

/-- A chain of tests is written as one branch on a joint condition. -/
lemma buildChain_branches (cond : (s.block start).condition = some condition)
    (tests : chain.tests = (condition, start) :: more)
    (chained : Chained p s chain.bottom start more chain.next)
    (closes : Closes p s chain.bottom chain.next chain.closing) :
    Yields s (buildChain between chain stop indent) o (Branches (Joint p s start) R stop o) := by
  unfold buildChain
  rw [tests]
  split
  case h_1 last other closing =>
    rw [closing] at closes
    refine .bind built fun body o1 thenBody => .bind built fun elseBody o2 elseBody => ?_
    refine .bind_same (.lift (negate_opposite last)) fun y opposite => ?_
    dsimp only
    rw [map_cons, joinConditions_append]
    have joined : Gives s (do
        let left ← joinConditions .or (condition :: more.map fst)
        return .binary left .or y (← freshType .truth) false) fun c =>
          Joint p s start c (more.map snd ++ [chain.next]) chain.bottom other := by
      refine .bind (joinConditions_joined (.first cond rfl) chained.known
        (forall₂_map_right_iff.2 (forall₂_same.2 fun _ _ => rfl))) fun left joined => ?_
      refine .bind (.of_quiet infer_noting) fun type _ => .pure ?_
      exact .some chained joined closes opposite
    exact .bind_same (.lift joined) fun c condition => .pure (.both condition thenBody elseBody)
  case h_2 =>
    split
    case h_1 c node bottom found =>
      -- The chain is cut where a test has statements of its own.
      cases comma : isComma condition with
      | true =>
        refine .bind built fun body o1 _ => .bind (.lift ?_) fun c o2 h => (h : False ∧ _).1.elim
        simp only [takeWhile_cons, comma]
        exact noneOf_nil
      | false =>
        rw [find?_cons_of_neg (by simp [comma])] at found
        obtain ⟨last, front, back, rfl, plain⟩ := find?_eq_some_iff_append.1 found
        have taken : (((condition, start) :: (front ++ (c, node) :: back)).takeWhile
            fun e => !isComma e.1) = (condition, start) :: front := by
          rw [takeWhile_cons_of_pos (by simp [comma]), takeWhile_append_of_pos plain,
            takeWhile_cons_of_neg (by simpa using last), append_nil]
        have chained := chained.before
        refine .bind built fun body o1 thenBody => ?_
        rw [taken]
        refine .bind_same (.lift (noneOf_joined cond chained.known)) fun c joined => ?_
        rw [eq_of_beq bottom] at chained
        exact .pure (.both (.none chained joined) thenBody empty)
    case h_2 =>
      refine .bind built fun body o1 thenBody => .bind built fun elseBody o2 elseBody => ?_
      refine .bind_same (.lift (noneOf_joined cond chained.known)) fun c joined => ?_
      exact .pure (.both (.none chained joined) thenBody elseBody)

lemma buildAndOr_branches (falls : p.graph.FallsOn)
    (link : (p.node start).link = .branch target fall)
    (cond : (s.block start).condition = some condition) :
    Yields s (buildAndOr p between condition start target stop indent) o
      (Branches (Joint p s start) R stop o) := by
  refine .bind_same (followChain_yields falls ⟨fall, link⟩)
    fun chain ⟨bottom, more, tests, chained, closes⟩ => ?_
  subst bottom
  exact buildChain_branches (R := R) built empty cond tests chained closes

lemma buildBranch_branches (falls : p.graph.FallsOn) :
    Yields s (buildBranch p between start stop indent) o
      (Branches (Condition p s start stop) R stop o) := by
  unfold buildBranch
  split
  case h_1 target fall link =>
    refine .bind_same conditionOf_yields fun condition cond => ?_
    refine .ite (fun meet => ?_) fun other => ?_
    · obtain rfl := eq_of_beq meet
      exact .bind built fun body o1 thenBody => .pure (.both (.guard link cond) thenBody empty)
    have other : start + 1 ≠ stop := falls link ▸ by simpa using other
    refine .ite (fun chains => ?_) fun _ => ?_
    · refine (buildAndOr_branches (R := R) built empty falls link cond).imp fun part o' branches => ?_
      obtain ⟨joint, thenBody, elseBody⟩ := branches
      exact .both (.joint other (fun _ => (Bool.and_eq_true_iff.1 chains).2) joint) thenBody elseBody
    · refine .bind_same (.lift (negate_opposite condition)) fun y opposite => ?_
      refine .bind built fun body o1 thenBody => .bind built fun elseBody o2 elseBody => .pure ?_
      have joint : Joint p s start y [] fall target := .none (.done link) (.first cond opposite)
      exact .both (.joint other nofun joint) thenBody elseBody
  · exact .throw _

end

end

lemma emitHead_opens (new : ¬ (!(p.node start).isExit && o.emitted.contains start)) :
    Yields s (emitHead p start indent) o (Opens p s start o) := by
  refine .ite (fun exit => .pure (.exit exit)) fun goesOn => .bind (.modify _) fun _ o' same => ?_
  subst same
  rw [Bool.not_eq_true] at goesOn
  refine emitNode_head.imp fun head o' ⟨head, same⟩ => ?_
  subst same
  exact .block goesOn (by simpa [goesOn] using new) head

lemma emitLeap_leap : Yields s (emitLeap p start indent) o (Leap p s start o) := by
  unfold emitLeap
  split
  case h_1 t link => exact emitJump_jump.imp fun _ _ jump => .next link jump
  case h_2 t f link =>
    refine .bind emitJump_jump fun body o1 jump => .bind_same conditionOf_yields fun c cond => ?_
    exact .pure (.branch link cond jump)
  case h_3 cases link =>
    refine emitDispatch_eq.imp fun jump o' ⟨⟨text, dispatch⟩, same⟩ => ?_
    subst same dispatch
    exact .select link
  case h_4 copy link =>
    refine emitReturn_return.imp fun code o' ⟨code, valued, same⟩ => ?_
    subst same
    exact .exit link code

lemma behindLeap_eq : Yields s (behindLeap p start) o fun next o' =>
    (next = start + 1 ∧ start + 1 < p.graph.nodes.size) ∧ o' = o := by
  refine .bind_same (.except _) fun next behind => ?_
  have : next = start + 1 ∧ start + 1 < p.graph.nodes.size := by
    unfold following at behind
    split at behind <;> cases behind
    exact ⟨rfl, by assumption⟩
  obtain ⟨rfl, lt⟩ := this
  split
  · exact .bind (.expect _ _) fun _ o' same => .pure ⟨⟨rfl, lt⟩, same⟩
  · exact .pure ⟨⟨rfl, lt⟩, rfl⟩

lemma buildFrom_derives (falls : p.graph.FallsOn)
    (built : ∀ {i e n o}, Yields s (between i e n) o (Derives p s i e o)) {stop} :
    Yields s (buildFrom p between start stop indent) o (Derives p s start stop o) := by
  refine .ite (fun h => ?_) fun away => .bind_same .get fun a same => ?_
  · rw [eq_of_beq h]
    exact .pure .stop
  subst same
  have away : stop ≠ some start := fun same => away (beq_iff_eq.2 same)
  refine .ite (fun h => ?_) fun new => .bind (emitHead_opens new) fun head o' opens => ?_
  · obtain ⟨goesOn, written⟩ := Bool.and_eq_true_iff.1 h
    refine .bind (.modify _) fun _ o' same => ?_
    subst same
    exact .pure (.again away (by simpa using goesOn) written)
  refine .ite (fun marked => ?_) fun unmarked => ?_
  · refine .bind emitLeap_leap fun jump o1 leap => .bind_same behindLeap_eq fun next ⟨behind, lt⟩ => ?_
    subst behind
    exact .bind built fun rest o3 derives => .pure (.leap away opens marked leap lt derives)
  rw [Bool.not_eq_true] at unmarked
  split
  case h_1 => exact .throw _
  case h_2 t link =>
    exact .bind built fun rest o1 derives => .pure (.next away opens link unmarked derives)
  case h_3 t f link =>
    refine .bind meetingNode_yields fun meet o1 ⟨searches, meets, same⟩ => ?_
    subst same
    refine .bind (buildBranch_branches built .stop falls) fun part o2 branches => ?_
    refine .bind built fun rest o3 derives => .pure ?_
    obtain ⟨condition, thenBody, elseBody⟩ := branches
    exact .branch away opens link unmarked meets condition thenBody elseBody derives
  case h_4 copy link =>
    refine .bind emitReturn_return fun code o1 ⟨code, valued, same⟩ => .pure ?_
    subst same
    cases opens with
    | exit => exact .exit away link unmarked code
    | block goesOn => simp [Node.isExit, link] at goesOn

/-- All code that is built can be derived. -/
lemma buildBetween_derives (falls : p.graph.FallsOn) {fuel stop} :
    Yields s (buildBetween p fuel start stop indent) o (Derives p s start stop o) := by
  induction fuel generalizing start stop indent o with
  | zero => exact .throw _
  | succ fuel ih => exact buildFrom_derives falls ih

end

/-- The code that goes on at a node behind that of the `i`-th one if all nodes are written in the order
of the graph. -/
inductive GoesOn (p : Plan) (s : Session) (i next : Nat) : Body → Prop where
  | behind :
    next = i + 1 →
    p.isCopy next = false →
    GoesOn p s i next []
  | jump {o o' jump} :
    Jump p s next o jump o' →
    GoesOn p s i next jump

inductive InOrder (p : Plan) (s : Session) (exit? : Option Nat) (i : Nat) : Body → Prop where
  | nothing :
    (p.node i).link = .exit copy →
    p.isCopy i ∨ exit? = some i →
    InOrder p s exit? i []
  | exit :
    (p.node i).link = .exit copy →
    p.isCopy i = false →
    exit? ≠ some i →
    Return p s i false code →
    InOrder p s exit? i code
  | next {t head jump} :
    (p.node i).link = .next t →
    Head p s i head →
    GoesOn p s i t jump →
    InOrder p s exit? i (head ++ jump)
  | select {cases head indent text} :
    (p.node i).link = .select cases →
    Head p s i head →
    InOrder p s exit? i (head ++ [.dispatch indent i text])
  | branch {t f head o o' jump indent c rest} :
    (p.node i).link = .branch t f →
    Head p s i head →
    Jump p s t o jump o' →
    (s.block i).condition = some c →
    GoesOn p s i f rest →
    InOrder p s exit? i (head ++ .branch indent c jump none :: rest)

lemma buildPlain_inOrder {p s i o exit?} :
    Yields s (buildPlain p exit? i) o fun body _ => InOrder p s exit? i body := by
  have goOn {next o} : Yields s
      (if next == i + 1 && decide (i + 1 < p.graph.nodes.size) && !p.isCopy next then return []
        else emitJump p p.options.debug next 1) o fun body _ => GoesOn p s i next body := by
    refine .ite (fun behind => .pure ?_) fun _ => emitJump_jump.imp fun _ _ => .jump
    simp only [Bool.and_eq_true, beq_iff_eq, Bool.not_eq_true'] at behind
    exact .behind behind.1.1 behind.2
  unfold buildPlain
  split
  case h_1 link =>
    refine .ite (fun h => ?_) fun h => .pure (.nothing link ?_)
    · simp only [Bool.and_eq_true, Bool.not_eq_true', bne_iff_ne] at h
      exact emitReturn_return.imp fun _ _ code => .exit link h.1 h.2 code.1
    · by_contra both
      exact h (by simpa using both)
  all_goals
    rename_i link
    refine .bind_same emitNode_head fun _ head => ?_
  · exact .bind goOn fun _ _ jump => .pure (.next link head jump)
  · refine .bind_same emitDispatch_eq ?_
    rintro _ ⟨text, rfl⟩
    exact .pure (.select link head)
  · refine .bind emitJump_jump fun _ _ jump => .bind_same conditionOf_yields fun c condition => ?_
    exact .bind goOn fun _ _ rest => .pure (.branch link head jump condition rest)

inductive Whole (p : Plan) (s : Session) (Q : Body → Outline → Prop) : Body → Outline → Prop where
  | none :
    p.graph.returnNode? = none →
    Q body o →
    Whole p s Q body o
  | last {body o exit code valued} :
    p.graph.returnNode? = some exit →
    Q body o →
    Return p s exit true code →
    Whole p s Q (body ++ code) { o with returnsValue := valued }

lemma withReturn_whole (h : Q body o) : Yields s (do
    match p.graph.returnNode? with
    | some exit => return body ++ (← emitReturn p p.options.debug exit 1 true)
    | none => return body) o (Whole p s Q) := by
  cases last : p.graph.returnNode? with
  | none => exact .pure (.none last h)
  | some exit =>
    refine .bind emitReturn_return ?_
    rintro _ _ ⟨code, -, rfl⟩
    exact .pure (.last last h code)

/-- What holds of derived code and of code in order holds of every body. -/
lemma buildBody_whole (falls : p.graph.FallsOn)
    (structured : p.options.structured → ∀ body o, Derives p s 0 p.graph.returnNode? {} body o →
      Q body o)
    (plain : p.options.structured = false → ∀ bodies o,
      Forall₂ (InOrder p s p.graph.returnNode?) (range p.graph.nodes.size) bodies →
      Q bodies.flatten o) :
    Yields s (buildBody p) {} (Whole p s Q) := by
  refine .ite (fun _ => .bind_same (.lift (.of_quiet printOut_noting)) fun _ _ => ?_) fun _ => ?_
  all_goals
    refine .ite (fun h => ?_) fun h => ?_
    · exact .bind (buildBetween_derives falls) fun _ _ code => withReturn_whole (structured h _ _ code)
    · refine .bind (.mapM fun _ _ => buildPlain_inOrder) fun _ _ code => ?_
      exact withReturn_whole (plain (Bool.not_eq_true _ ▸ h) _ _ code)

end Decompiler.Structure
