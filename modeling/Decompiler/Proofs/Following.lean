import Decompiler.Proofs.Derivation
import Decompiler.Proofs.Execution

/-!
# Code that follows a flow graph

Code enters a node if it jumps to it or holds its block, and what stands behind the block goes on
at the nodes that the link of the node goes to. A body all of whose labels stand in front of such
code visits the nodes that a walk visits.
-/

namespace Decompiler.Structure

open Code Eval Decompiler.Flow Decompiler.Run Body Labels List Option

mutual

inductive Enters (negates : Prop) (g : Graph) (s : Session) : Body → Nat → Prop where
  | goto {n t code} :
    Enters negates g s (.goto n t :: code) t
  | here {code i} :
    Shows negates g s code i →
    Enters negates g s code i

inductive Shows (negates : Prop) (g : Graph) (s : Session) : Body → Nat → Prop where
  | block {indent i statements header code n} :
    g.nodes[i]? = some n →
    Leaves negates g s i code n.link →
    Shows negates g s (.block indent i statements header :: code) i
  | label {outer indent i statements header code n} :
    g.nodes[i]? = some n →
    Leaves negates g s i code n.link →
    Shows negates g s (.label outer i :: .block indent i statements header :: code) i

/-- Code behind the block of a node with the given link. -/
inductive Leaves (negates : Prop) (g : Graph) (s : Session) : Nat → Body → Link → Prop where
  | next {i code t} :
    Enters negates g s code t →
    Leaves negates g s i code (.next t)
  | branch {i indent c thenBody elseBody code t f} :
    (s.block i).condition = some c →
    Enters negates g s (thenBody ++ code) t →
    Enters negates g s (elseBody.getD [] ++ code) f →
    Leaves negates g s i (.branch indent c thenBody elseBody :: code) (.branch t f)
  | opposite {i indent c y s1 s2 thenBody elseBody code t f} :
    negates →
    (s.block i).condition = some c →
    (negate c).run s1 = (.ok y, s2) →
    Enters negates g s (thenBody ++ code) f →
    Enters negates g s (elseBody.getD [] ++ code) t →
    Leaves negates g s i (.branch indent y thenBody elseBody :: code) (.branch t f)
  | exit {i indent j value code copy} :
    Leaves negates g s i (.exit indent j value :: code) (.exit copy)
  | last {i copy} :
    Leaves negates g s i [] (.exit copy)
  | dispatch {i indent text code cases} :
    Leaves negates g s i (.dispatch indent i text :: code) (.select cases)

end

def Resolved (negates : Prop) (g : Graph) (s : Session) (body rest : Body) : Prop :=
  ∀ t code, Body.behind? t rest body = some code → Shows negates g s code t

structure Sound (negates : Prop) (g : Graph) (s : Session) (body : Body) : Prop where
  resolved : Resolved negates g s body []
  gotos : ∀ {indent t}, Within (.goto indent t) body → ∃ n, Within (.label n t) body
  cases : ∀ {indent i text} {n : Node} {cases}, Within (.dispatch indent i text) body →
    g.nodes[i]? = some n → n.link = .select cases → ∀ t ∈ cases, ∃ n, Within (.label n t) body

inductive Follows (negates : Prop) {g : Graph} (s : Session) (o : Answers g) (body : Body)
    (labels : Labels) : Spot → Place → Prop where
  | front {k i j code} :
    Enters negates g s code i →
    (∀ part, Within part code → Within part body) →
    Follows negates s o body labels (.front k i) ⟨k, j, code⟩
  | ended {r place} :
    execute body labels o place = .stop r →
    Follows negates s o body labels (.over r) place

section

variable {negates : Prop} {g : Graph} {s : Session} {o : Answers g} {body code : Body}
  {labels : Labels} {k i j t : Nat}

lemma select_ne_nil {n cases} (h : ofGraph g = .ok labels) (found : g.nodes[i]? = some n)
    (link : n.link = .select cases) : cases ≠ [] := by
  obtain ⟨_, _, rfl, -, -, -, nonempty⟩ := ofGraph_adds h
  exact nonempty _ (mem_selections found link)

lemma Sound.jumps (sound : Sound negates g s body) (label : Within (.label n t) body) :
    ∃ code, jumpTo body k i t = .goOn [] ⟨k, i, code⟩ ∧ Shows negates g s code t ∧
      ∀ part, Within part code → Within part body := by
  obtain ⟨code, found⟩ := isSome_iff_exists.1 (behind?_isSome label [])
  refine ⟨code, by rw [jumpTo, found], sound.resolved t code found, fun part within => ?_⟩
  have := behind?_within body [] found within
  rwa [append_nil] at this

lemma within_thenBody (h : Within part (thenBody ++ code)) :
    Within part (.branch indent c thenBody elseBody :: code) := by
  rw [← singleton_append, within_append, within_branch, within_append]
  rcases within_append.1 h with h | h
  · exact .inl (.inr (.inl h))
  · exact .inr h

lemma within_elseBody (h : Within part (elseBody.getD [] ++ code)) :
    Within part (.branch indent c thenBody elseBody :: code) := by
  rw [← singleton_append, within_append, within_branch, within_append]
  rcases within_append.1 h with h | h
  · exact .inl (.inr (.inr h))
  · exact .inr h

lemma execute_branch : execute body labels o ⟨k, i, .branch indent c thenBody elseBody :: code⟩ =
    match o.holds k i c with
    | some true => .goOn [] ⟨k, i, thenBody ++ code⟩
    | some false => .goOn [] ⟨k, i, elseBody.getD [] ++ code⟩
    | none => .stop .undecided :=
  rfl

lemma reaches_branch (taken : Enters negates g s (thenBody ++ code) t)
    (passed : Enters negates g s (elseBody.getD [] ++ code) f)
    (sub : ∀ part, Within part (.branch indent c thenBody elseBody :: code) → Within part body) :
    ∃ m place, Reaches (execute body labels o) m
        ⟨k, i, .branch indent c thenBody elseBody :: code⟩ [] place ∧
      Follows negates s o body labels (.pick k t f (o.holds k i c)) place := by
  have step : execute body labels o ⟨k, i, .branch indent c thenBody elseBody :: code⟩ =
      _ := execute_branch
  cases outcome : o.holds k i c with
  | none =>
    rw [outcome] at step
    exact ⟨0, _, .refl, .ended step⟩
  | some b =>
    rw [outcome] at step
    cases b with
    | true => exact ⟨1, _, .single step, .front taken fun part h => sub part (within_thenBody h)⟩
    | false => exact ⟨1, _, .single step, .front passed fun part h => sub part (within_elseBody h)⟩

/-- Code that leaves a node goes on where the walk does. -/
lemma Leaves.reaches (h : Leaves negates g s i code link) (found : g.nodes[i]? = some n)
    (link_eq : n.link = link) (sound : Sound negates g s body) (labelled : ofGraph g = .ok labels)
    (sub : ∀ part, Within part code → Within part body) (opposed : negates → o.Opposed) :
    ∃ m place, Reaches (execute body labels o) m ⟨k, i, code⟩ [] place ∧
      Follows negates s o body labels (goOn g s o k i link) place := by
  cases h with
  | next enters => exact ⟨0, _, .refl, .front enters sub⟩
  | branch condition taken passed =>
    rw [goOn, condition]
    exact reaches_branch taken passed sub
  | opposite may condition negated taken passed =>
    rw [goOn, condition, bind_some, ← Spot.pick_not, ← opposed may negated]
    exact reaches_branch taken passed sub
  | exit | last => exact ⟨0, _, .refl, .ended rfl⟩
  | @dispatch _ indent text rest cases =>
    have lt := o.inside (k := k) found link_eq (select_ne_nil labelled found link_eq)
    have selected := selected?_eq labelled found link_eq lt
    have target : cases[o.selected k i]? = some cases[o.selected k i] := getElem?_eq_getElem lt
    obtain ⟨n, label⟩ := sound.cases (sub _ (.here mem_cons_self)) found link_eq _
      (getElem_mem lt)
    obtain ⟨code, jump, shows, sub'⟩ := sound.jumps (k := k) (i := i) label
    have step : execute body labels o ⟨k, i, .dispatch indent i text :: rest⟩ =
        .goOn [] ⟨k, i, code⟩ := by
      simp only [execute, selected, target, jump]
    refine ⟨1, _, .single step, ?_⟩
    rw [goOn, target]
    exact .front (.here shows) sub'

lemma Shows.answered (h : Shows negates g s code i) (sound : Sound negates g s body)
    (labelled : ofGraph g = .ok labels) (opposed : negates → o.Opposed)
    (sub : ∀ part, Within part code → Within part body) :
    Answered (execute body labels o) (Follows negates s o body labels) ⟨k, j, code⟩
      (walk g s o (.front k i)) := by
  have visit {indent : Nat} {statements : List Stmt} {header : Bool} {code : Body} {n : Node}
      (found : g.nodes[i]? = some n) (leaves : Leaves negates g s i code n.link)
      (sub : ∀ part, Within part code → Within part body) :
      Answered (execute body labels o) (Follows negates s o body labels)
        ⟨k, j, .block indent i statements header :: code⟩ (walk g s o (.front k i)) := by
    obtain ⟨m, place, along, follows⟩ := leaves.reaches found rfl sound labelled sub opposed
    have step : execute body labels o ⟨k, j, .block indent i statements header :: code⟩ =
        .goOn [i] ⟨k + 1, i, code⟩ := rfl
    rw [walk, found]
    exact ⟨m, place, .step step along, follows⟩
  cases h with
  | block found leaves =>
    exact visit found leaves fun part h => sub part (h.mono (subset_cons_self _ _))
  | label found leaves =>
    refine .silent rfl (visit found leaves fun part h => sub part (h.mono ?_))
    exact Subset.trans (subset_cons_self _ _) (subset_cons_self _ _)

/-- Each step of the walk is followed by steps of the code. -/
lemma Sound.simulates (sound : Sound negates g s body) (labelled : ofGraph g = .ok labels)
    (opposed : negates → o.Opposed) :
    Simulates (walk g s o) (execute body labels o) (Follows negates s o body labels) := by
  intro spot place follows
  cases follows with
  | ended stops => exact .stop stops
  | front enters sub =>
    cases enters with
    | here shows => exact shows.answered sound labelled opposed sub
    | goto =>
      obtain ⟨n, label⟩ := sound.gotos (sub _ (.here mem_cons_self))
      obtain ⟨code, jump, shows, sub'⟩ := sound.jumps label
      exact .silent jump (shows.answered sound labelled opposed sub')

/-- The walk and the code visit the same nodes. -/
lemma Sound.sameRuns (sound : Sound negates g s body) (labelled : ofGraph g = .ok labels)
    (enters : Enters negates g s body 0) (opposed : negates → o.Opposed) :
    SameRuns (walk g s o) (.front 0 0) (execute body labels o) ⟨0, 0, body⟩ :=
  Simulates.sameRuns (sound.simulates labelled opposed) (.front enters fun _ => id)

end

def Begins (negates : Prop) (g : Graph) (s : Session) (P : Body → Prop) (body : Body) (i : Nat) :
    Prop :=
  ∀ rest, P rest → Enters negates g s (body ++ rest) i ∧ Resolved negates g s body rest

section

variable {negates : Prop} {g : Graph} {s : Session} {code : Body}

namespace Resolved

lemma nil : Resolved negates g s [] rest := by
  intro t code h
  cases h

lemma append (ha : Resolved negates g s a (b ++ rest)) (hb : Resolved negates g s b rest) :
    Resolved negates g s (a ++ b) rest := by
  intro t code h
  rw [behind?_append] at h
  rcases or_eq_some_iff.1 h with h | ⟨-, h⟩
  · exact ha _ _ h
  · exact hb _ _ h

lemma plain (none : ∀ t rest, part.behind? t rest = none) : Resolved negates g s [part] rest := by
  intro t code h
  rw [behind?, none] at h
  cases h

lemma branch (ha : Resolved negates g s a rest) (hb : Resolved negates g s (elseBody.getD []) rest) :
    Resolved negates g s [.branch indent c a elseBody] rest := by
  intro t code h
  rcases or_eq_some_iff.1 h with h | ⟨-, h⟩
  · rcases or_eq_some_iff.1 h with h | ⟨-, h⟩
    · exact ha _ _ h
    · cases elseBody with
      | none => cases h
      | some b => exact hb _ _ h
  · cases h

end Resolved

namespace Begins

lemma append (ha : Begins negates g s P a i)
    (hb : ∀ rest, Q rest → P (b ++ rest) ∧ Resolved negates g s b rest) :
    Begins negates g s Q (a ++ b) i := by
  intro rest h
  obtain ⟨behind, resolved⟩ := hb rest h
  obtain ⟨enters, resolved'⟩ := ha _ behind
  exact ⟨by rwa [append_assoc], resolved'.append resolved⟩

lemma goto : Begins negates g s P [.goto indent i] i :=
  fun _ _ => ⟨.goto, .plain fun _ _ => rfl⟩

lemma imp (h : Begins negates g s P body i) (weaker : ∀ rest, Q rest → P rest) :
    Begins negates g s Q body i :=
  fun rest hQ => h rest (weaker rest hQ)

end Begins

end

section

variable {negates : Prop} {p : Plan} {s : Session} {n : Node}

lemma Head.begins (h : Head p s i body) (found : p.graph.nodes[i]? = some n) :
    Begins negates p.graph s (fun rest => Leaves negates p.graph s i rest n.link) body i := by
  intro rest leaves
  cases h with
  | copy => exact ⟨.here (.block found leaves), .plain fun _ _ => rfl⟩
  | @labelled outer indent statements header =>
    refine ⟨.here (.label found leaves), fun t code h => ?_⟩
    have label : behind? t rest [.label outer i, .block indent i statements header] =
        if i == t then some (.label outer i :: .block indent i statements header :: rest)
        else none := by
      simp only [behind?, Part.behind?, or_none]
      rfl
    rw [label] at h
    obtain ⟨same, eq⟩ := ite_none_right_eq_some.1 h
    cases eq
    exact eq_of_beq same ▸ .label found leaves

lemma Return.begins (h : Return p s i isLast body) (found : p.graph.nodes[i]? = some n)
    (link : n.link = .exit copy) :
    Begins negates p.graph s (fun rest => isLast → rest = []) body i := by
  have begins {head} (h : Head p s i head) :
      Begins negates p.graph s (fun rest => Leaves negates p.graph s i rest (.exit copy)) head i :=
    link ▸ h.begins found
  cases h with
  | exit head => exact (begins head).append fun rest _ => ⟨.exit, .plain fun _ _ => rfl⟩
  | last last head => exact (begins head).imp fun rest h => h last ▸ .last

lemma Plan.exit_of_isCopy (found : p.graph.nodes[i]? = some n) (copy : p.isCopy i) :
    ∃ k, n.link = .exit k := by
  rw [isCopy, node, Array.getD_eq_getD_getElem?, found] at copy
  split at copy
  case h_1 link => exact ⟨_, link⟩
  case h_2 => cases copy

lemma Jump.begins (h : Jump p s i o body o') (found : p.graph.nodes[i]? = some n) :
    Begins negates p.graph s (fun _ => True) body i := by
  cases h with
  | goto => exact .goto
  | copy copy code =>
    obtain ⟨k, link⟩ := p.exit_of_isCopy found copy
    exact (code.begins found link).imp fun _ _ => nofun

end

end Decompiler.Structure
