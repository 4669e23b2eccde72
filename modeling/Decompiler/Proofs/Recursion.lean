import Decompiler.Proofs.Coverage

/-!
# Building comes to an end

The code between two nodes is built from code between other nodes. Each time, a node has been
written that was not written before, or the code goes on behind a return at the next node.
-/

namespace Decompiler.Structure

open Code Eval Decompiler.Flow Infer Finset

def Outline.Kept (o o' : Outline) : Prop :=
  ∀ i, o.emitted.contains i → o'.emitted.contains i

lemma Outline.Kept.trans {o o1 o2 : Outline} (first : o.Kept o1) (second : o1.Kept o2) : o.Kept o2 :=
  fun i h => second i (first i h)

lemma Leap.kept (h : Leap p s i o body o') : o.Kept o' := by
  have jumps {t} {body} (h : Jump p s t o body o') : o.Kept o' := by
    cases h <;> exact fun _ => id
  cases h with
  | next _ jump | branch _ _ jump => exact jumps jump
  | select | exit => exact fun _ => id

def Alike {α : Type} (o : Outline) (x y : Build α) : Prop :=
  x o = y o

lemma Alike.refl {x : Build α} : Alike o x x :=
  rfl

lemma Alike.ite {x y x' y' : Build α} [Decidable c] (hx : c → Alike o x y)
    (hy : ¬ c → Alike o x' y') : Alike o (if c then x else x') (if c then y else y') := by
  split
  case isTrue h => exact hx h
  case isFalse h => exact hy h

lemma Alike.bind {x y : Build α} {f g : α → Build β} {Q : Session → α → Outline → Prop}
    (same : Alike o x y) (yields : ∀ s, Yields s x o (Q s))
    (rest : ∀ s a o', Q s a o' → Alike o' (f a) (g a)) : Alike o (x >>= f) (y >>= g) := by
  funext s
  change (x o >>= fun r => f r.1 r.2).run s = (y o >>= fun r => g r.1 r.2).run s
  rcases run : (x o).run s with ⟨e | ⟨a, o'⟩, s'⟩
  · rw [run_bind_of_error run, run_bind_of_error (same ▸ run)]
  · rw [run_bind_of_ok run, run_bind_of_ok (same ▸ run), (rest s a o' (yields s _ _ _ .refl run).2 :)]

section

variable {g : Graph} {o : Outline}

lemma followStep_alike
    (same : ∀ t next, (g.nodes.getD i default).link = .branch t next → next < g.nodes.size →
      ∀ tests, follow next tests = follow' next tests) (tests : List (Expr × Nat)) :
    followStep g bottom follow i tests = followStep g bottom follow' i tests := by
  unfold followStep
  split
  case h_1 t next link =>
    dsimp only
    split
    case h_1 target fall link' =>
      have inside : next < g.nodes.size := by
        by_contra outside
        rw [Array.getD_eq_getD_getElem?, Array.getElem?_eq_none (Nat.le_of_not_lt outside)] at link'
        cases link'
      simp only [same t next link inside]
    case h_2 => rfl
  case h_2 => rfl

lemma followStep_bounded (falls : g.FallsOn) (below below' : Nat → List (Expr × Nat) → Build Chain)
    (enough : g.nodes.size - i < n)
    (tests : List (Expr × Nat)) :
    (followStep g bottom)^[n] below i tests = (followStep g bottom)^[n] below' i tests := by
  induction n generalizing i tests with
  | zero => exact absurd enough (Nat.not_lt_zero _)
  | succ n ih =>
    rw [Function.iterate_succ_apply', Function.iterate_succ_apply']
    refine followStep_alike (fun t next link inside tests => ih ?_ tests) tests
    have := falls link
    omega

lemma followChain_eq (fuel : Nat) :
    followChain g bottom fuel = (followStep g bottom)^[fuel] fun _ _ => throw .endless := by
  induction fuel with
  | zero => rfl
  | succ fuel ih =>
    rw [Function.iterate_succ_apply', ← ih]
    rfl

lemma iterate_followStep (falls : g.FallsOn) (below : Nat → List (Expr × Nat) → Build Chain) :
    (followStep g bottom)^[g.nodes.size + 1] below = followChain g bottom (g.nodes.size + 1) := by
  rw [followChain_eq]
  funext i tests
  exact followStep_bounded falls below _ (Nat.lt_succ_of_le (Nat.sub_le _ _)) tests

end

section

variable {p : Plan} {o o' : Outline} {start : Nat}

def Plan.unwritten (p : Plan) (o : Outline) : Finset Nat :=
  (Finset.range p.graph.nodes.size).filter fun i => o.emitted.contains i = false

lemma Plan.unwritten_subset (kept : o.Kept o') : p.unwritten o' ⊆ p.unwritten o := by
  refine monotone_filter_right _ fun i _ new => ?_
  rw [Bool.eq_false_iff] at new ⊢
  exact fun old => new (kept i old)

def Plan.levels (p : Plan) (o : Outline) (start : Nat) : Nat :=
  (p.unwritten o).card * (p.graph.nodes.size + 1) +
    if start < p.graph.nodes.size then p.graph.nodes.size - start else p.graph.nodes.size + 1

lemma Plan.levels_lt (start : Nat) : p.levels o start < Nat.pow (p.graph.nodes.size + 2) 2 := by
  have card : (p.unwritten o).card ≤ p.graph.nodes.size := by
    exact (card_filter_le _ _).trans (card_range _).le
  have product := Nat.mul_le_mul_right (p.graph.nodes.size + 1) card
  have walk : (if start < p.graph.nodes.size then p.graph.nodes.size - start
      else p.graph.nodes.size + 1) ≤ p.graph.nodes.size + 1 := by split <;> omega
  calc p.levels o start
      ≤ p.graph.nodes.size * (p.graph.nodes.size + 1) + (p.graph.nodes.size + 1) :=
        add_le_add product walk
    _ < (p.graph.nodes.size + 2) ^ 2 := by
        rw [pow_two, add_mul _ 2, mul_add _ _ 2, mul_add _ _ 1]
        omega

lemma Plan.levels_next (kept : o.Kept o') (lt : start + 1 < p.graph.nodes.size) :
    p.levels o' (start + 1) < p.levels o start := by
  have card := Nat.mul_le_mul_right (p.graph.nodes.size + 1)
    (card_le_card (p.unwritten_subset kept))
  unfold levels
  rw [if_pos lt, if_pos (by omega)]
  omega

lemma Plan.levels_written (kept : o.Kept o') (new : o.emitted.contains start = false)
    (written : o'.emitted.contains start) (lt : start < p.graph.nodes.size) (i : Nat) :
    p.levels o' i < p.levels o start := by
  have fewer : (p.unwritten o').card < (p.unwritten o).card := by
    refine card_lt_card ⟨p.unwritten_subset kept, fun sub => ?_⟩
    have mem := sub (mem_filter.2 ⟨mem_range.2 lt, new⟩)
    rw [unwritten, mem_filter, written] at mem
    cases mem.2
  have product := Nat.mul_le_mul_right (p.graph.nodes.size + 1) (Nat.succ_le_of_lt fewer)
  rw [Nat.succ_mul] at product
  unfold levels
  split <;> omega

lemma Plan.levels_entry (kept : o.Kept o') (pos : 0 < p.graph.nodes.size)
    (outside : ¬ start < p.graph.nodes.size) : p.levels o' 0 < p.levels o start := by
  have card := Nat.mul_le_mul_right (p.graph.nodes.size + 1)
    (card_le_card (p.unwritten_subset kept))
  unfold levels
  rw [if_neg outside, if_pos pos]
  omega

end

section

variable {p : Plan} {o : Outline} {start stop indent : Nat}
  {between between' : Nat → Option Nat → Nat → Build Body}

section

variable (keeps : ∀ {i e n o} s, Yields s (between i e n) o fun _ o' => o.Kept o')

include keeps

lemma two_alike (same : ∀ i e n o', o.Kept o' → Alike o' (between i e n) (between' i e n))
    {f : Body → Body → Build Part} :
    Alike o (do f (← between i e indent) (← between j e indent))
      (do f (← between' i e indent) (← between' j e indent)) :=
  .bind (same _ _ _ _ fun _ => id) keeps fun _ _ _ kept =>
    .bind (same _ _ _ _ kept) keeps fun _ _ _ _ => .refl

lemma buildChain_alike (same : ∀ i e n o', o.Kept o' → Alike o' (between i e n) (between' i e n)) :
    Alike o (buildChain between chain stop indent) (buildChain between' chain stop indent) := by
  unfold buildChain
  split
  case h_1 => exact two_alike keeps same
  case h_2 =>
    split
    case h_1 => exact .bind (same _ _ _ _ fun _ => id) keeps fun _ _ _ _ => .refl
    case h_2 => exact two_alike keeps same

end

section

variable (falls : p.graph.FallsOn)

include falls

section

variable (keeps : ∀ {i e n o} s, Yields s (between i e n) o fun _ o' => o.Kept o')

include keeps

lemma buildBranch_alike (same : ∀ i e n o', o.Kept o' → Alike o' (between i e n) (between' i e n)) :
    Alike o (buildBranch p between start stop indent) (buildBranch p between' start stop indent) := by
  unfold buildBranch
  split
  case h_1 target fall link =>
    refine .bind .refl (fun _ => conditionOf_yields) fun _ condition o' ⟨_, here⟩ => ?_
    subst here
    refine .ite (fun _ => ?_) fun _ => .ite (fun _ => ?_) fun _ => ?_
    · exact .bind (same _ _ _ _ fun _ => id) keeps fun _ _ _ _ => .refl
    · refine .bind .refl (fun _ => followChain_yields falls ⟨fall, link⟩) fun _ chain o' ⟨_, here⟩ => ?_
      subst here
      exact buildChain_alike keeps same
    · refine .bind .refl (fun _ => .lift (negate_opposite condition)) fun _ _ o' ⟨_, here⟩ => ?_
      subst here
      exact two_alike keeps same
  case h_2 => exact .refl

lemma buildBranch_kept (s : Session) :
    Yields s (buildBranch p between start stop indent) o fun _ o' => o.Kept o' := by
  refine (buildBranch_branches (keeps s) (fun _ => id) falls).imp ?_
  rintro _ _ ⟨-, first, second⟩
  exact first.trans second

end

/-- What is built only depends on code with fewer levels left. -/
lemma buildFrom_alike (pos : 0 < p.graph.nodes.size) {stop}
    (keeps : ∀ {i e n o} s, Yields s (between i e n) o fun _ o' => o.Kept o')
    (same : ∀ i e n o', p.levels o' i < p.levels o start → Alike o' (between i e n) (between' i e n)) :
    Alike o (buildFrom p between start stop indent) (buildFrom p between' start stop indent) := by
  refine .ite (fun _ => .refl) fun _ => .bind .refl (fun _ => .get) ?_
  rintro _ a o' ⟨here, here'⟩
  rw [here, here']
  refine .ite (fun _ => .refl) fun new => ?_
  refine .bind .refl (fun _ => emitHead_opens new) fun _ head o1 opens => ?_
  -- When the node has been written, any code may follow.
  have written {o2} (goesOn : (p.node start).isExit = false) (kept : o1.Kept o2)
      (lt : start < p.graph.nodes.size) (i : Nat) : p.levels o2 i < p.levels o start := by
    cases opens with
    | exit exit => simp [goesOn] at exit
    | block _ new _ =>
      refine p.levels_written (fun j h => kept j ?_) new (kept start ?_) lt i
      · simp [h]
      · simp
  refine .ite (fun _ => ?_) fun _ => ?_
  · refine .bind .refl (fun _ => emitLeap_leap) fun _ jump o2 leap => ?_
    refine .bind .refl (fun _ => behindLeap_eq) ?_
    rintro _ _ _ ⟨⟨rfl, lt⟩, rfl⟩
    refine .bind (same _ _ _ _ ?_) keeps fun _ _ _ _ => .refl
    cases exit : (p.node start).isExit with
    | false => exact written exit leap.kept (by omega) _
    | true =>
      cases opens with
      | exit => exact p.levels_next leap.kept lt
      | block goesOn => simp [exit] at goesOn
  cases link : (p.node start).link with
  | select | exit => exact .refl
  | next target =>
    have goesOn : (p.node start).isExit = false := by rw [Node.isExit, link]
    refine .bind (same _ _ _ _ ?_) keeps fun _ _ _ _ => .refl
    by_cases lt : start < p.graph.nodes.size
    · exact written goesOn (fun _ => id) lt _
    · rw [Plan.node, Array.getD_eq_getD_getElem?, Array.getElem?_eq_none (Nat.le_of_not_lt lt)] at link
      cases link
      cases opens with
      | exit exit => simp [goesOn] at exit
      | block => exact p.levels_entry (fun _ h => by simp [h]) pos lt
  | branch target fall =>
    have goesOn : (p.node start).isExit = false := by rw [Node.isExit, link]
    have lt := (getElem?_eq_some_iff.1 (p.exists_branch link)).1
    refine .bind .refl (fun _ => meetingNode_yields) ?_
    rintro _ meet _ ⟨searches, -, rfl⟩
    refine .bind (buildBranch_alike falls keeps fun i e n o' kept => ?_) (buildBranch_kept falls keeps)
      fun _ part o3 kept => ?_
    · exact same _ _ _ _ (written goesOn kept lt i)
    · exact .bind (same _ _ _ _ (written goesOn kept lt _)) keeps fun _ _ _ _ => .refl

end

def Plan.bounded (p : Plan) (e : Failure) (n : Nat) : Nat → Option Nat → Nat → Build Body :=
  (buildFrom p)^[n] fun _ _ _ => throw e

lemma bounded_alike (falls : p.graph.FallsOn) (pos : 0 < p.graph.nodes.size) {e e' n n' stop}
    (enough : p.levels o start < n)
    (enough' : p.levels o start < n') :
    Alike o (p.bounded e n start stop indent) (p.bounded e' n' start stop indent) := by
  have derives {e} {n} {s} {i} {stop} {indent}
      {o} : Yields s (p.bounded e n i stop indent) o (Derives p s i stop o) := by
    induction n generalizing i stop indent o with
    | zero => exact .throw e
    | succ n ih =>
      rw [Plan.bounded, Function.iterate_succ_apply']
      exact buildFrom_derives falls ih
  induction n generalizing n' start stop indent o with
  | zero => exact absurd enough (Nat.not_lt_zero _)
  | succ n ih =>
    obtain ⟨n', rfl⟩ := Nat.exists_eq_succ_of_ne_zero (ne_zero_of_lt enough')
    rw [Plan.bounded, Plan.bounded, Function.iterate_succ_apply', Function.iterate_succ_apply']
    refine buildFrom_alike falls pos (fun s => derives.imp fun _ _ derives => ?_)
      fun i e n o' fewer => ih (by omega) (by omega)
    obtain ⟨ns, lays, -⟩ := derives.covers falls
    exact lays.emitted

/-- More fuel than there are levels changes nothing. -/
lemma bounded_eq (falls : p.graph.FallsOn) (pos : 0 < p.graph.nodes.size) (e : Failure)
    (enough : Nat.pow (p.graph.nodes.size + 2) 2 ≤ n) :
    p.bounded e n = buildBetween p (Nat.pow (p.graph.nodes.size + 2) 2) := by
  have whole (fuel) : buildBetween p fuel = p.bounded .endless fuel := by
    induction fuel with
    | zero => rfl
    | succ fuel ih =>
      rw [Plan.bounded, Function.iterate_succ_apply', ← Plan.bounded, ← ih]
      rfl
  rw [whole]
  funext start stop indent o
  exact bounded_alike falls pos ((p.levels_lt start).trans_le enough) (p.levels_lt start)

end

end Decompiler.Structure
