import Decompiler.Proofs.Coverage

/-!
# Conditions with short-circuiting operators

A chain of branches to one node is written as one condition. When it is evaluated, it runs the
statements of the nodes that the flow graph comes to, up to the node that the code goes on at.

Main statement: `buildAndOr_faithful`.
-/

namespace Decompiler.Structure

open Code Eval Decompiler.Flow Infer List

structure Machine (σ : Type) where
  exec : Stmt → σ → σ
  test : Expr → σ → Option (Bool × σ)
  /-- The opposite of a condition turns out the other way; so there is no outcome of an error. -/
  opposite : ∀ {x y s s'}, (negate x).run s = (.ok y, s') →
    ∀ m, test y m = (test x m).map fun r => (!r.1, r.2)

namespace Machine

variable {σ : Type} (v : Machine σ)

def run (statements : List Stmt) (m : σ) : σ :=
  statements.foldl (fun m stmt => v.exec stmt m) m

def judge : Expr → σ → Option (Bool × σ)
  | .binary left .and right _ _, m =>
    (judge left m).bind fun r => if r.1 then judge right r.2 else some r
  | .binary left .or right _ _, m =>
    (judge left m).bind fun r => if r.1 then some r else judge right r.2
  | .unary .not operand _, m => (judge operand m).map fun r => (!r.1, r.2)
  | .comma statements condition, m => judge condition (v.run statements m)
  | e, m => v.test e m

def anyOf : List Expr → σ → Option (Bool × σ)
  | [], m => some (false, m)
  | x :: xs, m => (v.judge x m).bind fun r => if r.1 then some r else anyOf xs r.2

variable {v} {m : σ} {x : Expr}

lemma judge_comparison (h : op.isComparison) (l r : Expr) (type : TypeId) (floating : Bool) :
    v.judge (.binary l op r type floating) m =
      v.test (.binary l op r type floating) m := by
  cases op with
  | eq | ne | lt | le | gt | ge => rfl
  | _ => cases h

/-- A negated condition has the opposite outcome after the same statements. -/
lemma judge_opposite (h : Opposite x y) : v.judge y m = (v.judge x m).map fun r => (!r.1, r.2) := by
  obtain ⟨s, s', run⟩ := h
  have tested := v.opposite run
  have typed {f : TypeId → Expr} {y} {s s'}
      (run : (do return f (← freshType .truth) : Evaluation Expr).run s = (.ok y, s')) :
      ∃ type, y = f type := by
    obtain ⟨type, s1, -, run⟩ := run_bind_ok run
    cases run
    exact ⟨type, rfl⟩
  fun_induction negate x generalizing s s' y m with
  | case1 =>
    cases run
    exact tested m
  | case3 l op r type floating h =>
    simp only [Bool.or_eq_true, Bool.not_eq_true', not_or, Bool.not_eq_false] at h
    obtain ⟨type', rfl⟩ := typed run
    rw [judge_comparison h.1, judge_comparison (by cases op <;> first | rfl | cases h.1)]
    exact tested m
  | case4 | case5 =>
    cases run
    rw [judge]
    simp [Function.comp_def]
  | case8 =>
    cases run
    exact tested m
  | case9 _ _ ih =>
    obtain ⟨y', s1, run', run⟩ := run_bind_ok run
    cases run
    exact ih _ _ run' (v.opposite run')
  | case2 | case6 | case7 | case10 =>
    obtain ⟨type', rfl⟩ := typed run
    rfl

lemma anyOf_append (xs ys : List Expr) : v.anyOf (xs ++ ys) m =
    (v.anyOf xs m).bind fun r => if r.1 then some r else v.anyOf ys r.2 := by
  induction xs generalizing m with
  | nil => rfl
  | cons x xs ih =>
    rw [cons_append, anyOf, anyOf, Option.bind_assoc]
    congr 1
    funext r
    split <;> simp_all

lemma anyOf_singleton : v.anyOf [x] m = v.judge x m := by
  simp only [anyOf]
  cases v.judge x m with
  | none => rfl
  | some r => obtain ⟨_ | _, m⟩ := r <;> rfl

end Machine

section

variable {σ : Type} {v : Machine σ} {s : Session} {first : Nat} {c x : Expr} {m : σ}
  {tests : List (Expr × Nat)}

lemma Joined.judge_or (h : Joined s first Eq .or c tests)
    (condition : (s.block first).condition = some x) :
    v.judge c m = v.anyOf (x :: tests.map Prod.fst) m := by
  induction h generalizing m with
  | first condition' same =>
    cases condition.symm.trans condition'
    rw [← same, map_nil, Machine.anyOf_singleton]
  | next _ _ same ih =>
    subst same
    rw [map_append, ← cons_append, Machine.anyOf_append, Machine.judge, ih]
    simp only [map_cons, map_nil, Machine.anyOf_singleton]

lemma Joined.judge_and (h : Joined s first Opposite .and c tests)
    (condition : (s.block first).condition = some x) :
    v.judge c m = (v.anyOf (x :: tests.map Prod.fst) m).map fun r => (!r.1, r.2) := by
  induction h generalizing m with
  | first condition' opposite =>
    cases condition.symm.trans condition'
    rw [map_nil, Machine.anyOf_singleton, Machine.judge_opposite opposite]
  | next _ _ opposite ih =>
    rw [map_append, ← cons_append, Machine.anyOf_append, Machine.judge, ih]
    simp only [map_cons, map_nil, Machine.anyOf_singleton, Machine.judge_opposite opposite]
    cases v.anyOf _ m with
    | none => rfl
    | some r => obtain ⟨_ | _, m⟩ := r <;> rfl

end

section

variable {σ : Type} (v : Machine σ) (p : Plan) (s : Session)

def leave (i : Nat) (m : σ) : Option (Nat × σ) :=
  match (p.node i).link, (s.block i).condition with
  | .branch t f, some c => (v.judge c m).map fun r => (if r.1 then t else f, r.2)
  | _, _ => none

def follow : List Nat → Nat × σ → Option (Nat × σ)
  | [], r => some r
  | k :: ks, r =>
    if r.1 = k then
      match s.shown k with
      | .ok statements => (leave v p s k (v.run statements r.2)).bind (follow ks)
      | .error _ => none
    else some r

variable {v p s} {i bottom next : Nat} {m : σ} {x c : Expr} {ks : List Nat}
  {tests : List (Expr × Nat)}

lemma leave_eq (link : (p.node i).link = .branch t f) (condition : (s.block i).condition = some c) :
    leave v p s i m = (v.judge c m).map fun r => (if r.1 then t else f, r.2) := by
  rw [leave, link, condition]

lemma follow_of_not_mem (h : i ∉ ks) : follow v p s ks (i, m) = some (i, m) := by
  cases ks with
  | nil => rfl
  | cons k ks => exact if_neg (ne_of_not_mem_cons h)

lemma Tests.judge (h : Tests s i x) : ∃ c statements, (s.block i).condition = some c ∧
    s.shown i = .ok statements ∧ ∀ m, v.judge x m = v.judge c (v.run statements m) := by
  obtain ⟨c, statements, condition, shown, rfl⟩ := h
  refine ⟨c, statements, condition, shown, fun m => ?_⟩
  cases statements with
  | nil | cons => rfl

/-- The graph is left at the first test that holds, as the condition says. -/
lemma Chained.follow (h : Chained p s bottom i tests next)
    (condition : (s.block i).condition = some c) (out : bottom ∉ tests.map Prod.snd ++ ks) :
    (leave v p s i m).bind (follow v p s (tests.map Prod.snd ++ ks)) =
      (v.anyOf (c :: tests.map Prod.fst) m).bind fun r =>
        if r.1 then some (bottom, r.2) else follow v p s ks (next, r.2) := by
  induction h generalizing m c with
  | done link =>
    rw [leave_eq link condition, map_nil, map_nil, Machine.anyOf_singleton, Option.bind_map]
    congr 1
    funext r
    obtain ⟨_ | _, m⟩ := r
    · rfl
    · exact follow_of_not_mem out
  | @more i j x tests next link test _ _ ih =>
    obtain ⟨c', statements, condition', shown, judge⟩ := test.judge (v := v)
    rw [map_cons, cons_append, mem_cons, not_or] at out
    rw [leave_eq link condition, Machine.anyOf, Option.bind_map, Option.bind_assoc]
    congr 1
    funext r
    obtain ⟨_ | _, m⟩ := r
    · have tests : v.anyOf (x :: tests.map Prod.fst) m =
          v.anyOf (c' :: tests.map Prod.fst) (v.run statements m) := by
        simp only [Machine.anyOf, judge]
      simp [follow, shown, ih condition' out.2, tests]
    · simp [follow, out.1]

/-- A joint condition goes where the graph goes. -/
lemma Joint.judge (wf : p.graph.WellFormed) (h : Joint p s i c nodes k j) :
    (v.judge c m).map (fun r => (if r.1 then k else j, r.2)) =
      (leave v p s i m).bind (follow v p s nodes) := by
  have inner := h.inner
  have outside {bottom f} (link : (p.node i).link = .branch bottom f) : bottom ∉ nodes :=
    fun mem => p.target_not_inner wf link (inner bottom mem)
  cases h with
  | none chained joined =>
    obtain ⟨⟨f, link, -⟩, -⟩ := chained.goes
    obtain ⟨c', condition⟩ := joined.condition
    rw [← append_nil (map _ _)] at outside ⊢
    rw [chained.follow condition (outside link), joined.judge_and condition]
    cases v.anyOf _ m with
    | none => rfl
    | some r => obtain ⟨_ | _, m⟩ := r <;> rfl
  | @some bottom next other tests left x y type chained joined closes opposite =>
    obtain ⟨⟨f, link, -⟩, -⟩ := chained.goes
    obtain ⟨c', condition⟩ := joined.condition
    obtain ⟨test, -, link'⟩ := closes
    obtain ⟨c'', statements, condition', shown, judge⟩ := test.judge (v := v)
    rw [chained.follow condition (outside link), Machine.judge, joined.judge_or condition]
    cases v.anyOf _ m with
    | none => rfl
    | some r =>
      obtain ⟨_ | _, m⟩ := r
      · simp only [Option.bind_some, Bool.false_eq_true, if_false, follow, if_true, shown,
          leave_eq link' condition', Machine.judge_opposite opposite, judge]
        cases v.judge c'' _ with
        | none => rfl
        | some r => obtain ⟨_ | _, m⟩ := r <;> rfl
      · rfl

end

inductive Starts (p : Plan) (s : Session) (stop i : Nat) : Body → Prop where
  | behind :
    i = stop →
    Starts p s stop i []
  | goto :
    Starts p s stop i (.goto indent i :: rest)
  | here {head rest} :
    Head p s i head →
    Starts p s stop i (head ++ rest)

lemma Derives.starts {p s i stop o o' body} (h : Derives p s i (some stop) o body o') :
    Starts p s stop i body := by
  have returns {code rest} (h : Return p s i false code) : Starts p s stop i (code ++ rest) := by
    cases h with
    | exit head => exact append_assoc _ _ rest ▸ .here head
    | last last => cases last
  have block {head rest} {o1} (opens : Opens p s i o head o1)
      (goesOn : (p.node i).isExit = false) : Starts p s stop i (head ++ rest) := by
    cases opens with
    | exit exit => simp [goesOn] at exit
    | block _ _ head => exact .here head
  cases h with
  | stop => exact .behind rfl
  | again => exact .goto
  | exit _ _ _ code => exact append_nil body ▸ returns code
  | next _ opens link | branch _ opens link => exact block opens (by rw [Node.isExit, link])
  | leap _ opens _ leap =>
    rw [append_assoc]
    cases leap with
    | next link | branch link | select link => exact block opens (by rw [Node.isExit, link])
    | exit link code =>
      cases opens with
      | block goesOn => simp [Node.isExit, link] at goesOn
      | exit => exact nil_append _ ▸ returns code

variable {p : Plan} {s s' : Session} {o o' : Outline} {start target fall stop indent fuel : Nat}
  {condition : Expr} {part : Part}

/-- A condition that is joined from a chain of branches is evaluated like the chain: it runs the
statements of the nodes that the flow graph comes to behind the first branch, and then the code goes
on at the node that the flow graph reaches. -/
theorem buildAndOr_faithful (wf : p.graph.WellFormed)
    (link : (p.node start).link = .branch target fall)
    (cond : (s.block start).condition = some condition)
    (run : ((buildAndOr p (buildBetween p fuel) condition start target stop indent).run o).run s =
      (.ok (part, o'), s')) :
    ∃ n c body elseBody nodes i j, part = .branch n c body elseBody ∧ Joins s start c nodes ∧
      Starts p s stop i body ∧ Starts p s stop j (elseBody.getD []) ∧
      ∀ {σ : Type} (v : Machine σ) (m : σ),
        (v.judge c m).map (fun r => (if r.1 then i else j, r.2)) =
          (leave v p s start m).bind (follow v p s nodes) := by
  obtain ⟨-, branches⟩ := buildAndOr_branches (R := Derives p s) (buildBetween_derives (p.behind_branch wf))
    .stop (p.behind_branch wf) link cond _ _ _ .refl run
  obtain ⟨joint, thenBody, elseBody⟩ := branches
  exact ⟨_, _, _, _, _, _, _, rfl, joint.joins, thenBody.starts, elseBody.starts, fun v m => joint.judge wf⟩

def tracing (holds : Nat → Bool) : Machine (Nat × List Stmt) where
  exec stmt m := (m.1, m.2 ++ [stmt])
  test x m := (sign? x).map fun positive => (positive == holds m.1, m.1 + 1, m.2)
  opposite {x y s s'} run m := by
    rw [(sign?_negate x y s' run :)]
    cases sign? x with
    | none => rfl
    | some b => cases b <;> cases holds m.1 <;> rfl

def busyGuards : Session :=
  { rodata := {}
    blocks := #[{ (default : BlockResult) with condition := some (.symbol "a" 0) },
      { (default : BlockResult) with
        condition := some (.symbol "b" 0)
        statements := [.run (.symbol "c" 0)] }] }

/-- The condition that was written holds, and one statement is run to judge it. -/
def judgesOnce : Except Failure (Part × Outline) × Session → Bool
  | (.ok (.branch _ c _ _, _), _) =>
    ((tracing fun _ => false).judge c (0, [])).any fun r => r.1 && r.2.2.length == 1
  | _ => false

/-- Neither test holds, and the statement is run in between. -/
theorem buildAndOr_faithful_guardedStore :
    ∃ p n c body elseBody nodes i j m o' s', p.graph.WellFormed ∧
      ((buildAndOr p (buildBetween p 9) (.symbol "a" 0) 0 3 2 1).run {}).run busyGuards =
        (.ok (.branch n c body elseBody, o'), s') ∧
      Joins busyGuards 0 c nodes ∧ Starts p busyGuards 2 i body ∧
      Starts p busyGuards 2 j (elseBody.getD []) ∧
      (tracing fun _ => false).judge c (0, []) = some (true, m) ∧ m.2.length = 1 ∧
      (leave (tracing fun _ => false) p busyGuards 0 (0, [])).bind
        (follow (tracing fun _ => false) p busyGuards nodes) = some (i, m) := by
  have checked : Graph.makes {} guardedStore fun g =>
      (g.nodes.getD 0 default).link == .branch 3 1 &&
      judgesOnce (((buildAndOr ⟨{ file := "" }, g⟩ (buildBetween ⟨{ file := "" }, g⟩ 9)
        (.symbol "a" 0) 0 3 2 1).run {}).run busyGuards) := by cbv
  obtain ⟨g, console, built, checked⟩ := Graph.exists_of_makes checked
  have wf := Graph.wellFormed_ofBody built
  obtain ⟨link, checked⟩ := Bool.and_eq_true_iff.1 checked
  unfold judgesOnce at checked
  split at checked
  case h_2 => cases checked
  case h_1 n c body elseBody o' s' run =>
    obtain ⟨⟨holds, m⟩, judged, checked⟩ := (Option.any_eq_true _ _).1 checked
    obtain ⟨rfl, one⟩ := Bool.and_eq_true_iff.1 checked
    obtain ⟨_, _, _, _, nodes, i, j, same, joins, starts, starts', faithful⟩ :=
      buildAndOr_faithful (p := ⟨{ file := "" }, g⟩) wf (eq_of_beq link) rfl run
    cases same
    have faithful := faithful (tracing fun _ => false) (0, [])
    rw [judged] at faithful
    exact ⟨_, _, _, _, _, nodes, i, j, m, _, _, wf, run, joins, starts, starts', judged, eq_of_beq one,
      faithful.symm⟩

end Decompiler.Structure
