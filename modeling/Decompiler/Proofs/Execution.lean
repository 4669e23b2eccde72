import Decompiler.Proofs.Occurrence

/-!
# Walking a flow graph and executing a body

What both do depends on how branches turn out and on which cases are selected. A walk visits a node
and follows one of its edges.
-/

namespace Decompiler.Structure

open Code Eval Decompiler.Flow Decompiler.Run List Labels

def sign? : Expr → Option Bool
  | .error _ _ => none
  | .unary .not operand _ => (sign? operand).map not
  | .binary _ op _ _ _ => some (op != .ne && op != .gt && op != .ge)
  | .test _ _ negated => some (!negated)
  | .comma _ condition => sign? condition
  | _ => some true

/-- How conditions turn out behind a visit of a node, and which cases are selected there. Visits are
counted from one. -/
structure Answers (g : Graph) where
  holds : (visits node : Nat) → Expr → Option Bool
  selected : (visits node : Nat) → Nat
  inside : ∀ {k i : Nat} {n : Node} {cases}, g.nodes[i]? = some n → n.link = .select cases →
    cases ≠ [] → selected k i < cases.length

/-- The opposite of a condition turns out the other way; so there is no outcome of an error. -/
def Answers.Opposed {g : Graph} (o : Answers g) : Prop :=
  ∀ {k i x y s s'}, (negate x).run s = (.ok y, s') → o.holds k i y = (o.holds k i x).map not

structure Outcomes (g : Graph) extends Answers g where
  opposite : toAnswers.Opposed

inductive Result where
  | returned
  /-- At a condition that has no outcome. -/
  | undecided
  /-- At a jump to nowhere. -/
  | lost
  deriving DecidableEq

inductive Spot where
  | front (visits node : Nat)
  | over (result : Result)

def Spot.pick (visits target fallthrough : Nat) : Option Bool → Spot
  | some true => .front visits target
  | some false => .front visits fallthrough
  | none => .over .undecided

section

variable (g : Graph) (s : Session) (o : Answers g)

def goOn (visits i : Nat) : Link → Spot
  | .next t => .front visits t
  | .branch t f => .pick visits t f ((s.block i).condition.bind (o.holds visits i))
  | .exit _ => .over .returned
  | .select cases =>
    match cases[o.selected visits i]? with
    | some t => .front visits t
    | none => .over .lost

def walk : Spot → Outcome Spot Nat Result
  | .front k i =>
    match g.nodes[i]? with
    | some n => .goOn [i] (goOn g s o (k + 1) i n.link)
    | none => .stop .lost
  | .over r => .stop r

end

mutual

def Part.behind? (t : Nat) (rest : Body) : Part → Option Body
  | .label n i => if i == t then some (.label n i :: rest) else none
  | .branch _ _ thenBody elseBody =>
    (Body.behind? t rest thenBody).or (elseBehind? t rest elseBody)
  | _ => none

def Body.behind? (t : Nat) (rest : Body) : List Part → Option Body
  | [] => none
  | part :: parts => (part.behind? t (parts ++ rest)).or (Body.behind? t rest parts)

def elseBehind? (t : Nat) (rest : Body) : Option (List Part) → Option Body
  | some parts => Body.behind? t rest parts
  | none => none

end

def Labels.selected? (l : Labels) (switch index : Nat) : Option Nat :=
  ((l.cases.find? fun c => c.2 == ⟨switch, some index⟩).or
    (l.cases.find? fun c => c.2 == ⟨switch, none⟩)).map Prod.fst

structure Place where
  visits : Nat
  node : Nat
  code : Body

section

variable (body : Body) (labels : Labels) (o : Answers g)

def jumpTo (k i t : Nat) : Outcome Place Nat Result :=
  match Body.behind? t [] body with
  | some code => .goOn [] ⟨k, i, code⟩
  | none => .stop .lost

/-- A step through a body. -/
def execute : Place → Outcome Place Nat Result
  | ⟨_, _, []⟩ => .stop .returned
  | ⟨k, i, part :: code⟩ =>
    match part with
    | .block _ j _ _ => .goOn [j] ⟨k + 1, j, code⟩
    | .label _ _ => .goOn [] ⟨k, i, code⟩
    | .goto _ t => jumpTo body k i t
    | .dispatch _ j _ =>
      match labels.selected? (labels.switch j) (o.selected k j) with
      | some t => jumpTo body k i t
      | none => .stop .lost
    | .exit _ _ _ => .stop .returned
    | .branch _ condition thenBody elseBody =>
      match o.holds k i condition with
      | some true => .goOn [] ⟨k, i, thenBody ++ code⟩
      | some false => .goOn [] ⟨k, i, elseBody.getD [] ++ code⟩
      | none => .stop .undecided

end

lemma sign?_opposite (h : op.isComparison) (l r : Expr) (type type' : Infer.TypeId)
    (floating floating' : Bool) : sign? (.binary l op.opposite r type floating) =
      (sign? (.binary l op r type' floating')).map not := by
  cases op with
  | eq | ne | lt | le | gt | ge => rfl
  | _ => cases h

lemma sign?_not_not (x : Expr) (type : Infer.TypeId) :
    (sign? (.unary .not x type)).map not = sign? x := by
  rw [sign?]
  cases sign? x with
  | none => rfl
  | some b => exact congrArg some (Bool.not_not b)

/-- Negating an expression turns its sign around. -/
lemma sign?_negate (x : Expr) : Ensures s (negate x) fun y _ => sign? y = (sign? x).map not := by
  have typed {x : Expr} {s : Session} {f : Infer.TypeId → Expr}
      (h : ∀ type, sign? (f type) = (sign? x).map not) :
      Ensures s (do return f (← freshType .truth)) fun y _ => sign? y = (sign? x).map not :=
    .skip fun type _ => .pure (h type)
  fun_induction negate x generalizing s with
  | case1 => exact .pure rfl
  | case2 => exact typed fun _ => rfl
  | case3 l op r type floating h =>
    refine typed fun _ => sign?_opposite ?_ _ _ _ _ _ _
    simp only [Bool.or_eq_true, Bool.not_eq_true', not_or, Bool.not_eq_false] at h
    exact h.1
  | case4 | case5 => exact .pure (sign?_not_not _ _).symm
  | case6 | case7 => exact typed fun _ => rfl
  | case8 _ _ negated =>
    refine .pure ?_
    cases negated <;> rfl
  | case9 _ _ ih => exact .bind ih fun _ _ h => .pure h
  | case10 => exact typed fun _ => rfl

lemma Spot.pick_not (k t f : Nat) (b : Option Bool) : pick k f t (b.map not) = pick k t f b := by
  cases b with
  | none => rfl
  | some b => cases b <;> rfl

section

variable {part : Part}

lemma Body.behind?_append (t : Nat) (a b rest : Body) :
    behind? t rest (a ++ b) = (behind? t (b ++ rest) a).or (behind? t rest b) := by
  induction a with
  | nil => rfl
  | cons part a ih =>
    rw [cons_append, behind?, ih, behind?, append_assoc, Option.or_assoc]

lemma Body.behind?_of_mem (mem : part ∈ body) (h : ∀ rest, (part.behind? t rest).isSome)
    (rest : Body) : (behind? t rest body).isSome := by
  induction body with
  | nil => cases mem
  | cons first body ih =>
    rw [behind?, Option.isSome_or, Bool.or_eq_true]
    rcases mem_cons.1 mem with rfl | mem
    · exact .inl (h _)
    · exact .inr (ih mem)

lemma Body.behind?_isSome (h : Within (.label n t) body) (rest : Body) :
    (behind? t rest body).isSome := by
  induction h generalizing rest with
  | here mem =>
    refine behind?_of_mem mem (fun rest => ?_) rest
    rw [Part.behind?, if_pos (beq_self_eq_true t)]
    rfl
  | inThen mem _ ih =>
    refine behind?_of_mem mem (fun rest => ?_) rest
    rw [Part.behind?, Option.isSome_or, ih]
    rfl
  | inElse mem _ ih =>
    refine behind?_of_mem mem (fun rest => ?_) rest
    rw [Part.behind?, elseBehind?, Option.isSome_or, ih, Bool.or_true]

mutual

lemma Part.behind?_within (p : Part) (rest : Body) (h : p.behind? t rest = some code)
    (within : Within part code) : Within part (p :: rest) := by
  cases p with
  | label n i =>
    rw [Part.behind?] at h
    split at h
    · cases h
      exact within
    · cases h
  | branch n c thenBody elseBody =>
    rw [Part.behind?] at h
    rw [← singleton_append, within_append, within_branch, within_append]
    rcases Option.or_eq_some_iff.1 h with h | ⟨-, h⟩
    · rcases within_append.1 (Body.behind?_within thenBody rest h within) with w | w
      · exact .inl (.inr (.inl w))
      · exact .inr w
    · rcases within_append.1 (elseBehind?_within elseBody rest h within) with w | w
      · exact .inl (.inr (.inr w))
      · exact .inr w
  | _ => cases h

lemma Body.behind?_within (body rest : Body) (h : Body.behind? t rest body = some code)
    (within : Within part code) : Within part (body ++ rest) := by
  cases body with
  | nil => cases h
  | cons first body =>
    rw [Body.behind?] at h
    rcases Option.or_eq_some_iff.1 h with h | ⟨-, h⟩
    · exact first.behind?_within (body ++ rest) h within
    · exact (Body.behind?_within body rest h within).mono (subset_cons_self _ _)

lemma elseBehind?_within (elseBody : Option Body) (rest : Body)
    (h : elseBehind? t rest elseBody = some code) (within : Within part code) :
    Within part (elseBody.getD [] ++ rest) := by
  cases elseBody with
  | none => cases h
  | some body => exact Body.behind?_within body rest h within

end

end

lemma Outcomes.exists_of (s : Session) (branches : Nat → Nat → Bool) (selections : Nat → Nat → Nat)
    (inside : ∀ {k i : Nat} {n : Node} {cases}, g.nodes[i]? = some n → n.link = .select cases →
      cases ≠ [] → selections k i < cases.length) :
    ∃ o : Outcomes g, (∀ k i c, (s.block i).condition = some c → (sign? c).isSome →
      o.holds k i c = some (branches k i)) ∧ o.selected = selections := by
  -- All conditions of one sign turn out alike.
  let positive (k i : Nat) : Bool :=
    ((s.block i).condition.bind sign?).getD true == branches k i
  refine ⟨⟨⟨fun k i x => (sign? x).map (· == positive k i), selections, inside⟩, ?_⟩, ?_, rfl⟩
  · intro k i x y s s' run
    dsimp only
    rw [sign?_negate x y s' run]
    cases sign? x with
    | none => rfl
    | some b => cases b <;> cases positive k i <;> rfl
  · intro k i c condition decided
    obtain ⟨b, sign⟩ := Option.isSome_iff_exists.1 decided
    have base : positive k i = (b == branches k i) := by
      simp only [positive, condition, Option.bind_some, sign, Option.getD_some]
    change (sign? c).map (· == positive k i) = _
    rw [sign, base]
    cases b <;> cases branches k i <;> rfl

section

variable {g : Graph}

def cases? (g : Graph) (i : Nat) : Option (List Nat) :=
  match (g.nodes.getD i default).link with
  | .select cases => some cases
  | _ => none

def selections (g : Graph) (is : List Nat) : List (Nat × List Nat) :=
  is.filterMap fun i => (cases? g i).map (i, ·)

def switchNumber (several : Bool) (k : Nat) : Nat :=
  if several then k + 1 else 0

def Labels.Adds (several : Bool) (l : Labels) (sel : List (Nat × List Nat)) (l' : Labels) : Prop :=
  l'.switches = l.switches ++ (sel.zipIdx l.switches.length).map
      (fun e => (e.1.1, switchNumber several e.2)) ∧
    l'.cases = l.cases ++ (sel.zipIdx l.switches.length).flatMap
      (fun e => switchCases (switchNumber several e.2) e.1.2)

lemma step_adds (h : step g several l i = .ok l') :
    l.Adds several (selections g [i]) l' ∧ ∀ e ∈ selections g [i], e.2 ≠ [] := by
  unfold step at h
  cases link : (g.nodes.getD i default).link with
  | select cases =>
    have one : selections g [i] = [(i, cases)] := by
      simp only [selections, cases?, link, Option.map_some, filterMap_cons, filterMap_nil]
    simp only [link] at h
    obtain ⟨_, nonempty, h⟩ := bind_ok h
    cases h
    refine ⟨by simp [Adds, one, switchNumber], ?_⟩
    rw [one, forall_mem_singleton]
    rintro rfl
    cases nonempty
  | next t | branch t f | exit copy =>
    have none : selections g [i] = [] := by
      simp only [selections, cases?, link, Option.map_none, filterMap_cons, filterMap_nil]
    simp only [link] at h
    cases h
    rw [none]
    refine ⟨?_, forall_mem_nil _⟩
    constructor <;> (try split) <;> simp

lemma foldlM_adds (h : is.foldlM (step g several) l = .ok l') :
    l.Adds several (selections g is) l' ∧ ∀ e ∈ selections g is, e.2 ≠ [] := by
  induction is generalizing l with
  | nil =>
    cases h
    simp [Adds, selections]
  | cons i is ih =>
    obtain ⟨l1, step, h⟩ := bind_ok h
    obtain ⟨⟨switches, cases⟩, nonempty⟩ := step_adds step
    obtain ⟨⟨switches', cases'⟩, others⟩ := ih h
    have split : selections g (i :: is) = selections g [i] ++ selections g is :=
      filterMap_append (l := [i])
    rw [Adds, switches', cases', switches, cases, split, zipIdx_append]
    exact ⟨by simp [append_assoc], forall_mem_append.2 ⟨nonempty, others⟩⟩

lemma selections_keys : ((selections g is).map Prod.fst).Sublist is := by
  induction is with
  | nil => exact .slnil
  | cons i is ih =>
    unfold selections at ih ⊢
    rw [filterMap_cons]
    cases cases? g i with
    | none => exact ih.cons i
    | some cases => exact ih.cons_cons i

lemma selections_length :
    (selections g (range g.nodes.size)).length = (g.nodes.toList.filter fun n =>
      match n.link with
      | .select _ => true
      | _ => false).length := by
  have nodes : g.nodes.toList = (range g.nodes.size).map fun i => g.nodes.getD i default := by
    refine ext_getElem (by simp) fun i h h' => ?_
    have lt : i < g.nodes.size := by simpa using h
    simp [lt]
  rw [nodes, selections, ← countP_eq_length_filter, countP_map,
    length_filterMap_eq_countP]
  congr 1
  funext i
  dsimp only [Function.comp, cases?]
  cases (g.nodes.getD i default).link <;> rfl

lemma ofGraph_adds {labels} (h : ofGraph g = .ok labels) : ∃ sel several,
    selections g (range g.nodes.size) = sel ∧ decide (sel.length > 1) = several ∧
      labels.switches = sel.zipIdx.map (fun e => (e.1.1, switchNumber several e.2)) ∧
      labels.cases = sel.zipIdx.flatMap (fun e => switchCases (switchNumber several e.2) e.1.2) ∧
      ∀ e ∈ sel, e.2 ≠ [] := by
  have steps : (range g.nodes.size).foldlM (step g
      (decide ((selections g (range g.nodes.size)).length > 1))) {} = .ok labels := by
    rw [selections_length]
    exact h
  obtain ⟨⟨switches, cases⟩, nonempty⟩ := foldlM_adds steps
  exact ⟨_, _, rfl, rfl, switches, cases, nonempty⟩

lemma mem_selections {i n cases} (found : g.nodes[i]? = some n) (link : n.link = .select cases) :
    (i, cases) ∈ selections g (range g.nodes.size) := by
  refine mem_filterMap.2 ⟨i, mem_range.2 (getElem?_eq_some_iff.1 found).1, ?_⟩
  rw [cases?, Array.getD_eq_getD_getElem?, found, Option.getD_some, link]
  rfl

lemma switchCases_index {switch t index targets}
    (h : (t, ⟨switch, some index⟩) ∈ switchCases switch targets) : targets[index]? = some t := by
  rcases mem_append.1 h with h | h
  · obtain ⟨_, -, e⟩ := mem_map.1 h
    cases e
  · obtain ⟨⟨u, k⟩, mem, e⟩ := mem_filterMap.1 h
    dsimp only at e
    split at e
    · cases e
    · cases e
      exact mem_zipIdx_iff_getElem?.1 mem

lemma switchCases_default {switch index targets} (lt : index < targets.length)
    (h : ∀ t, (t, ⟨switch, some index⟩) ∉ switchCases switch targets) :
    (∃ t, (t, ⟨switch, none⟩) ∈ switchCases switch targets) ∧
      ∀ t, (t, ⟨switch, none⟩) ∈ switchCases switch targets → targets[index]? = some t := by
  have found : targets[index]? = some targets[index] := getElem?_eq_getElem lt
  have common : (mostCommon? targets).filter (fun t => targets.count t > 1) =
      some targets[index] := by
    by_contra other
    refine h targets[index] (mem_append_right _ (mem_filterMap.2
      ⟨(targets[index], index), mem_zipIdx_iff_getElem?.2 found, ?_⟩))
    simp [other]
  refine ⟨⟨targets[index], mem_append_left _ ?_⟩, fun t mem => ?_⟩
  · rw [common]
    exact mem_singleton_self _
  · rcases mem_append.1 mem with mem | mem
    · rw [common] at mem
      cases mem_singleton.1 mem
      exact found
    · obtain ⟨⟨u, k⟩, -, e⟩ := mem_filterMap.1 mem
      dsimp only at e
      split at e <;> cases e

lemma switchCases_switch {switch t c targets} (h : (t, c) ∈ switchCases switch targets) :
    c.switch = switch := by
  rcases mem_append.1 h with h | h
  · obtain ⟨_, -, e⟩ := mem_map.1 h
    cases e
    rfl
  · obtain ⟨⟨u, k⟩, -, e⟩ := mem_filterMap.1 h
    dsimp only at e
    split at e <;> cases e
    rfl

/-- Different switches have different numbers. -/
lemma ofGraph_numbers {labels} (h : ofGraph g = .ok labels) :
    ∃ (sel : List (Nat × List Nat)) (several : Bool),
    labels.cases = sel.zipIdx.flatMap (fun e => switchCases (switchNumber several e.2) e.1.2) ∧
    (∀ {k l}, k < sel.length → l < sel.length →
      switchNumber several k = switchNumber several l → k = l) ∧
    ∀ {i : Nat} {n : Node} {cases}, g.nodes[i]? = some n → n.link = .select cases →
      ∃ k, sel[k]? = some (i, cases) ∧ labels.switch i = switchNumber several k := by
  obtain ⟨sel, several, e, only, switches, all, -⟩ := ofGraph_adds h
  have keys : labels.switches.map Prod.fst = sel.map Prod.fst := by
    rw [switches, map_map, ← zipIdx_map_fst 0 sel, map_map]
    simp only [zipIdx_map_fst]
    rfl
  have distinct : (labels.switches.map Prod.fst).Nodup := by
    rw [keys, ← e]
    exact selections_keys.nodup nodup_range
  refine ⟨sel, several, all, fun {k l} lt_k lt_l same => ?_, fun {i n cases} found link => ?_⟩
  · cases several with
    | true => exact Nat.succ.inj same
    | false =>
      have := of_decide_eq_false only
      omega
  · obtain ⟨k, at_k⟩ := mem_iff_getElem?.1 (e ▸ mem_selections found link)
    have mem : (i, switchNumber several k) ∈ labels.switches := by
      rw [switches]
      exact mem_map.2 ⟨((i, cases), k), mem_zipIdx_iff_getElem?.2 at_k, rfl⟩
    refine ⟨k, at_k, ?_⟩
    rw [switch, (mem_iff_lookup distinct).1 mem]
    rfl

lemma switch_cases {labels} (h : ofGraph g = .ok labels) {i n cases}
    (found : g.nodes[i]? = some n) (link : n.link = .select cases)
    (own : c.switch = labels.switch i) :
    (t, c) ∈ labels.cases ↔ (t, c) ∈ switchCases (labels.switch i) cases := by
  obtain ⟨sel, several, all, inj, numbered⟩ := ofGraph_numbers h
  obtain ⟨k, at_k, number⟩ := numbered found link
  rw [all, mem_flatMap]
  constructor
  · rintro ⟨⟨⟨j, cases'⟩, l⟩, mem, entry⟩
    have at_l := mem_zipIdx_iff_getElem?.1 mem
    obtain rfl : l = k := inj (List.getElem?_eq_some_iff.1 at_l).1 (List.getElem?_eq_some_iff.1 at_k).1
      ((switchCases_switch entry).symm.trans (own.trans number))
    cases at_k.symm.trans at_l
    rw [number]
    exact entry
  · intro entry
    rw [number] at entry
    exact ⟨((i, cases), k), mem_zipIdx_iff_getElem?.2 at_k, entry⟩

/-- A switch goes to the case that the jump table has for an index. -/
lemma selected?_eq {labels} (h : ofGraph g = .ok labels) {i index n cases}
    (found : g.nodes[i]? = some n) (link : n.link = .select cases) (lt : index < cases.length) :
    labels.selected? (labels.switch i) index = cases[index]? := by
  have entry {t : Nat} {index? : Option Nat} :
      (t, ⟨labels.switch i, index?⟩) ∈ labels.cases ↔
        (t, ⟨labels.switch i, index?⟩) ∈ switchCases (labels.switch i) cases :=
    switch_cases h found link rfl
  unfold selected?
  cases e : labels.cases.find? fun c => c.2 == ⟨labels.switch i, some index⟩ with
  | some own =>
    obtain ⟨t, c⟩ := own
    obtain rfl : c = ⟨labels.switch i, some index⟩ := eq_of_beq (find?_some e :)
    exact (switchCases_index (entry.1 (mem_of_find?_eq_some e))).symm
  | none =>
    have none := find?_eq_none.1 e
    obtain ⟨⟨t, mem⟩, only⟩ := switchCases_default lt fun t mem =>
      none _ (entry.2 mem) (beq_self_eq_true _)
    cases e' : labels.cases.find? fun c => c.2 == ⟨labels.switch i, Option.none⟩ with
    | some other =>
      obtain ⟨t, c⟩ := other
      obtain rfl : c = ⟨labels.switch i, Option.none⟩ := eq_of_beq (find?_some e' :)
      exact (only t (entry.1 (mem_of_find?_eq_some e'))).symm
    | none => exact absurd (beq_self_eq_true _) (find?_eq_none.1 e' _ (entry.2 mem))

end

end Decompiler.Structure
