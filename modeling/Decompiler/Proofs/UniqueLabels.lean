import Decompiler.Proofs.Gotos
import Decompiler.Proofs.SingleUse

/-!
# Labels are unique

Cases have numbers of their own, and so have the blocks of nodes, copies of returns apart, which
have no labels. So a label stands in a body as often as its node is written.

Main statement: `buildBody_marks_nodup_iff`.
-/

namespace Decompiler.Structure

open Code Eval Decompiler.Flow List

inductive Mark where
  | name (text : String)
  | case (c : Case)
  deriving DecidableEq

def Mark.text (indent : Nat) (shift : Int) : Mark → String
  | .name text => text ++ ":"
  | .case c => line indent shift c.text

def Style.marks (style : Style) (i : Nat) : List Mark :=
  (style.labels.casesOf i).map .case ++
    if style.gotos.contains i then [.name (style.labels.name style.graph i)] else []

mutual

def Part.labelNodes : Part → List Nat
  | .label _ i => [i]
  | .branch _ _ thenBody elseBody => labelNodes thenBody ++ elseLabelNodes elseBody
  | _ => []

def labelNodes : List Part → List Nat
  | [] => []
  | part :: parts => part.labelNodes ++ labelNodes parts

def elseLabelNodes : Option (List Part) → List Nat
  | some parts => labelNodes parts
  | none => []

end

def Body.marks (style : Style) (body : Body) : List Mark :=
  (labelNodes body).flatMap style.marks

section

variable {p : Plan} {s : Session} {o o' : Outline} {i : Nat}

@[simp] lemma labelNodes_append : labelNodes (a ++ b) = labelNodes a ++ labelNodes b := by
  induction a with
  | nil => rfl
  | cons part a ih => simp [labelNodes, ih]

lemma elseLabelNodes_eq (e : Option Body) : elseLabelNodes e = labelNodes (e.getD []) := by
  cases e <;> rfl

lemma Inventory.labelNodes_le (h : Inventory s i a ns) (k : Nat) :
    (labelNodes a).count k ≤ ns.count k := by
  induction h with
  | nil => exact le_refl _
  | block _ _ ih =>
    exact ih.trans count_le_count_cons
  | labelled _ _ ih =>
    simp only [labelNodes, Part.labelNodes, nil_append, singleton_append, count_cons]
    exact Nat.add_le_add_right ih _
  | @jump _ part _ _ jump _ ih =>
    have none : part.labelNodes = [] := by
      cases part <;> first | rfl | cases jump
    rwa [labelNodes, none]
  | branch _ _ _ _ ih1 ih2 ih3 =>
    simp only [labelNodes, Part.labelNodes, elseLabelNodes_eq, count_append] at ih1 ih2 ih3 ⊢
    omega

def Plan.own (p : Plan) (i : Nat) : List Nat :=
  if p.isCopy i then [] else [i]

lemma Plan.mem_own : k ∈ p.own i ↔ k = i ∧ p.isCopy i = false := by
  rw [own]
  split <;> simp_all

lemma Head.labelNodes_eq (h : Head p s i a) : labelNodes a = p.own i := by
  cases h with
  | copy copy => simp [labelNodes, Part.labelNodes, Plan.own, copy]
  | labelled own => simp [labelNodes, Part.labelNodes, Plan.own, own]

lemma Return.labelNodes_eq (h : Return p s i isLast a) : labelNodes a = p.own i := by
  cases h with
  | exit head => simp [head.labelNodes_eq, labelNodes, Part.labelNodes]
  | last _ head => exact head.labelNodes_eq

lemma Jump.labelNodes_eq (h : Jump p s i o a o') : labelNodes a = [] := by
  cases h with
  | goto => rfl
  | copy copy code => rw [code.labelNodes_eq, Plan.own, if_pos copy]

lemma Leap.labelNodes_subset (h : Leap p s i o a o') : labelNodes a ⊆ p.own i := by
  cases h with
  | next _ jump => simp [jump.labelNodes_eq]
  | branch _ _ jump => simp [labelNodes, Part.labelNodes, elseLabelNodes, jump.labelNodes_eq]
  | select => simp [labelNodes, Part.labelNodes]
  | exit _ code => exact code.labelNodes_eq ▸ Subset.refl _

lemma Opens.labelNodes_subset (h : Opens p s i o a o') : labelNodes a ⊆ p.own i := by
  cases h with
  | exit => exact nil_subset _
  | block _ _ head => exact head.labelNodes_eq ▸ Subset.refl _

lemma Plan.labelled_own (lt : i < p.graph.nodes.size) (mem : k ∈ p.own i) : p.Labelled k := by
  obtain ⟨rfl, own⟩ := mem_own.1 mem
  exact ⟨lt, own⟩

end

section

variable {p : Plan} {s : Session} {o o' : Outline} {start i : Nat} {stop : Option Nat} {body : Body}

section

variable (wf : p.graph.WellFormed)

include wf

lemma Plan.target_inside (link : (p.node i).link = .branch t f) :
    t < p.graph.nodes.size ∧ f < p.graph.nodes.size :=
  ⟨wf.inside ⟨_, p.exists_branch link, by simp [link, Link.targets]⟩,
    wf.inside ⟨_, p.exists_branch link, by simp [link, Link.targets]⟩⟩

lemma Chained.inside {next : Nat} (h : Chained p s bottom i tests next) :
    bottom < p.graph.nodes.size ∧ next < p.graph.nodes.size := by
  induction h with
  | done link => exact p.target_inside wf link
  | more _ _ _ _ ih => exact ih

lemma Condition.inside (h : Condition p s start meet c nodes i j) :
    i < p.graph.nodes.size ∧ j < p.graph.nodes.size := by
  cases h with
  | guard link => exact p.target_inside wf link
  | joint _ _ joint =>
    cases joint with
    | none chained => exact (chained.inside wf).symm
    | some chained _ closes => exact ⟨(chained.inside wf).1, (p.target_inside wf closes.2.2).1⟩

/-- Derived code only has labels of nodes of the graph. -/
lemma Derives.inside (conn : p.graph.Connected)
    (h : Derives p s start stop o body o') (lt : start < p.graph.nodes.size) :
    ∀ k ∈ labelNodes body, p.Labelled k := by
  induction h with
  | stop | again => simp [labelNodes, Part.labelNodes]
  | exit _ _ _ code =>
    intro k mem
    exact p.labelled_own lt (code.labelNodes_eq ▸ mem)
  | @next i _ _ _ _ t _ _ _ opens link _ _ ih =>
    have target := p.target_lt conn lt (by rw [link]; exact mem_singleton_self t)
    intro k mem
    rcases mem_append.1 (labelNodes_append ▸ mem) with mem | mem
    · exact p.labelled_own lt (opens.labelNodes_subset mem)
    · exact ih target k mem
  | leap _ opens _ leap behind _ ih =>
    intro k mem
    rw [labelNodes_append, labelNodes_append, mem_append, mem_append] at mem
    rcases mem with (mem | mem) | mem
    · exact p.labelled_own lt (opens.labelNodes_subset mem)
    · exact p.labelled_own lt (leap.labelNodes_subset mem)
    · exact ih behind k mem
  | branch _ opens _ _ meets condition _ _ _ ih1 ih2 ih =>
    obtain ⟨thenInside, elseInside⟩ := condition.inside wf
    intro k mem
    simp only [labelNodes_append, labelNodes, Part.labelNodes, elseLabelNodes_eq,
      mem_append] at mem
    rcases mem with mem | (mem | mem) | mem
    · exact p.labelled_own lt (opens.labelNodes_subset mem)
    · exact ih1 thenInside k mem
    · exact ih2 elseInside k mem
    · exact ih (immediatePostdominator_lt conn lt meets) k mem

end

lemma GoesOn.labelNodes_eq (h : GoesOn p s i t a) : labelNodes a = [] := by
  cases h with
  | behind => rfl
  | jump jump => exact jump.labelNodes_eq

lemma InOrder.labelNodes_eq (h : InOrder p s exit? i a) :
    labelNodes a = if (p.node i).isExit ∧ exit? = some i then [] else p.own i := by
  cases h with
  | nothing link gone => rcases gone with gone | gone <;> simp_all [labelNodes, Node.isExit, Plan.own]
  | exit _ _ other code => rw [code.labelNodes_eq, if_neg (by simp [other])]
  | next link head jump => simp [Node.isExit, link, head.labelNodes_eq, jump.labelNodes_eq]
  | select link head => simp [Node.isExit, link, head.labelNodes_eq, labelNodes, Part.labelNodes]
  | branch link head jump _ rest =>
    simp [Node.isExit, link, head.labelNodes_eq, labelNodes, Part.labelNodes, elseLabelNodes,
      jump.labelNodes_eq, rest.labelNodes_eq]

lemma labelNodes_flatten (each : Forall₂ (InOrder p s exit?) is bodies) :
    labelNodes bodies.flatten =
      is.flatMap fun i => if (p.node i).isExit ∧ exit? = some i then [] else p.own i := by
  induction each with
  | nil => rfl
  | cons first _ ih => rw [flatten_cons, labelNodes_append, first.labelNodes_eq, ih, flatMap_cons]

/-- In code with gotos every node has one label. -/
lemma buildBody_labelNodes (wf : p.graph.WellFormed) (conn : p.graph.Connected) :
    Yields s (buildBody p) {} fun body _ => (∀ k ∈ labelNodes body, p.Labelled k) ∧
      (p.options.structured = false → (labelNodes body).Nodup) := by
  obtain ⟨n, first, -⟩ := wf.first
  refine (buildBody_whole (Q := fun body _ => (∀ k ∈ labelNodes body, p.Labelled k) ∧
    (p.options.structured = false → (labelNodes body).Nodup ∧
      ∀ exit, p.graph.returnNode? = some exit → exit ∉ labelNodes body))
    (p.behind_branch wf) (fun structured _ _ derives => ⟨?_, by simp [structured]⟩)
    fun _ _ _ each => ?_).imp fun body _ whole => ?_
  · exact derives.inside wf conn (getElem?_eq_some_iff.1 first).1
  · rw [labelNodes_flatten each]
    have own {k i : Nat} (mem : k ∈ if (p.node i).isExit ∧ p.graph.returnNode? = some i then []
        else p.own i) : k = i ∧ p.isCopy i = false ∧ ¬ ((p.node i).isExit ∧
          p.graph.returnNode? = some i) := by
      split at mem
      · cases mem
      case isFalse other => exact ⟨(p.mem_own.1 mem).1, (p.mem_own.1 mem).2, other⟩
    refine ⟨fun k mem => ?_, fun _ => ⟨nodup_flatMap.2 ⟨fun i _ => ?_, ?_⟩, fun exit last mem => ?_⟩⟩
    · obtain ⟨i, range, mem⟩ := mem_flatMap.1 mem
      obtain ⟨rfl, copy, -⟩ := own mem
      exact ⟨mem_range.1 range, copy⟩
    · unfold Plan.own
      split <;> (try split) <;> simp
    · refine pairwise_lt_range.imp fun {i j} lt k mem mem' => ?_
      obtain ⟨rfl, -⟩ := own mem
      obtain ⟨rfl, -⟩ := own mem'
      exact absurd lt (lt_irrefl _)
    · obtain ⟨i, -, mem⟩ := mem_flatMap.1 mem
      obtain ⟨rfl, -, other⟩ := own mem
      exact other ⟨by rw [Node.isExit, p.returnNode last], last⟩
  · cases whole with
    | none _ known => exact ⟨known.1, fun plain => (known.2 plain).1⟩
    | @last _ _ exit _ _ last known code =>
      obtain ⟨inside, once⟩ := known
      have found := (getElem?_eq_some_iff.1 (p.exists_returnNode last)).1
      rw [labelNodes_append, code.labelNodes_eq]
      refine ⟨fun k mem => (mem_append.1 mem).elim (inside k) (p.labelled_own found),
        fun plain => ?_⟩
      obtain ⟨nodup, other⟩ := once plain
      refine nodup_append'.2 ⟨nodup, ?_, fun k mem mem' => ?_⟩
      · unfold Plan.own
        split <;> simp
      · obtain ⟨rfl, -⟩ := Plan.mem_own.1 mem'
        exact other _ last mem

end

section

variable {g : Graph} {style : Style}

lemma switchCases_nodup (switch : Nat) (targets : List Nat) :
    ((switchCases switch targets).map Prod.snd).Nodup := by
  refine Nodup.of_map Case.index ?_
  rw [map_map, switchCases, map_append]
  generalize (mostCommon? targets).filter (fun t => decide (targets.count t > 1)) = common
  have default : ((common.toList.map fun t => (t, ⟨switch, none⟩)).map
      (Case.index ∘ Prod.snd)).Sublist [none] := by
    cases common <;> simp
  have explicit : ((targets.zipIdx.filterMap fun e =>
      if common == some e.1 && e.2 != 0 then none else some (e.1, ⟨switch, some e.2⟩)).map
      (Case.index ∘ Prod.snd)).Sublist ((targets.zipIdx.map Prod.snd).map some) := by
    induction targets.zipIdx with
    | nil => exact .slnil
    | cons e es ih =>
      rw [filterMap_cons]
      split
      case h_1 => exact ih.cons _
      case h_2 found =>
        split at found <;> cases found
        exact ih.cons_cons _
  rw [zipIdx_map_snd] at explicit
  have numbers : ((range' 0 targets.length).map some).Nodup :=
    Nodup.map (Option.some_injective _) nodup_range'
  exact (default.append explicit).nodup (nodup_cons.2 ⟨by simp, numbers⟩)

/-- No two cases have the same label. -/
lemma ofGraph_nodup {labels} (h : Labels.ofGraph g = .ok labels) :
    (labels.cases.map Prod.snd).Nodup := by
  obtain ⟨sel, several, all, inj, -⟩ := ofGraph_numbers h
  rw [all, map_flatMap]
  refine nodup_flatMap.2 ⟨fun e _ => switchCases_nodup _ _, ?_⟩
  have increasing : (sel.zipIdx.map Prod.snd).Pairwise (· < ·) := by
    rw [zipIdx_map_snd]
    exact pairwise_lt_range' ..
  refine (pairwise_map.1 increasing).imp_of_mem fun {e e'} mem mem' lt c here there => ?_
  obtain ⟨⟨_, c⟩, first, rfl⟩ := mem_map.1 here
  obtain ⟨⟨_, _⟩, second, rfl⟩ := mem_map.1 there
  have number := (switchCases_switch first).symm.trans (switchCases_switch second)
  exact lt.ne (inj (snd_lt_of_mem_zipIdx mem) (snd_lt_of_mem_zipIdx mem') number)

lemma name_inj {labels : Labels} (h : labels.name g i = labels.name g j) :
    g.blockIndex i = g.blockIndex j := by
  have number {k k' : Nat} (e : Nat.toDigits 10 k = Nat.toDigits 10 k') : k = k' := by
    rw [← Nat.ofDigitChars_ten_toDigits (n := k), e, Nat.ofDigitChars_ten_toDigits]
  have chars := congrArg String.toList h
  simp only [Labels.name, String.toList_append, Nat.toString_eq_ofList_toDigits,
    String.toList_ofList] at chars
  split at chars <;> split at chars
  case isTrue.isTrue | isFalse.isFalse => exact number (append_cancel_left chars)
  all_goals cases chars

lemma mem_casesOf {labels : Labels} : c ∈ labels.casesOf i ↔ (i, c) ∈ labels.cases := by
  simp [Labels.casesOf, mem_filterMap]

lemma casesOf_nodup {labels : Labels} (cases : (labels.cases.map Prod.snd).Nodup) (i : Nat) :
    (labels.casesOf i).Nodup := by
  refine pairwise_filterMap.2 ((pairwise_map.1 cases).imp fun {e e'} ne c here c' there => ?_)
  simp only [Option.ite_none_right_eq_some, Option.some.injEq] at here there
  exact here.2 ▸ there.2 ▸ ne

lemma Style.marks_nodup (cases : (style.labels.cases.map Prod.snd).Nodup) (i : Nat) :
    (style.marks i).Nodup := by
  refine nodup_append'.2 ⟨(casesOf_nodup cases i).map fun _ _ => Mark.case.inj, ?_,
    fun mark here there => ?_⟩
  · split <;> simp
  · obtain ⟨c, -, rfl⟩ := mem_map.1 here
    split at there <;> simp at there

lemma Style.marks_disjoint (cases : (style.labels.cases.map Prod.snd).Nodup)
    (index : style.graph.blockIndex i = style.graph.blockIndex j → i = j) (ne : i ≠ j) :
    (style.marks i).Disjoint (style.marks j) := by
  intro mark here there
  simp only [marks, mem_append, mem_map] at here there
  rcases here with ⟨c, here, rfl⟩ | here <;> rcases there with ⟨c', there, same⟩ | there
  · cases same
    exact ne (congrArg Prod.fst
      (inj_on_of_nodup_map cases (mem_casesOf.1 here) (mem_casesOf.1 there) rfl))
  · split at there <;> simp at there
  · split at here <;> simp [← same] at here
  · split at here
    · split at there
      · exact ne (index (name_inj (Mark.name.inj
          ((mem_singleton.1 here).symm.trans (mem_singleton.1 there)))))
      · cases there
    · cases here

lemma nodup_flatMap_iff {f : Nat → List Mark} {l : List Nat} (own : ∀ i ∈ l, (f i).Nodup)
    (apart : ∀ i ∈ l, ∀ j ∈ l, i ≠ j → (f i).Disjoint (f j)) :
    (l.flatMap f).Nodup ↔ ∀ i, f i ≠ [] → l.count i ≤ 1 := by
  refine nodup_flatMap.trans ⟨fun ⟨_, pairwise⟩ i nonempty => ?_, fun once => ⟨own, ?_⟩⟩
  · by_contra twice
    have sub : [i, i].Sublist l := replicate_sublist_iff.2 (Nat.lt_of_not_le twice)
    obtain ⟨mark, mem⟩ := exists_mem_of_ne_nil _ nonempty
    exact (pairwise_pair.1 (pairwise.sublist sub)) mem mem
  · refine pairwise_iff_forall_sublist.2 fun {i j} sub => ?_
    by_cases same : i = j
    · subst same
      have twice : (replicate 2 i).Sublist l := sub
      have none : f i = [] := by
        by_contra nonempty
        exact Nat.not_le_of_lt (Nat.lt_succ_of_le (once i nonempty)) (replicate_sublist_iff.1 twice)
      simp [Function.onFun, none]
    · exact apart i (sub.subset (by simp)) j (sub.subset (by simp)) same

end

section

variable {g : Graph} {rodata : Asm.Rodata} {items : List Asm.Item} {console console' : Console}
  {options : Options} {style : Style} {s s' : Session} {code : Body} {outline : Outline}

/-- The labels in a body are unique if and only if no return with labels is written more than once.
So they are unique if all control flow is written as gotos. -/
theorem buildBody_marks_nodup_iff (built : (Graph.ofBody rodata items).run console = (.ok g, console'))
    (labelled : Labels.ofGraph g = .ok style.labels)
    (run : ((buildBody ⟨options, g⟩).run {}).run s = (.ok (code, outline), s'))
    (graph : style.graph = g) :
    (∀ indent shift i, labelText style indent shift i =
      "\n".intercalate ((style.marks i).map (Mark.text indent shift))) ∧
    (options.structured = false → (code.marks style).Nodup) ∧
    ((code.marks style).Nodup ↔ ∀ (i : Nat) (n : Node), g.nodes[i]? = some n → n.isExit →
      style.marks i ≠ [] → (labelNodes code).count i ≤ 1) := by
  let p : Plan := ⟨options, g⟩
  have wf := Graph.wellFormed_ofBody built
  have conn := (Graph.ofBody_connected_covered built).1
  obtain ⟨-, inside, plain⟩ := buildBody_labelNodes (p := p) wf conn _ _ _ .refl run
  obtain ⟨-, ns, ⟨all, inv, count⟩, once⟩ := buildBody_once (p := p) wf _ _ _ .refl run
  have cases := ofGraph_nodup labelled
  have index {i j} (hi : p.Labelled i) (hj : p.Labelled j)
      (same : style.graph.blockIndex i = style.graph.blockIndex j) : i = j := by
    have found := p.getElem?_node hi.1
    have found' := p.getElem?_node hj.1
    rw [graph] at same
    simp only [Graph.blockIndex, show g.nodes[i]? = _ from found, show g.nodes[j]? = _ from found'] at same
    exact Graph.ofBody_own_block built found found' (p.isCopy_eq i ▸ hi.2) (p.isCopy_eq j ▸ hj.2) same
  have iff : (code.marks style).Nodup ↔ ∀ i, style.marks i ≠ [] → (labelNodes code).count i ≤ 1 :=
    nodup_flatMap_iff (fun i _ => style.marks_nodup cases i)
      fun i hi j hj => style.marks_disjoint cases (index (inside i hi) (inside j hj))
  refine ⟨fun indent shift i => ?_, fun flat => iff.2 fun i _ => ?_, iff.trans ⟨?_, fun h i labels => ?_⟩⟩
  · rw [labelText, Style.marks, List.map_append, List.map_map]
    split <;> rfl
  · exact List.nodup_iff_count_le_one.1 (plain flat) i
  · exact fun h i _ _ _ => h i
  · by_cases mem : i ∈ labelNodes code
    · have found := p.getElem?_node (inside i mem).1
      by_cases exit : (p.node i).isExit
      · exact h i _ found exit labels
      · have goesOn := Bool.not_eq_true _ ▸ exit
        exact ((inv 0).labelNodes_le i).trans (count i goesOn ▸ once i goesOn)
    · rw [List.count_eq_zero.2 mem]
      exact Nat.zero_le 1

/-- The labels of the cases that are written for a selection, each once. -/
theorem buildBody_marks_nodup_iff_switchBack :
    ∃ g labels code outline console s',
      (Graph.ofBody switchTable switchBack).run {} = (.ok g, console) ∧
      Labels.ofGraph g = .ok labels ∧
      ((buildBody ⟨{ file := "" }, g⟩).run {}).run selectors = (.ok (code, outline), s') ∧
      code.marks ⟨g, labels, outline.gotos, false, false⟩ = [.case ⟨0, none⟩, .case ⟨0, some 0⟩] ∧
      (code.marks ⟨g, labels, outline.gotos, false, false⟩).Nodup := by
  have checked : writes { file := "" } switchTable switchBack selectors fun g labels code outline =>
      decide (labelNodes code).Nodup && code.marks ⟨g, labels, outline.gotos, false, false⟩ ==
        [.case ⟨0, none⟩, .case ⟨0, some 0⟩] := by cbv
  obtain ⟨g, labels, code, outline, console, s', built, labelled, run, checked⟩ :=
    exists_of_writes checked
  simp only [Bool.and_eq_true, beq_iff_eq, decide_eq_true_eq] at checked
  obtain ⟨once, marks⟩ := checked
  refine ⟨g, labels, code, outline, console, s', built, labelled, run, marks, ?_⟩
  exact (buildBody_marks_nodup_iff built labelled run rfl).2.2.2 fun i _ _ _ _ =>
    List.nodup_iff_count_le_one.1 once i

/-- A selection of two returns, the first of which also follows a branch. -/
def switchReturns : List Asm.Item :=
  [inLine 1 "beqz" ["a3", .target "L2"],
   inLine 2 "nop" [],
   inLine 3 "beqz" ["a0", .target "L3"],
   inLine 4 "nop" [],
   .label "L2",
   inLine 6 "lui" ["at", .half .high (.symbol "jtbl_1")],
   inLine 7 "sll" ["t0", "a0", .literal 2],
   inLine 8 "addu" ["at", "at", "t0"],
   inLine 9 "lw" ["t0", .memoryAt (.half .low (.symbol "jtbl_1")) "at"],
   inLine 10 "jr" ["t0"],
   inLine 11 "nop" [],
   .label "L3",
   inLine 13 "sw" ["a1", .memory "a2"],
   inLine 14 "jr" ["ra"],
   inLine 15 "nop" [],
   .label "L4",
   inLine 17 "jr" ["ra"],
   inLine 18 "nop" []]

def returnTable : Asm.Rodata :=
  { values := .ofList [("jtbl_1",
      { data := [.symbol ".L4", .symbol ".L3", .symbol ".L4", .symbol ".L3"] })]
    mentioned := ["L3", "L4"] }

def returnTests : Session :=
  { rodata := {}
    blocks := #[{ (default : BlockResult) with condition := some (.symbol "a" 0) },
      { (default : BlockResult) with condition := some (.symbol "b" 0) },
      { (default : BlockResult) with switchValue := some (.symbol "c" 0) }] }

/-- Both returns are written under the condition and again at the end, and so are their labels. -/
theorem buildBody_repeats_case :
    ∃ g labels code outline console s',
      (Graph.ofBody returnTable switchReturns).run {} = (.ok g, console) ∧
      Labels.ofGraph g = .ok labels ∧
      ((buildBody ⟨{ file := "" }, g⟩).run {}).run returnTests = (.ok (code, outline), s') ∧
      (code.marks ⟨g, labels, outline.gotos, false, false⟩).count (.case ⟨0, some 1⟩) = 2 ∧
      ¬ (code.marks ⟨g, labels, outline.gotos, false, false⟩).Nodup := by
  have checked : writes { file := "" } returnTable switchReturns returnTests
      fun g labels code outline => (code.marks ⟨g, labels, outline.gotos, false, false⟩).count
        (.case ⟨0, some 1⟩) == 2 := by cbv
  obtain ⟨g, labels, code, outline, console, s', built, labelled, run, checked⟩ :=
    exists_of_writes checked
  have twice := eq_of_beq checked
  refine ⟨g, labels, code, outline, console, s', built, labelled, run, twice, fun nodup => ?_⟩
  have := List.nodup_iff_count_le_one.1 nodup (.case ⟨0, some 1⟩)
  omega

end

end Decompiler.Structure
