import Decompiler.Proofs.Derivation
import Decompiler.Proofs.Execution

/-!
# No code is lost

Every node of a graph occurs in the body that is built from it, and every goto and every case has a
label to go to, as long as no code follows the return that is written last.

Main statement: `buildBody_complete`.
-/

namespace Decompiler.Structure

open Code Eval Decompiler.Flow Infer List

section

variable {p : Plan}

lemma Head.label (h : Head p s i a) (own : p.isCopy i = false) : ∃ n, Within (.label n i) a := by
  cases h with
  | copy copy _ => simp [own] at copy
  | labelled => exact ⟨_, .here mem_cons_self⟩

lemma Return.label (h : Return p s i isLast a) (own : p.isCopy i = false) :
    ∃ n, Within (.label n i) a := by
  cases h with
  | last _ head => exact head.label own
  | exit head =>
    obtain ⟨n, w⟩ := head.label own
    exact ⟨n, within_append.2 (.inl w)⟩

lemma Head.lays (h : Head p s i a) : Lays p s (· ∈ p.onward i) o a o [i] := by
  cases h with
  | copy copy shown =>
    refine .block shown (mem_singleton_self _) (fun n t h => ?_) (.inl copy)
    cases mem_singleton.1 (h.mem (by simp))
  | labelled own shown =>
    refine .block shown (mem_cons_of_mem _ (mem_singleton_self _)) (fun n t h => ?_)
      (.inr ⟨_, .here mem_cons_self⟩)
    simpa using h.mem (by simp)

lemma Return.lays (h : Return p s i isLast a) : Lays p s (· ∈ p.onward i) o a o [i] := by
  cases h with
  | last _ head => exact head.lays
  | exit head =>
    refine head.lays.append (.plain rfl rfl fun n t w => ?_) fun _ due => .inr (.inr (.inr (.inr due)))
    simpa using w.mem (by simp)

lemma Jump.lays (h : Jump p s t o a o') (jumps : p.isCopy t = false → p.JumpsTo t)
    (due : Nat → Prop) : ∃ ns, Lays p s due o a o' ns ∧ (p.isCopy t → t ∈ ns) := by
  cases h with
  | goto own =>
    refine ⟨[], .nodeless rfl (fun j hj => by simp [hj]) fun n t w => ?_, by simp [own]⟩
    cases mem_singleton.1 (w.mem (by simp))
    exact ⟨by simp, .inr (jumps own)⟩
  | copy copy code =>
    refine ⟨[t], (code.lays.noting _ _).weaken fun j hj => ?_, fun _ => mem_singleton_self _⟩
    simp [Plan.onward_copy copy] at hj

lemma Opens.lays (h : Opens p s i o a o') (goesOn : (p.node i).isExit = false) :
    Lays p s (· ∈ p.onward i) o a o' [i] := by
  cases h with
  | exit exit => simp [goesOn] at exit
  | block _ _ head =>
    have lays : Lays p s (· ∈ p.onward i) o a o [i] := head.lays
    refine { lays with
      onward := fun i mem j hj => .inr (.inr (mem_singleton.1 mem ▸ hj))
      emitted := fun i h => by simp [h]
      fresh := fun i h => ?_
      jumps := fun n t w => (lays.jumps n t w).imp_right (.imp_left fun h => by simp [h]) }
    rw [NodeSet.contains_insert, Bool.or_eq_true, beq_iff_eq] at h
    rcases h with h | rfl
    · exact .inl h
    · exact .inr ⟨mem_singleton_self _, head.label (p.not_isCopy goesOn)⟩

lemma Leap.lays {head o1} (h : Leap p s i o1 a o') (opens : Opens p s i o head o1)
    (marked : (p.node i).emitGoto) (falls : p.graph.FallsOn) :
    ∃ ns, Lays p s (· = i + 1) o (head ++ a) o' ns ∧ i ∈ ns := by
  have block {ns} (goesOn : (p.node i).isExit = false) (lays : Lays p s (· = i + 1) o1 a o' ns)
      (goes : ∀ j ∈ p.onward i, j ∈ ns ∨ j = i + 1) :
      ∃ ns, Lays p s (· = i + 1) o (head ++ a) o' ns ∧ i ∈ ns := by
    refine ⟨[i] ++ ns, (opens.lays goesOn).append lays fun j hj => ?_, by simp⟩
    rcases goes j hj with h | h
    · exact .inr (.inr (.inl h))
    · exact .inr (.inr (.inr (.inr h)))
  cases h with
  | @next t _ _ link jump =>
    obtain ⟨ns, lays, mem⟩ := jump.lays (fun own => ⟨own, i, marked, .inl link⟩) (· = i + 1)
    refine block (by rw [Node.isExit, link]) lays fun j hj => ?_
    simp only [Plan.onward, link, marked, if_true, mem_cons] at hj
    rcases hj with rfl | hj
    · exact .inr rfl
    · split at hj
      case isTrue copy => exact .inl (mem_singleton.1 hj ▸ mem copy)
      case isFalse => cases hj
  | branch link cond jump =>
    obtain ⟨ns, lays, -⟩ := jump.lays (fun own => ⟨own, i, marked, .inr ⟨_, link⟩⟩) (· = i + 1)
    refine block (by rw [Node.isExit, link]) (lays.guarded (.first cond .same)) fun j hj => .inr ?_
    simpa [Plan.onward, link, marked, falls link] using hj
  | select link =>
    refine @block [] (by rw [Node.isExit, link]) ?_ fun j hj => .inr ?_
    · exact .plain rfl rfl fun n t w => by simpa using w.mem (by simp)
    · simpa [Plan.onward, link] using hj
  | exit link code =>
    cases opens with
    | block goesOn => simp [Node.isExit, link] at goesOn
    | exit =>
      refine ⟨[i], (code.lays.noting _ _).weaken fun j hj => .inr (.inr ?_), mem_singleton_self _⟩
      simp only [Plan.onward, link] at hj
      split at hj
      · exact mem_singleton.1 hj
      · cases hj

end

section

variable {p : Plan} {o o1 : Outline}

def Covers (p : Plan) (s : Session) (start : Nat) (stop : Option Nat) (o : Outline) (body : Body)
    (o' : Outline) : Prop :=
  ∃ ns, Lays p s (stop = some ·) o body o' ns ∧
    (start ∈ ns ∨ o.emitted.contains start ∨ stop = some start)

lemma Covers.both (first : Covers p s i (some stop) o a o1)
    (second : Covers p s j (some stop) o1 b o') :
    ∃ ns, Lays p s (some stop = some ·) o (a ++ b) o' ns ∧
      ∀ k, k = i ∨ k = j → k ∈ ns ∨ o.emitted.contains k ∨ some stop = some k := by
  obtain ⟨ns, lays, hi⟩ := first
  obtain ⟨ms, lays', hj⟩ := second
  refine ⟨ns ++ ms, lays.append lays' fun k due => .inr (.inr (.inr (.inr due))), ?_⟩
  rintro k (rfl | rfl)
  · exact hi.imp_left (mem_append_left _)
  · rcases hj with h | h | h
    · exact .inl (mem_append_right _ h)
    · rcases lays.fresh k h with h | ⟨h, -⟩
      · exact .inr (.inl h)
      · exact .inl (mem_append_left _ h)
    · exact .inr (.inr h)

lemma Covers.behind {next stop ns} (covers : Covers p s next stop o1 b o')
    (lays : Lays p s (· = next) o a o1 ns) (mem : start ∈ ns) :
    Covers p s start stop o (a ++ b) o' := by
  obtain ⟨ms, lays', hit⟩ := covers
  refine ⟨ns ++ ms, lays.append lays' ?_, .inl (mem_append_left _ mem)⟩
  rintro j rfl
  exact .inr (.inr hit)

/-- Derived code holds its first node and what follows, up to its end. -/
lemma Derives.covers (falls : p.graph.FallsOn) {stop} (h : Derives p s start stop o a o') :
    Covers p s start stop o a o' := by
  induction h with
  | stop => exact ⟨[], .plain rfl rfl fun n t w => by simpa using w.mem (by simp), .inr (.inr rfl)⟩
  | again _ _ written =>
    refine ⟨[], .nodeless rfl (fun j hj => by simp [hj]) fun n t w => ?_, .inr (.inl written)⟩
    cases mem_singleton.1 (w.mem (by simp))
    exact ⟨by simp, .inl written⟩
  | exit _ link unmarked code =>
    refine ⟨[_], (code.lays.noting _ _).weaken fun j hj => ?_, .inl (mem_singleton_self _)⟩
    simp [Plan.onward, link, unmarked] at hj
  | next _ opens link unmarked _ ih =>
    have lays := opens.lays (by rw [Node.isExit, link])
    refine ih.behind (lays.weaken fun j hj => ?_) (mem_singleton_self _)
    exact .inr (.inr (by simpa [Plan.onward, link, unmarked] using hj))
  | leap _ opens marked leap _ _ ih =>
    obtain ⟨ns, lays, mem⟩ := leap.lays opens marked falls
    exact ih.behind lays mem
  | @branch _ _ _ o1 _ _ _ _ _ meet j k _ _ _ _ nodes _ _ _ _ opens link _ _ condition _ _ _ ih1 ih2 ih =>
    obtain ⟨ns, lays, hits⟩ := ih1.both ih2
    have hit {m} (h : m ∈ nodes ∨ m = j ∨ m = k) :
        m ∈ nodes ++ ns ∨ o1.emitted.contains m ∨ some meet = some m := by
      rcases h with mem | h
      · exact .inl (mem_append_left _ mem)
      · exact (hits m h).imp_left (mem_append_right _)
    have written := opens.lays (by rw [Node.isExit, link])
    rw [append_cons]
    refine ih.behind ((written.noting _ _).append (.weaken (lays.branch condition.joins
      condition.inner fun m mem k hk => hit (condition.goes.2 m mem k hk)) fun j hj => ?_)
      fun j hj => ?_) (by simp)
    · exact .inr (.inr (Option.some.inj hj).symm)
    · rcases hit (condition.goes.1 _ _ link j (p.onward_branch link hj)) with h | h | h
      · exact .inr (.inr (.inl h))
      · exact .inr (.inr (.inr (.inl h)))
      · exact .inr (.inr (.inr (.inr (Option.some.inj h).symm)))

end

section

variable {p : Plan}

lemma Plan.isCopy_eq (i : Nat) : p.isCopy i = (p.node i).link.isCopy := by
  unfold isCopy Link.isCopy
  split <;> simp_all

lemma Plan.returnNode (h : p.graph.returnNode? = some exit) : (p.node exit).link = .exit 0 := by
  have found := find?_some h
  cases e : p.graph.nodes[exit]? with
  | none => simp [e] at found
  | some n =>
    rw [p.node_eq e]
    simpa [e] using found

lemma Plan.onward_returnNode (h : p.graph.returnNode? = some exit) : p.onward exit = [] := by
  simp [onward, p.returnNode h, h]

/-- The whole body holds the entry, the return and all that these need. -/
lemma buildBody_yields (falls : p.graph.FallsOn) (structured : p.options.structured) :
    Yields s (buildBody p) {} fun body o' => ∃ ns, Lays p s (fun _ => False) {} body o' ns ∧
      0 ∈ ns ∧ ∀ exit, p.graph.returnNode? = some exit → exit ∈ ns := by
  have empty (i) : ¬ ({} : Outline).emitted.contains i := by
    simp [NodeSet.contains, NodeSet.empty]
  refine (buildBody_whole falls (fun _ _ _ => id) (by simp [structured])).imp fun body o' whole => ?_
  cases whole with
  | none last derives =>
    obtain ⟨ns, lays, hit⟩ := derives.covers falls
    rw [last] at lays hit
    refine ⟨ns, lays.weaken fun j hj => (by cases hj), ?_, by simp [last]⟩
    rcases hit with hit | hit | hit
    · exact hit
    · exact (empty 0 hit).elim
    · cases hit
  | @last _ _ exit _ _ last derives code =>
    obtain ⟨ns, lays, hit⟩ := derives.covers falls
    rw [last] at lays hit
    refine ⟨ns ++ [exit], ?_, ?_, ?_⟩
    · refine lays.append ((code.lays.noting _ _).weaken fun j hj => ?_) fun j hj => ?_
      · simp [Plan.onward_returnNode last] at hj
      · cases hj
        exact .inr (.inr (.inl (mem_singleton_self _)))
    · rcases hit with hit | hit | hit
      · exact mem_append_left _ hit
      · exact (empty 0 hit).elim
      · cases hit
        exact mem_append_right _ (mem_singleton_self _)
    · intro exit' h
      cases last.symm.trans h
      exact mem_append_right _ (mem_singleton_self _)

def Plan.ReturnsLast (p : Plan) : Prop :=
  ∀ exit, p.graph.returnNode? = some exit → (p.node exit).emitGoto → p.isCopy (exit + 1)

lemma Plan.falls (covered : p.graph.Covered) (link : (p.node k).link = .branch t f) : f = k + 1 :=
  covered.falls (p.exists_branch link) link

lemma Plan.onward_of_leads (covered : p.graph.Covered) (last : p.ReturnsLast)
    (found : p.graph.nodes[k]? = some n) (leads : n.Leads k i) (old : p.isCopy k = false)
    (new : p.isCopy i = false) : i ∈ p.onward k := by
  rw [← p.node_eq found] at leads
  cases leads with
  | marked marked =>
    cases link : (p.node k).link with
    | next s => simp [onward, link, marked]
    | branch t f => simp [onward, link, marked, p.falls covered link]
    | select cases => simp [onward, link]
    | exit copy =>
      have zero : copy = 0 := by
        rw [isCopy_eq, link] at old
        cases copy with
        | zero => rfl
        | succ => cases old
      have other : p.graph.returnNode? ≠ some k := fun h => by simp [last k h marked] at new
      simp [onward, link, marked, zero, other]
  | fall link =>
    simp only [onward, link, p.falls covered link]
    split <;> simp
  | select link => simp [onward, link]
  | next link unmarked | branch link unmarked => simp [onward, link, unmarked]

/-- With the entry and all that follows, every node is there. -/
lemma Plan.all_of_onward (conn : p.graph.Connected) (covered : p.graph.Covered) (last : p.ReturnsLast)
    {ns : List Nat} (entry : 0 ∈ ns) (closed : ∀ i ∈ ns, ∀ j ∈ p.onward i, j ∈ ns)
    (lt : i < p.graph.nodes.size) : i ∈ ns := by
  have copy {k : Nat} {n : Node} (h : p.graph.nodes[k]? = some n) : p.isCopy k = n.link.isCopy := by
    rw [p.isCopy_eq, p.node_eq h]
  have plain {i : Nat} (lt : i < p.graph.nodes.size) (plain : p.isCopy i = false) : i ∈ ns := by
    -- The node that leads to another one stands before it, and copies stand behind all others.
    induction i using Nat.strongRecOn with
    | ind i ih =>
      rcases eq_zero_or_pos i with rfl | pos
      · exact entry
      · obtain ⟨k, n, before, found, leads⟩ := covered.led pos lt
        have old : p.isCopy k = false := by
          by_contra h
          have := conn.copiesLast found (Array.getElem?_eq_getElem lt) before.le
            (copy found ▸ by simpa using h)
          rw [copy (Array.getElem?_eq_getElem lt)] at plain
          simp [this] at plain
        exact closed k (ih k before (before.trans lt) old) i
          (p.onward_of_leads covered last found leads old plain)
  cases isCopy : p.isCopy i with
  | false => exact plain lt isCopy
  | true =>
    obtain ⟨k, n, -, found, link⟩ :=
      conn.copies (Array.getElem?_eq_getElem lt) (copy (Array.getElem?_eq_getElem lt) ▸ isCopy)
    have mem : k ∈ ns := by
      refine plain (getElem?_eq_some_iff.1 found).1 ?_
      rw [copy found, link]
      rfl
    refine closed k mem i ?_
    rw [← p.node_eq found] at link
    simp only [onward, link, isCopy, if_true]
    split <;> simp

def Labelled (style : Style) (body : Body) (i : Nat) : Prop :=
  ∃ indent, Within (.label indent i) body ∧ (Part.label indent i).isWritten style

end

section

variable {g : Graph}

lemma mem_switchCases (mem : t ∈ targets) : ∃ c, (t, c) ∈ switchCases switch targets := by
  obtain ⟨i, h⟩ := mem_iff_getElem?.1 mem
  simp only [switchCases, mem_append, mem_map, mem_filterMap]
  by_cases common : (mostCommon? targets).filter (fun t => targets.count t > 1) = some t
  · exact ⟨⟨switch, none⟩, .inl ⟨t, by simp [common], rfl⟩⟩
  · refine ⟨⟨switch, some i⟩, .inr ⟨(t, i), mem_zipIdx_iff_getElem?.2 h, ?_⟩⟩
    simp [common]

lemma casesOf_ne_nil {labels : Labels} (h : Labels.ofGraph g = .ok labels) {i t : Nat}
    (found : g.nodes[i]? = some n) (link : n.link = .select cases) (mem : t ∈ cases) :
    labels.casesOf t ≠ [] := by
  obtain ⟨_, _, rfl, -, -, all, -⟩ := ofGraph_adds h
  obtain ⟨k, at_k⟩ := mem_iff_getElem?.1 (mem_selections found link)
  obtain ⟨c, entry⟩ := mem_switchCases mem
  have mem : (t, c) ∈ labels.cases := by
    rw [all]
    exact mem_flatMap.2 ⟨((i, cases), k), mem_zipIdx_iff_getElem?.2 at_k, entry⟩
  have mem : c ∈ labels.casesOf t := mem_filterMap.2 ⟨(t, c), mem, by simp⟩
  exact ne_nil_of_mem mem

end

variable {rodata : Asm.Rodata} {body : List Asm.Item} {console console' : Console} {g : Graph}
  {options : Options} {s s' : Session} {code : Body} {outline : Outline}

/-- No code is lost by structuring: every node of the graph occurs in the body, and every goto and
every case has a label to go to, if the return that is written last is followed by no code. -/
theorem buildBody_complete (built : (Graph.ofBody rodata body).run console = (.ok g, console'))
    (structured : options.structured)
    (run : ((buildBody ⟨options, g⟩).run {}).run s = (.ok (code, outline), s'))
    (last : (Plan.mk options g).ReturnsLast) :
    (∀ i < g.nodes.size, Occurs s code i) ∧
      ∀ style : Style, Labels.ofGraph g = .ok style.labels → style.gotos = outline.gotos →
        (∀ indent t, Within (.goto indent t) code → Labelled style code t) ∧
        ∀ n ∈ g.nodes, ∀ cases, n.link = .select cases → ∀ t ∈ cases, Labelled style code t := by
  obtain ⟨conn, covered⟩ := Graph.ofBody_connected_covered built
  have wf := Graph.wellFormed_ofBody built
  let p : Plan := ⟨options, g⟩
  obtain ⟨-, ns, lays, entry, -⟩ :=
    buildBody_yields (p := p) (p.falls covered) structured _ _ _ .refl run
  have empty (i : Nat) : ¬ ({} : Outline).emitted.contains i := by
    simp [NodeSet.contains, NodeSet.empty]
  have all {i : Nat} (lt : i < g.nodes.size) : i ∈ ns := by
    refine p.all_of_onward conn covered last entry (fun i mem j hj => ?_) lt
    rcases lays.onward i mem j hj with h | h | h
    · exact h
    · exact (empty j h).elim
    · exact h.elim
  -- What a jump or a selection goes to has a label of its own.
  have label {k t : Nat} {n : Node} (found : g.nodes[k]? = some n) (target : t ∈ n.link.targets)
      (plain : ¬ p.isCopy t) (other : ∀ b, n.link = .branch b t → b = t) :
      ∃ indent, Within (.label indent t) code := by
    obtain ⟨m, hm, -⟩ := conn.links found t target
    rcases lays.labelled t (all (Array.getElem?_eq_some_iff.1 hm).1) with copy | inner | label
    · exact (plain copy).elim
    · refine (p.not_inner wf ⟨n, found, target⟩ (fun b link => other b ?_) inner).elim
      rw [← link, p.node_eq found]
    · exact label
  refine ⟨fun i lt => lays.occurs i (all lt), fun style labels gotos => ⟨fun indent t w => ?_, ?_⟩⟩
  · obtain ⟨goto, target⟩ := lays.jumps indent t w
    have written {n : Nat} : (Part.label n t).isWritten style := by
      simp [Part.isWritten, gotos, goto]
    rcases target with h | ⟨other, k, marked, jump⟩
    · rcases lays.fresh t h with h | ⟨-, n, w⟩
      · exact (empty t h).elim
      · exact ⟨n, w, written⟩
    · have found := p.exists_marked marked
      have target : t ∈ (p.node k).link.targets := by
        rcases jump with link | ⟨f, link⟩ <;> simp [link, Link.targets]
      obtain ⟨n, w⟩ := label found target (by simp [other]) fun b link => by
        rcases jump with jump | ⟨f, jump⟩ <;> cases jump.symm.trans link
        rfl
      exact ⟨n, w, written⟩
  · intro n mem cases link t ht
    obtain ⟨i, found⟩ := Array.mem_iff_getElem?.1 mem
    have target : t ∈ n.link.targets := by simpa [link, Link.targets] using ht
    have plain : ¬ p.isCopy t := by
      intro copy
      obtain ⟨m, hm, parent⟩ := conn.links found t target
      rw [p.isCopy_eq, p.node_eq hm] at copy
      obtain ⟨k, n', only, found', next⟩ := conn.copies hm copy
      rw [only, List.mem_singleton] at parent
      subst parent
      cases found.symm.trans found'
      simp [link] at next
    obtain ⟨indent, w⟩ := label found target plain (by simp [link])
    exact ⟨indent, w, by simp [Part.isWritten, casesOf_ne_nil labels found link ht]⟩

/-- The code that is written for a body satisfies `P`, together with its graph and its labels. -/
def writes (options : Options) (rodata : Asm.Rodata) (items : List Asm.Item) (s : Session)
    (P : Graph → Labels → Body → Outline → Bool) : Bool :=
  match (Graph.ofBody rodata items).run {} with
  | (.error _, _) => false
  | (.ok g, _) =>
    match Labels.ofGraph g, ((buildBody ⟨options, g⟩).run {}).run s with
    | .ok labels, (.ok (code, outline), _) => P g labels code outline
    | _, _ => false

lemma exists_of_writes (h : writes options rodata items s P = true) :
    ∃ g labels code outline console s', (Graph.ofBody rodata items).run {} = (.ok g, console) ∧
      Labels.ofGraph g = .ok labels ∧
      ((buildBody ⟨options, g⟩).run {}).run s = (.ok (code, outline), s') ∧
      P g labels code outline := by
  unfold writes at h
  split at h
  · cases h
  · split at h
    · exact ⟨_, _, _, _, _, _, by assumption, by assumption, by assumption, h⟩
    · cases h

def guardedStore : List Asm.Item :=
  [inLine 1 "beqz" ["a0", .target "L1"],
   inLine 2 "nop" [],
   inLine 3 "beqz" ["a1", .target "L1"],
   inLine 4 "nop" [],
   inLine 5 "sw" ["a1", .memoryAt (.literal 0) "a2"],
   .label "L1",
   inLine 7 "jr" ["ra"],
   inLine 8 "nop" []]

def guards : Session :=
  { rodata := {}
    blocks := #[{ (default : BlockResult) with condition := some (.symbol "a" 0) },
      { (default : BlockResult) with condition := some (.symbol "b" 0) }] }

theorem buildBody_complete_guardedStore :
    ∃ g console code outline s', (Graph.ofBody {} guardedStore).run {} = (.ok g, console) ∧
      ((buildBody ⟨{ file := "" }, g⟩).run {}).run guards = (.ok (code, outline), s') ∧
      (Plan.mk { file := "" } g).ReturnsLast ∧ g.nodes.size = 4 ∧ ∀ i < 4, Occurs guards code i := by
  have checked : writes { file := "" } {} guardedStore guards fun g _ _ _ =>
      g.nodes.size == 4 && g.nodes.all fun n => !n.isExit || !n.emitGoto := by cbv
  obtain ⟨g, -, code, outline, console, s', built, -, run, checked⟩ := exists_of_writes checked
  obtain ⟨size, unmarked⟩ := Bool.and_eq_true_iff.1 checked
  have size : g.nodes.size = 4 := eq_of_beq size
  have last : (Plan.mk { file := "" } g).ReturnsLast := by
    intro exit found marked
    have mem := Array.mem_of_getElem? (Plan.exists_marked marked)
    have plain := Array.all_eq_true'.1 unmarked _ mem
    simp [Node.isExit, Plan.returnNode found, marked] at plain
  exact ⟨g, console, code, outline, s', built, run, last, size,
    size ▸ (buildBody_complete built rfl run last).1⟩

/-- A selection whose second case goes back to the return in front of it. -/
def switchBack : List Asm.Item :=
  [inLine 1 "lui" ["at", .half .high (.symbol "jtbl_1")],
   inLine 2 "sll" ["t0", "a0", .literal 2],
   inLine 3 "addu" ["at", "at", "t0"],
   inLine 4 "lw" ["t0", .memoryAt (.half .low (.symbol "jtbl_1")) "at"],
   inLine 5 "jr" ["t0"],
   inLine 6 "nop" [],
   .label "L1",
   inLine 8 "addiu" ["v0", "a0", .literal 1],
   inLine 9 "jr" ["ra"],
   inLine 10 "nop" [],
   .label "L2",
   inLine 12 "sw" ["a1", .memory "a2"],
   inLine 13 "b" [.target "L1"],
   inLine 14 "nop" []]

def switchTable : Asm.Rodata :=
  { values := .ofList [("jtbl_1",
      { data := [.symbol ".L1", .symbol ".L2", .symbol ".L1", .symbol ".L2"] })]
    mentioned := ["L1", "L2"] }

def selectors : Session :=
  { rodata := {}
    blocks := #[{ (default : BlockResult) with switchValue := some (.symbol "a" 0) }] }

def lacks (code : Body) (i : Nat) : Bool :=
  code.all fun
    | .block _ j _ _ | .label _ j => j != i
    | .branch _ _ _ _ => false
    | _ => true

lemma lacks_flat (h : lacks code i) (n : Nat) (c : Expr) (t : Body) (e : Option Body) :
    .branch n c t e ∉ code := by
  intro mem
  simpa using all_eq_true.1 h _ mem

/-- The code behind the return that is written last is lost: the third node is a case of the
selection, but it does not occur in the code and has no label there. -/
theorem buildBody_loses_case :
    ∃ g console code outline s',
      (Graph.ofBody switchTable switchBack).run {} = (.ok g, console) ∧
      ((buildBody ⟨{ file := "" }, g⟩).run {}).run selectors = (.ok (code, outline), s') ∧
      2 < g.nodes.size ∧ (∃ n ∈ g.nodes, ∃ cases, n.link = .select cases ∧ 2 ∈ cases) ∧
      ¬ Occurs selectors code 2 ∧ ∀ indent, ¬ Within (.label indent 2) code := by
  have checked : writes { file := "" } switchTable switchBack selectors fun g _ code _ =>
      2 < g.nodes.size && g.nodes.any (fun n => n.link == .select [1, 2, 1, 2]) && lacks code 2 := by
    cbv
  obtain ⟨g, -, code, outline, console, s', built, -, run, checked⟩ := exists_of_writes checked
  obtain ⟨checked, lack⟩ := Bool.and_eq_true_iff.1 checked
  obtain ⟨size, selects⟩ := Bool.and_eq_true_iff.1 checked
  have flat := lacks_flat lack
  have free : ∀ part ∈ code, _ := List.all_eq_true.1 lack
  refine ⟨g, console, code, outline, s', built, run, of_decide_eq_true size, ?_, ?_, ?_⟩
  · obtain ⟨n, mem, link⟩ := Array.any_eq_true'.1 selects
    exact ⟨n, mem, _, eq_of_beq link, by decide⟩
  · intro occurs
    cases occurs with
    | block _ within => simpa using free _ (within.mem flat)
    | test within _ _ => exact flat _ _ _ _ (within.mem flat)
  · intro indent within
    simpa using free _ (within.mem flat)

end Decompiler.Structure
