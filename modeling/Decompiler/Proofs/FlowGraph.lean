import Decompiler.Flow.Return
import Decompiler.Proofs.Steps
import Decompiler.Proofs.Tables

/-!
# The nodes of a flow graph

What the nodes of a finished graph know about each other. Each node is a parent of those that it
goes to, the nodes stand in the order of their blocks, and a copy of a return has one parent, which
goes nowhere else.
-/

namespace Decompiler.Flow

open Asm List Draft

namespace Link

def isCopy : Link → Bool
  | .exit (_ + 1) => true
  | _ => false

def addCase (case : Nat) : Link → Link
  | .select cases => .select (cases ++ [case])
  | link => link

end Link

namespace Draft

def Recorded (d : Draft) (i : Nat) (n : Node) : Prop :=
  ∀ t ∈ n.link.targets, ∃ m, d.lookup t = some m ∧ i ∈ m.parents

/-- How a draft grows in a visit. The links of the nodes in `unlinked` are still to be recorded,
and those in `orphans` may still lack parents. -/
structure Grown (blocks : Array Block) (unlinked orphans : List Nat) (d d' : Draft) : Prop where
  keeps : ∀ {i n}, d.lookup i = some n →
    ∃ n', d'.lookup i = some n' ∧ n'.block = n.block ∧ n'.link = n.link ∧ n.parents ⊆ n'.parents
  block : ∀ {i n}, d.lookup i = none → d'.lookup i = some n →
    blocks[i]? = some n.block ∧ n.link.isCopy = false
  links : ∀ {i n}, d.lookup i = none → d'.lookup i = some n → i ∉ unlinked → Recorded d' i n
  parents : ∀ {i n}, d.lookup i = none → d'.lookup i = some n → i ∉ orphans → n.parents ≠ []
  distinct : (d.map Prod.fst).Nodup → (d'.map Prod.fst).Nodup

def alter (f : Nat → Node → Node) (d : Draft) : Draft :=
  d.map fun e => (e.1, f e.1 e.2)

lemma lookup_alter (f : Nat → Node → Node) (d : Draft) (i : Nat) :
    (d.alter f).lookup i = (d.lookup i).map (f i) := by
  induction d with
  | nil => rfl
  | cons e d ih =>
    rw [alter, map_cons, lookup_cons, ← Prod.eta e, lookup_cons]
    cases here : i == e.1 with
    | true =>
      rw [← eq_of_beq here]
      rfl
    | false => exact ih

lemma addParent_eq (d : Draft) (child parent : Nat) : d.addParent child parent =
    d.alter fun i n => if i == child then { n with parents := n.parents ++ [parent] } else n := by
  refine map_congr_left fun e _ => ?_
  dsimp only
  split <;> rfl

lemma addCase_eq (d : Draft) (k case : Nat) : d.addCase k case =
    d.alter fun i n => if i == k then { n with link := n.link.addCase case } else n := by
  refine map_congr_left fun e _ => ?_
  obtain ⟨i, _, _, link, _⟩ := e
  cases link <;> dsimp only [addCase] <;> split <;> rfl

section

variable {d : Draft} {i k : Nat} {n m : Node}

lemma lookup_added (new : d.lookup k = none) : (d ++ [(k, n)]).lookup k = some n := by
  simp [lookup_append, new]

lemma lookup_added_old (h : d.lookup i = some m) : (d ++ [(k, n)]).lookup i = some m := by
  rw [lookup_append, h]
  rfl

lemma eq_of_lookup_added (h : d.lookup i = none) (h' : (d ++ [(k, n)]).lookup i = some m) :
    i = k ∧ m = n := by
  rw [lookup_append, h, lookup_cons] at h'
  cases e : i == k with
  | false => simp [e] at h'
  | true =>
    rw [e] at h'
    cases h'
    exact ⟨eq_of_beq e, rfl⟩

end

namespace Grown

variable {blocks : Array Block} {unlinked orphans : List Nat} {d d1 d2 : Draft} {k t : Nat}

lemma recorded (h : Grown blocks unlinked orphans d1 d2) (rec : Recorded d1 i n1)
    (link : n2.link = n1.link) : Recorded d2 i n2 := by
  intro t mem
  obtain ⟨m, hm, hi⟩ := rec t (link ▸ mem)
  obtain ⟨m', hm', -, -, sub⟩ := h.keeps hm
  exact ⟨m', hm', sub hi⟩

lemma refl : Grown blocks unlinked orphans d d where
  keeps h := ⟨_, h, rfl, rfl, Subset.refl _⟩
  block h h' := by simp [h] at h'
  links h h' := by simp [h] at h'
  parents h h' := by simp [h] at h'
  distinct h := h

lemma mono (h : Grown blocks unlinked orphans d d1) (sub : orphans ⊆ orphans') :
    Grown blocks unlinked orphans' d d1 :=
  { h with parents := fun new e hi => h.parents new e fun mem => hi (sub mem) }

lemma add (new : d.lookup k = none) (block : blocks[k]? = some n.block)
    (link : n.link.isCopy = false) : Grown blocks [k] [k] d (d ++ [(k, n)]) := by
  refine ⟨fun h => ⟨_, lookup_added_old h, rfl, rfl, Subset.refl _⟩, fun h h' => ?_,
    fun h h' hi => absurd (eq_of_lookup_added h h').1 (by simpa using hi),
    fun h h' hi => absurd (eq_of_lookup_added h h').1 (by simpa using hi), fun h => ?_⟩
  · obtain ⟨rfl, rfl⟩ := eq_of_lookup_added h h'
    exact ⟨block, link⟩
  · rw [map_append, nodup_append]
    refine ⟨h, by simp, ?_⟩
    simp only [map_cons, map_nil, mem_singleton, forall_eq]
    rintro i mem rfl
    obtain ⟨e, mem', rfl⟩ := mem_map.1 mem
    simpa using lookup_eq_none_iff.1 new e mem'

lemma trans (h1 : Grown blocks unlinked orphans d d1) (h2 : Grown blocks [] [t] d1 d2) :
    Grown blocks unlinked (t :: orphans) d d2 where
  keeps h := by
    obtain ⟨n1, e1, b1, l1, p1⟩ := h1.keeps h
    obtain ⟨n2, e2, b2, l2, p2⟩ := h2.keeps e1
    exact ⟨n2, e2, b2.trans b1, l2.trans l1, Subset.trans p1 p2⟩
  block {i n} h h' := by
    cases e : d1.lookup i with
    | none => exact h2.block e h'
    | some n1 =>
      obtain ⟨n2, e2, b2, l2, -⟩ := h2.keeps e
      cases e2.symm.trans h'
      rw [b2, l2]
      exact h1.block h e
  links {i n} h h' hi := by
    cases e : d1.lookup i with
    | none => exact h2.links e h' not_mem_nil
    | some n1 =>
      obtain ⟨n2, e2, -, l2, -⟩ := h2.keeps e
      cases e2.symm.trans h'
      exact h2.recorded (h1.links h e hi) l2
  parents {i n} h h' hi := by
    rw [mem_cons, not_or] at hi
    cases e : d1.lookup i with
    | none => exact h2.parents e h' (by simpa using hi.1)
    | some n1 =>
      obtain ⟨n2, e2, -, -, p2⟩ := h2.keeps e
      cases e2.symm.trans h'
      intro nil
      exact h1.parents h e hi.2 (subset_nil.1 (nil ▸ p2))
  distinct h := h2.distinct (h1.distinct h)

/-- Nodes may get more parents, and those that are still to be recorded other links. -/
lemma alter {f : Nat → Node → Node} (h : Grown blocks unlinked orphans d d1)
    (node : ∀ i n, (f i n).block = n.block ∧ (f i n).link.isCopy = n.link.isCopy ∧
      n.parents ⊆ (f i n).parents)
    (link : ∀ i n, d.lookup i ≠ none ∨ i ∉ unlinked → (f i n).link = n.link) :
    Grown blocks unlinked orphans d (d1.alter f) := by
  have altered {i n} (e : d1.lookup i = some n) : (d1.alter f).lookup i = some (f i n) := by
    rw [lookup_alter, e, Option.map_some]
  have back {i n} (e : (d1.alter f).lookup i = some n) : ∃ m, d1.lookup i = some m ∧ f i m = n :=
    Option.map_eq_some_iff.1 (lookup_alter f d1 i ▸ e)
  have keys : (d1.alter f).map Prod.fst = d1.map Prod.fst := by simp [Draft.alter]
  refine ⟨fun {i n} e => ?_, fun {i n} new e => ?_, fun {i n} new e hi => ?_,
    fun {i n} new e hi nil => ?_, fun nodup => keys ▸ h.distinct nodup⟩
  · obtain ⟨n1, e1, b1, l1, p1⟩ := h.keeps e
    obtain ⟨block, -, parents⟩ := node i n1
    exact ⟨_, altered e1, block.trans b1, (link i n1 (.inl (by simp [e]))).trans l1,
      Subset.trans p1 parents⟩
  · obtain ⟨m, hm, rfl⟩ := back e
    rw [(node i m).1, (node i m).2.1]
    exact h.block new hm
  · obtain ⟨m, hm, rfl⟩ := back e
    intro u mem
    rw [link i m (.inr hi)] at mem
    obtain ⟨c, hc, parent⟩ := h.links new hm hi u mem
    exact ⟨_, altered hc, (node u c).2.2 parent⟩
  · obtain ⟨m, hm, rfl⟩ := back e
    exact h.parents new hm hi (subset_nil.1 (nil ▸ (node i m).2.2))

lemma addParent (h : Grown blocks unlinked (t :: orphans) d d1) :
    Grown blocks unlinked orphans d (d1.addParent t p) := by
  have more : Grown blocks unlinked (t :: orphans) d (d1.addParent t p) := by
    rw [addParent_eq]
    refine h.alter (fun i n => ?_) fun i n _ => ?_
    · split
      · exact ⟨rfl, rfl, subset_append_left _ _⟩
      · exact ⟨rfl, rfl, Subset.refl _⟩
    · split <;> rfl
  refine { more with parents := fun {i n} new e hi => ?_ }
  by_cases same : i = t
  · rw [addParent_eq, lookup_alter] at e
    obtain ⟨m, -, rfl⟩ := Option.map_eq_some_iff.1 e
    simp [same]
  · exact more.parents new e (by simp [same, hi])

lemma ensureParent (h : Grown blocks unlinked (t :: orphans) d d1) :
    Grown blocks unlinked orphans d (d1.ensureParent t p) := by
  unfold Draft.ensureParent
  split
  case h_1 m e =>
    split
    case isTrue mem =>
      refine { h with parents := fun {i n} new e' hi nil => ?_ }
      by_cases same : i = t
      · subst same
        cases e.symm.trans e'
        simp [nil] at mem
      · exact h.parents new e' (by simp [same, hi]) nil
    case isFalse => exact h.addParent
  case h_2 e =>
    refine { h with parents := fun {i n} new e' hi => h.parents new e' ?_ }
    rw [mem_cons, not_or]
    refine ⟨?_, hi⟩
    rintro rfl
    simp [e] at e'

lemma addCase (h : Grown blocks [k] orphans d d1) (new : d.lookup k = none) :
    Grown blocks [k] orphans d (d1.addCase k case) := by
  rw [addCase_eq]
  refine h.alter (fun i n => ?_) fun i n other => ?_
  · split
    · exact ⟨rfl, by cases n.link <;> rfl, Subset.refl _⟩
    · exact ⟨rfl, rfl, Subset.refl _⟩
  · have ne : i ≠ k := by
      rintro rfl
      simp [new] at other
    rw [if_neg (by simpa using ne)]

lemma close (h : Grown blocks [k] orphans d d1)
    (rec : ∀ {n}, d1.lookup k = some n → Recorded d1 k n) : Grown blocks [] orphans d d1 :=
  { h with
    links := fun {i n} new e _ => by
      by_cases same : i = k
      · subst same
        exact rec e
      · exact h.links new e (by simpa using same) }

end Grown

end Draft

section

variable (blocks : Array Block) (rodata : Rodata) (depth k : Nat)

inductive Selects : Draft → Draft → Prop where
  | done {d} :
    Selects d d
  | case {d d1 d' t} :
    visit blocks rodata depth t d = .ok d1 →
    Selects ((d1.addCase k t).ensureParent t k) d' →
    Selects d d'

/-- What a visit to a new block does, by the link of the block. -/
inductive Enters (block : Block) (d : Draft) : Draft → Prop where
  | next {goto t d1} :
    visit blocks rodata depth t (d ++ [(k, { block, emitGoto := goto, link := .next t })]) =
      .ok d1 →
    Enters block d (d1.addParent t k)
  | branch {goto t f d1 d2} :
    visit blocks rodata depth t (d ++ [(k, { block, emitGoto := goto, link := .branch t f })]) =
      .ok d1 →
    visit blocks rodata depth f d1 = .ok d2 →
    Enters block d ((d2.addParent t k).addParent f k)
  | exit :
    Enters block d (d ++ [(k, { block, emitGoto := false, link := .exit 0 })])
  | select :
    Selects blocks rodata depth k
      (d ++ [(k, { block, emitGoto := true, link := .select [] })]) d' →
    Enters block d d'

variable {blocks rodata depth k}

lemma foldlM_selects {labels : List String} (h : labels.foldlM (fun d label =>
      match labelledBlock? blocks label with
      | none => reject (.jumpTableTarget label)
      | some case => do
        let d ← visit blocks rodata depth case d
        return (d.addCase k case).ensureParent case k) d = Except.ok d') :
    Selects blocks rodata depth k d d' := by
  induction labels generalizing d with
  | nil =>
    cases h
    exact .done
  | cons label labels ih =>
    rw [foldlM_cons] at h
    obtain ⟨_, step, h⟩ := bind_ok h
    split at step
    · cases step
    · obtain ⟨d1, e, step⟩ := bind_ok step
      cases step
      exact .case e (ih h)

/-- A visit meets a node again, or it enters the block of the node. -/
lemma visit_enters (h : visit blocks rodata (depth + 1) k d = .ok d') :
    (d.lookup k).isSome ∧ d' = d ∨
      d.lookup k = none ∧ ∃ block, blocks[k]? = some block ∧
        Enters blocks rodata depth k block d d' := by
  unfold visit at h
  cases old : d.lookup k with
  | some n =>
    simp only [old, Option.isSome_some, if_true] at h
    cases h
    exact .inl ⟨rfl, rfl⟩
  | none =>
    simp only [old, Option.isSome_none, Bool.false_eq_true, if_false] at h
    cases found : blocks[k]? with
    | none =>
      simp only [found] at h
      cases h
    | some block =>
      refine .inr ⟨rfl, block, rfl, ?_⟩
      simp only [found] at h
      split at h
      · split at h
        · cases h
        obtain ⟨d1, e, h⟩ := bind_ok h
        cases h
        exact .next e
      case h_2 jump _ =>
        split at h
        · obtain ⟨arg, -, h⟩ := bind_ok h
          split at h
          · cases h
            exact .exit
          · obtain ⟨labels, -, h⟩ := bind_ok h
            exact .select (foldlM_selects h)
        · obtain ⟨label, -, h⟩ := bind_ok h
          split at h
          · cases h
          case h_2 t _ =>
            split at h
            · obtain ⟨d1, e, h⟩ := bind_ok h
              cases h
              exact .next e
            · split at h
              · cases h
              obtain ⟨d1, e1, h⟩ := bind_ok h
              obtain ⟨d2, e2, h⟩ := bind_ok h
              cases h
              exact .branch e1 e2
      · cases h

structure Visited (blocks : Array Block) (k : Nat) (d d' : Draft) : Prop where
  grown : d.Grown blocks [] [k] d'
  found : ∃ n, d'.lookup k = some n

variable {block : Block} {d d1 d2 d' : Draft} {n : Node} {t p : Nat}

lemma exists_parent (h : ∃ n, d.lookup t = some n) :
    ∃ m, (d.addParent t p).lookup t = some m ∧ p ∈ m.parents := by
  obtain ⟨n, e⟩ := h
  rw [addParent_eq, lookup_alter, e]
  exact ⟨_, rfl, by simp⟩

lemma exists_ensured (h : ∃ n, d.lookup t = some n) :
    ∃ m, (d.ensureParent t p).lookup t = some m ∧ p ∈ m.parents := by
  obtain ⟨n, e⟩ := h
  simp only [ensureParent, e]
  split
  case isTrue mem => exact ⟨n, e, contains_iff_mem.1 mem⟩
  case isFalse => exact exists_parent ⟨n, e⟩

lemma exists_selected (found : d.lookup k = some n) (link : n.link = .select cases) :
    ∃ m, ((d.addCase k t).ensureParent t k).lookup k = some m ∧ m.link = .select (cases ++ [t]) := by
  have added : (d.addCase k t).lookup k = some { n with link := .select (cases ++ [t]) } := by
    rw [addCase_eq, lookup_alter, found, Option.map_some, beq_self_eq_true, link]
    rfl
  -- Only parents change from here on.
  have ensured : (d.addCase k t).Grown #[] [] [] ((d.addCase k t).ensureParent t k) :=
    Grown.refl.ensureParent
  obtain ⟨m, found, -, link, -⟩ := ensured.keeps added
  exact ⟨m, found, link⟩

lemma Visited.next (new : d.lookup k = none) (block : blocks[k]? = some n.block)
    (link : n.link = .next t) (v : Visited blocks t (d ++ [(k, n)]) d1) :
    Visited blocks k d (d1.addParent t k) := by
  have copy : n.link.isCopy = false := by rw [link]; rfl
  have onward := v.grown.addParent (p := k)
  obtain ⟨n', e, -, l, -⟩ := onward.keeps (lookup_added new)
  have grown := ((Grown.add new block copy).trans v.grown).addParent (p := k)
  refine ⟨grown.close fun e' => ?_, n', e⟩
  cases e.symm.trans e'
  rw [Recorded, l, link]
  simpa [Link.targets] using exists_parent v.found

lemma Visited.branch (new : d.lookup k = none) (block : blocks[k]? = some n.block)
    (link : n.link = .branch t f) (v1 : Visited blocks t (d ++ [(k, n)]) d1)
    (v2 : Visited blocks f d1 d2) : Visited blocks k d ((d2.addParent t k).addParent f k) := by
  have copy : n.link.isCopy = false := by rw [link]; rfl
  have both {d : Draft} {unlinked orphans : List Nat}
      (h : d.Grown blocks unlinked (f :: t :: orphans) d2) :
      d.Grown blocks unlinked orphans ((d2.addParent t k).addParent f k) :=
    (h.mono (Perm.swap _ _ _).subset).addParent.addParent
  obtain ⟨n', e, -, l, -⟩ := (both (v1.grown.trans v2.grown)).keeps (lookup_added new)
  have grown := both (((Grown.add new block copy).trans v1.grown).trans v2.grown)
  refine ⟨grown.close fun e' => ?_, n', e⟩
  cases e.symm.trans e'
  have last (d : Draft) : d.Grown blocks [] [] (d.addParent f k) := Grown.refl.addParent
  have hasTarget : ∃ n, d2.lookup t = some n := by
    obtain ⟨n, e⟩ := v1.found
    obtain ⟨n', e', -⟩ := v2.grown.keeps e
    exact ⟨n', e'⟩
  have hasFall : ∃ n, (d2.addParent t k).lookup f = some n := by
    obtain ⟨n, e⟩ := v2.found
    rw [addParent_eq, lookup_alter, e]
    exact ⟨_, rfl⟩
  rw [Recorded, l, link]
  intro u mem
  simp only [Link.targets, mem_cons, not_mem_nil, or_false] at mem
  rcases mem with rfl | rfl
  · obtain ⟨m, e, mem⟩ := exists_parent hasTarget
    obtain ⟨m', e', -, -, sub⟩ := (last _).keeps e
    exact ⟨m', e', sub mem⟩
  · exact exists_parent hasFall

lemma Selects.visited (h : Selects blocks rodata depth k d1 d')
    (ih : ∀ {t d d'}, visit blocks rodata depth t d = .ok d' → Visited blocks t d d')
    (new : d.lookup k = none) (grown : d.Grown blocks [k] [k] d1)
    (here : ∃ n cases, d1.lookup k = some n ∧ n.link = .select cases ∧ d1.Recorded k n) :
    Visited blocks k d d' := by
  induction h with
  | done =>
    obtain ⟨n, _, e, -, rec⟩ := here
    refine ⟨grown.close fun e' => ?_, n, e⟩
    cases e.symm.trans e'
    exact rec
  | @case d1 d2 d' t v _ ih' =>
    obtain ⟨n, cases, e, link, rec⟩ := here
    have visited := ih v
    obtain ⟨n2, e2, -, l2, -⟩ := visited.grown.keeps e
    have rec₂ : d2.Recorded k n2 := visited.grown.recorded rec l2
    obtain ⟨n3, e3, l3⟩ := exists_selected e2 (l2.trans link)
    have ensured : (d2.addCase k t).Grown blocks [] [] ((d2.addCase k t).ensureParent t k) :=
      Grown.refl.ensureParent
    refine ih' ?_ ⟨n3, cases ++ [t], e3, l3, ?_⟩
    · exact ((grown.trans visited.grown).addCase new).ensureParent
    · rw [Recorded, l3]
      intro u mem
      rcases mem_append.1 mem with mem | mem
      · obtain ⟨m, hm, hk⟩ := rec₂ u (by rwa [l2, link])
        obtain ⟨m', hm', -, -, sub⟩ := ensured.keeps (by rw [addCase_eq, lookup_alter, hm]; rfl)
        refine ⟨m', hm', sub ?_⟩
        split <;> exact hk
      · obtain rfl := mem_singleton.1 mem
        obtain ⟨m, hm⟩ := visited.found
        exact exists_ensured ⟨_, by rw [addCase_eq, lookup_alter, hm]; rfl⟩

/-- What a visit adds is linked both ways, except for its start. -/
lemma visit_visited (h : visit blocks rodata depth k d = .ok d') : Visited blocks k d d' := by
  induction depth generalizing k d d' with
  | zero => cases h
  | succ depth ih =>
    rcases visit_enters h with ⟨old, rfl⟩ | ⟨new, block, found, enters⟩
    · exact ⟨.refl, Option.isSome_iff_exists.1 old⟩
    · cases enters with
      | next v => exact .next new found rfl (ih v)
      | branch v1 v2 => exact .branch new found rfl (ih v1) (ih v2)
      | exit =>
        refine ⟨(Grown.add new found rfl).close fun e => ?_, _, lookup_added new⟩
        cases (lookup_added new).symm.trans e
        simp [Recorded, Link.targets]
      | select selects =>
        refine selects.visited ih new (.add new found rfl) ⟨_, [], lookup_added new, rfl, ?_⟩
        simp [Recorded, Link.targets]

end

/-- What all nodes of a draft know about each other. -/
structure Draft.Connected (d : Draft) : Prop where
  distinct : (d.map Prod.fst).Nodup
  links : ∀ {i n}, (i, n) ∈ d → ∀ t ∈ n.link.targets, ∃ m, (t, m) ∈ d ∧ i ∈ m.parents
  /-- Something goes to each node but the entry. -/
  parents : ∀ e ∈ d.tail, e.2.parents ≠ []
  ordered : d.Pairwise fun a b => a.2.block.index ≤ b.2.block.index
  copies : ∀ {c m}, (c, m) ∈ d → m.link.isCopy →
    ∃ i n, m.parents = [i] ∧ (i, n) ∈ d ∧ n.link = .next c
  copiesLast : d.Pairwise fun a b => a.2.link.isCopy → b.2.link.isCopy

def Numbered (blocks : List Block) : Prop :=
  ∀ (k : Nat) (b : Block), blocks[k]? = some b → b.index = k

lemma reachableNodes_sorted {blocks rodata d} (h : reachableNodes blocks rodata = .ok d) :
    ∃ d0, visit blocks.toArray rodata (blocks.length + 1) 0 [] = .ok d0 ∧ (d.map Prod.fst).Nodup ∧
      (∀ {i n}, (i, n) ∈ d ↔ d0.lookup i = some n) ∧ d.Pairwise fun a b => a.1 ≤ b.1 := by
  obtain ⟨d0, v, h⟩ := bind_ok h
  cases h
  have distinct : (d0.map Prod.fst).Nodup := (visit_visited v).grown.distinct nodup_nil
  have sorted : (d0.mergeSort fun a b => a.1 ≤ b.1).Pairwise fun a b => decide (a.1 ≤ b.1) :=
    pairwise_mergeSort (by simp; omega) (by simp; omega) d0
  refine ⟨d0, v, ((mergeSort_perm d0 _).map Prod.fst).nodup_iff.2 distinct, fun {i n} => ?_,
    by simpa only [decide_eq_true_eq] using sorted⟩
  rw [mem_mergeSort, mem_iff_lookup distinct]

lemma reachableNodes_block {blocks rodata d} (h : reachableNodes blocks rodata = .ok d)
    (mem : e ∈ d) : blocks[e.1]? = some e.2.block ∧ e.2.link.isCopy = false := by
  obtain ⟨d0, v, -, lookup, -⟩ := reachableNodes_sorted h
  simpa using (visit_visited v).grown.block rfl (lookup.1 mem)

/-- The nodes that are visited are connected. -/
lemma reachableNodes_connected {blocks rodata d} (numbered : Numbered blocks)
    (h : reachableNodes blocks rodata = .ok d) :
    d.Connected ∧ ∀ e ∈ d, e.1 < blocks.length ∧ e.2.link.isCopy = false := by
  have block {e} := reachableNodes_block (e := e) h
  obtain ⟨d0, v, distinct, lookup, sorted⟩ := reachableNodes_sorted h
  have visited := visit_visited v
  refine ⟨⟨distinct, fun mem t ht => ?_, fun e mem => ?_, ?_, fun mem copy => ?_, ?_⟩,
    fun e mem => ⟨(List.getElem?_eq_some_iff.1 (block mem).1).1, (block mem).2⟩⟩
  · obtain ⟨m, hm, parent⟩ := visited.grown.links rfl (lookup.1 mem) not_mem_nil t ht
    exact ⟨m, lookup.2 hm, parent⟩
  · refine visited.grown.parents rfl (lookup.1 (mem_of_mem_tail mem)) ?_
    -- The first node of all has the number of the entry, so no other one has it.
    rw [mem_singleton]
    intro zero
    cases d with
    | nil => cases mem
    | cons first d =>
      have le := (pairwise_cons.1 sorted).1 e mem
      refine (nodup_cons.1 distinct).1 (mem_map.2 ⟨e, mem, ?_⟩)
      omega
  · refine sorted.imp_of_mem fun ha hb le => ?_
    rwa [numbered _ _ (block ha).1, numbered _ _ (block hb).1]
  · simp [(block mem).2] at copy
  · refine (Pairwise.imp_of_mem (fun ha _ _ copy => ?_) sorted)
    simp [(block ha).2] at copy

section

variable {d : Draft}

lemma earlyReturns_sublist : (earlyReturns d).Sublist (d.map Prod.fst) := by
  have chosen (p : Nat × Node → Bool) :
      (d.filterMap fun e => if p e then some e.1 else none).Sublist (d.map Prod.fst) := by
    induction d with
    | nil => exact .slnil
    | cons e d ih =>
      rw [filterMap_cons]
      cases p e with
      | true => exact ih.cons_cons _
      | false => exact ih.cons _
  unfold earlyReturns
  split
  · split
    · exact chosen _
    · exact nil_sublist _
  · exact nil_sublist _

def returnCopies (fresh : Nat) (exit : Node) (early : List Nat) : List (Nat × Nat × Node) :=
  early.zipIdx.map fun (i, k) =>
    (i, (fresh + k, { exit with emitGoto := false, link := .exit (k + 1), parents := [i] }))

def relink (fresh last : Nat) (exit : Node) (early : List Nat) (e : Nat × Node) : Nat × Node :=
  match (returnCopies fresh exit early).lookup e.1 with
  | some (copy, _) => (e.1, { e.2 with link := .next copy })
  | none =>
    if e.1 == last then
      (e.1, { e.2 with parents := e.2.parents.filter fun p => !early.contains p })
    else e

def withCopies (fresh last : Nat) (exit : Node) (d : Draft) : Draft :=
  d.map (relink fresh last exit (earlyReturns d)) ++
    (returnCopies fresh exit (earlyReturns d)).map Prod.snd

lemma copyReturns_eq (h : d.getLast? = some (last, exit)) : copyReturns fresh d =
      match (withCopies fresh last exit d).mergeSort fun a b =>
        a.2.block.index ≤ b.2.block.index with
      | [] => []
      | entry :: others => entry :: others.filter fun (_, n) => !n.parents.isEmpty := by
  unfold copyReturns
  rw [h]
  rfl

variable (fresh last : Nat) (exit : Node) (early : List Nat)

lemma keys_returnCopies : (returnCopies fresh exit early).map Prod.fst = early := by
  rw [returnCopies, map_map]
  exact zipIdx_map_fst 0 early

variable {fresh exit early} in
lemma mem_returnCopies {i c m} (h : (i, c, m) ∈ returnCopies fresh exit early) :
    i ∈ early ∧ fresh ≤ c ∧ m.block = exit.block ∧ m.link.isCopy ∧ m.link.targets = [] ∧
      m.parents = [i] := by
  obtain ⟨⟨j, k⟩, mem, e⟩ := mem_map.1 h
  cases e
  exact ⟨(mem_zipIdx mem).2.2 ▸ getElem_mem _, Nat.le_add_right _ _, rfl, rfl, rfl, rfl⟩

/-- What becomes of a node where returns are copied. -/
inductive Relinked : Nat × Node → Nat × Node → Prop where
  | early {i n c m} :
    (i, c, m) ∈ returnCopies fresh exit early →
    Relinked (i, n) (i, { n with link := .next c })
  | other {i n parents} :
    i ∉ early →
    (∀ p, p ∈ parents ↔ p ∈ n.parents ∧ (i = last → p ∉ early)) →
    Relinked (i, n) (i, { n with parents })

lemma relink_relinked (e : Nat × Node) : ∃ e', relink fresh last exit early e = e' ∧
    Relinked fresh last exit early e e' := by
  obtain ⟨i, n⟩ := e
  refine ⟨_, rfl, ?_⟩
  unfold relink
  split
  case h_1 c m found =>
    obtain ⟨_, _, eq, -⟩ := lookup_eq_some_iff.1 found
    exact .early (eq ▸ mem_append_right _ mem_cons_self)
  case h_2 missing =>
    have other : i ∉ early := by
      rw [← keys_returnCopies fresh exit early]
      intro mem
      obtain ⟨copy, mem, same⟩ := mem_map.1 mem
      simpa [same] using lookup_eq_none_iff.1 missing copy mem
    split
    case isTrue same => exact .other other fun p => by simp [show i = last from eq_of_beq same]
    case isFalse ne => exact .other other fun p => by simp_all

lemma relink_same (e : Nat × Node) : (relink fresh last exit early e).1 = e.1 ∧
    (relink fresh last exit early e).2.block = e.2.block ∧
    (e.2.link.isCopy = false → (relink fresh last exit early e).2.link.isCopy = false) := by
  obtain ⟨e', eq, relinked⟩ := relink_relinked fresh last exit early e
  rw [eq]
  cases relinked with
  | early => exact ⟨rfl, rfl, fun _ => rfl⟩
  | other => exact ⟨rfl, rfl, id⟩

variable {fresh last exit early}

lemma mem_withCopies : e ∈ withCopies fresh last exit d ↔
    (∃ e0 ∈ d, relink fresh last exit (earlyReturns d) e0 = e) ∨
      ∃ i, (i, e) ∈ returnCopies fresh exit (earlyReturns d) := by
  simp [withCopies]

lemma withCopies_cases (h : e ∈ withCopies fresh last exit d) :
    (∃ e0 ∈ d, Relinked fresh last exit (earlyReturns d) e0 e) ∨
      ∃ i, (i, e) ∈ returnCopies fresh exit (earlyReturns d) := by
  refine (mem_withCopies.1 h).imp_left ?_
  rintro ⟨e0, old, rfl⟩
  obtain ⟨e, rfl, relinked⟩ := relink_relinked fresh last exit (earlyReturns d) e0
  exact ⟨e0, old, relinked⟩

lemma withCopies_parent (mem : (t, m) ∈ d) (parent : p ∈ m.parents) (other : p ∉ earlyReturns d) :
    ∃ m', (t, m') ∈ withCopies fresh last exit d ∧ p ∈ m'.parents := by
  obtain ⟨e', eq, relinked⟩ := relink_relinked fresh last exit (earlyReturns d) (t, m)
  have kept := mem_withCopies.2 (.inl ⟨_, mem, eq⟩)
  cases relinked with
  | early => exact ⟨_, kept, parent⟩
  | other _ parents => exact ⟨_, kept, (parents p).2 ⟨parent, fun _ => other⟩⟩

lemma returnCopies_unique (distinct : (d.map Prod.fst).Nodup)
    (h : (i, c) ∈ returnCopies fresh exit (earlyReturns d))
    (h' : (i, c') ∈ returnCopies fresh exit (earlyReturns d)) : c = c' := by
  have nodup : ((returnCopies fresh exit (earlyReturns d)).map Prod.fst).Nodup := by
    rw [keys_returnCopies]
    exact earlyReturns_sublist.nodup distinct
  exact congrArg Prod.snd (inj_on_of_nodup_map nodup h h' rfl)

lemma withCopies_links (conn : d.Connected) (mem : (i, n) ∈ withCopies fresh last exit d)
    (ht : t ∈ n.link.targets) : ∃ m, (t, m) ∈ withCopies fresh last exit d ∧ i ∈ m.parents := by
  rcases withCopies_cases mem with ⟨e, old, relinked⟩ | ⟨j, copy⟩
  · cases relinked with
    | early copy =>
      obtain rfl := mem_singleton.1 ht
      exact ⟨_, mem_withCopies.2 (.inr ⟨_, copy⟩), by simp [(mem_returnCopies copy).2.2.2.2.2]⟩
    | other other =>
      obtain ⟨m, hm, parent⟩ := conn.links old t ht
      exact withCopies_parent hm parent other
  · simp [(mem_returnCopies copy).2.2.2.2.1] at ht

lemma withCopies_copies (conn : d.Connected) (plain : ∀ e ∈ d, e.2.link.isCopy = false)
    (mem : (c, m) ∈ withCopies fresh last exit d) (copy : m.link.isCopy) :
    ∃ e ∈ d, m.parents = [e.1] ∧
      relink fresh last exit (earlyReturns d) e = (e.1, { e.2 with link := .next c }) := by
  rcases mem_withCopies.1 mem with ⟨e, old, eq⟩ | ⟨i, mem'⟩
  · have same := (relink_same fresh last exit (earlyReturns d) e).2.2 (plain e old)
    simp [eq, copy] at same
  · obtain ⟨early, -, -, -, -, parents⟩ := mem_returnCopies mem'
    obtain ⟨e, old, rfl⟩ := mem_map.1 (earlyReturns_sublist.mem early)
    obtain ⟨e', eq, relinked⟩ := relink_relinked fresh last exit (earlyReturns d) e
    cases relinked with
    | early mem =>
      cases returnCopies_unique conn.distinct mem mem'
      exact ⟨_, old, parents, eq⟩
    | other other => exact absurd early other

lemma connected_filter (distinct : ((first :: rest).map Prod.fst).Nodup)
    (links : ∀ {i n}, (i, n) ∈ first :: rest → ∀ t ∈ n.link.targets,
      ∃ m, (t, m) ∈ first :: rest ∧ i ∈ m.parents)
    (ordered : (first :: rest).Pairwise fun a b => a.2.block.index ≤ b.2.block.index)
    (copies : ∀ {c m}, (c, m) ∈ first :: rest → m.link.isCopy → ∃ i n, m.parents = [i] ∧
      (i, n) ∈ first :: rest ∧ n.link = .next c ∧ ((i, n) = first ∨ n.parents ≠ []))
    (copiesLast : (first :: rest).Pairwise fun a b => a.2.link.isCopy → b.2.link.isCopy) :
    Connected (first :: rest.filter fun e => !e.2.parents.isEmpty) := by
  have kept {e : Nat × Node} (mem : e ∈ first :: rest) (parents : e = first ∨ e.2.parents ≠ []) :
      e ∈ first :: rest.filter fun e => !e.2.parents.isEmpty := by
    rcases mem_cons.1 mem with rfl | mem
    · exact mem_cons_self
    · rcases parents with rfl | parents
      · exact mem_cons_self
      · exact mem_cons_of_mem _ (mem_filter.2 ⟨mem, by simpa using parents⟩)
  have sub : (first :: rest.filter fun e => !e.2.parents.isEmpty).Sublist (first :: rest) :=
    filter_sublist.cons_cons _
  refine ⟨(sub.map _).nodup distinct, fun mem t ht => ?_, fun e mem => ?_, ordered.sublist sub,
    fun mem copy => ?_, copiesLast.sublist sub⟩
  · obtain ⟨m, hm, parent⟩ := links (sub.mem mem) t ht
    exact ⟨m, kept hm (.inr (ne_nil_of_mem parent)), parent⟩
  · simpa using (mem_filter.1 mem).2
  · obtain ⟨i, n, parents, hi, link, stays⟩ := copies (sub.mem mem) copy
    exact ⟨i, n, parents, kept hi stays, link⟩

lemma withCopies_distinct (conn : d.Connected) (bound : ∀ e ∈ d, e.1 < fresh) :
    ((withCopies fresh last exit d).map Prod.fst).Nodup := by
  have old : (d.map (relink fresh last exit (earlyReturns d))).map Prod.fst = d.map Prod.fst := by
    rw [map_map]
    exact map_congr_left fun e _ => (relink_same fresh last exit _ e).1
  have new : ((returnCopies fresh exit (earlyReturns d)).map Prod.snd).map Prod.fst =
      (range' 0 (earlyReturns d).length).map (fresh + ·) := by
    rw [← zipIdx_map_snd, returnCopies]
    simp only [map_map]
    rfl
  rw [withCopies, map_append, old, new, nodup_append]
  refine ⟨conn.distinct, (nodup_range').map (fun _ _ h => Nat.add_left_cancel h), ?_⟩
  intro i mem j mem'
  obtain ⟨e, old, rfl⟩ := mem_map.1 mem
  obtain ⟨k, -, rfl⟩ := mem_map.1 mem'
  have := bound e old
  omega

lemma withCopies_ordered (conn : d.Connected) (h : d.getLast? = some (last, exit)) :
    (withCopies fresh last exit d).Pairwise fun a b => a.2.block.index ≤ b.2.block.index := by
  have le : ∀ e ∈ d, e.2.block.index ≤ exit.block.index := by
    obtain ⟨init, rfl⟩ := getLast?_eq_some_iff.1 h
    have ordered := (pairwise_append.1 conn.ordered).2.2
    intro e mem
    rcases mem_append.1 mem with mem | mem
    · exact ordered e mem _ (mem_singleton_self _)
    · exact (mem_singleton.1 mem) ▸ Nat.le_refl _
  have copyIndex {e} (mem : e ∈ (returnCopies fresh exit (earlyReturns d)).map Prod.snd) :
      e.2.block.index = exit.block.index := by
    obtain ⟨c, copy, rfl⟩ := mem_map.1 mem
    rw [(mem_returnCopies copy).2.2.1]
  refine pairwise_append.2 ⟨?_, ?_, fun a ha b hb => ?_⟩
  · refine pairwise_map.2 (conn.ordered.imp fun {a b} le => ?_)
    rwa [(relink_same fresh last exit _ a).2.1, (relink_same fresh last exit _ b).2.1]
  · refine pairwise_of_forall_mem_list fun _ ha _ hb => ?_
    exact Nat.le_of_eq ((copyIndex ha).trans (copyIndex hb).symm)
  · obtain ⟨e, mem, rfl⟩ := mem_map.1 ha
    rw [copyIndex hb, (relink_same fresh last exit _ e).2.1]
    exact le e mem

lemma withCopies_copiesLast (plain : ∀ e ∈ d, e.2.link.isCopy = false) :
    (withCopies fresh last exit d).Pairwise fun a b => a.2.link.isCopy → b.2.link.isCopy := by
  have copy {e} (mem : e ∈ (returnCopies fresh exit (earlyReturns d)).map Prod.snd) :
      e.2.link.isCopy := by
    obtain ⟨c, copy, rfl⟩ := mem_map.1 mem
    exact (mem_returnCopies copy).2.2.2.1
  have old {e} (mem : e ∈ d.map (relink fresh last exit (earlyReturns d))) :
      e.2.link.isCopy = false := by
    obtain ⟨e, from', rfl⟩ := mem_map.1 mem
    exact (relink_same fresh last exit _ e).2.2 (plain e from')
  refine pairwise_append.2 ⟨?_, ?_, fun a _ b hb _ => copy hb⟩
  · exact pairwise_of_forall_mem_list fun _ ha _ _ h => by simp [old ha] at h
  · exact pairwise_of_forall_mem_list fun _ _ _ hb _ => copy hb

/-- Copying the return keeps the nodes connected. -/
lemma copyReturns_connected (conn : d.Connected)
    (plain : ∀ e ∈ d, e.1 < fresh ∧ e.2.link.isCopy = false) :
    (copyReturns fresh d).Connected := by
  cases h : d.getLast? with
  | none =>
    rw [copyReturns, h]
    exact conn
  | some final =>
    obtain ⟨last, exit⟩ := final
    have ordered : (withCopies fresh last exit d).Pairwise _ := withCopies_ordered conn h
    rw [copyReturns_eq h, mergeSort_of_pairwise (by simpa using ordered)]
    cases d with
    | nil => cases h
    | cons first rest =>
      refine connected_filter (withCopies_distinct conn fun e mem => (plain e mem).1)
        (fun mem t ht => withCopies_links conn mem ht) ordered (fun mem copy => ?_)
        (withCopies_copiesLast fun e mem => (plain e mem).2)
      obtain ⟨e, old, parents, eq⟩ :=
        withCopies_copies conn (fun e mem => (plain e mem).2) mem copy
      refine ⟨e.1, _, parents, mem_withCopies.2 (.inl ⟨e, old, eq⟩), rfl, ?_⟩
      rcases mem_cons.1 old with rfl | old
      · exact .inl eq.symm
      · exact .inr (conn.parents e old)

end

/-- What the nodes of a graph know about each other. -/
structure Graph.Connected (g : Graph) : Prop where
  links : ∀ {i : Nat} {n : Node}, g.nodes[i]? = some n → ∀ t ∈ n.link.targets,
    ∃ m, g.nodes[t]? = some m ∧ i ∈ m.parents
  ordered : ∀ {i j : Nat} {a b : Node}, g.nodes[i]? = some a → g.nodes[j]? = some b → i ≤ j →
    a.block.index ≤ b.block.index
  copies : ∀ {c : Nat} {m : Node}, g.nodes[c]? = some m → m.link.isCopy →
    ∃ i n, m.parents = [i] ∧ g.nodes[i]? = some n ∧ n.link = .next c
  copiesLast : ∀ {i j : Nat} {a b : Node}, g.nodes[i]? = some a → g.nodes[j]? = some b → i ≤ j →
    a.link.isCopy → b.link.isCopy

lemma Link.targets_map (f : Nat → Nat) (l : Link) : (l.map f).targets = l.targets.map f := by
  cases l <;> rfl

lemma Link.isCopy_map (f : Nat → Nat) (l : Link) : (l.map f).isCopy = l.isCopy := by
  cases l <;> rfl

lemma pairwise_getElem? {R : α → α → Prop} {l : List α} (h : l.Pairwise R)
    (refl : ∀ a, R a a) {i j : Nat} {a b} (ha : l[i]? = some a) (hb : l[j]? = some b) (le : i ≤ j) :
    R a b := by
  obtain ⟨hi, rfl⟩ := List.getElem?_eq_some_iff.1 ha
  obtain ⟨hj, rfl⟩ := List.getElem?_eq_some_iff.1 hb
  rcases Nat.lt_or_eq_of_le le with lt | rfl
  · exact pairwise_iff_getElem.1 h i j hi hj lt
  · exact refl _

namespace Draft

def position (d : Draft) (k : Nat) : Nat :=
  (d.map Prod.fst).idxOf k

def renumber (d : Draft) (n : Node) : Node :=
  { n with link := n.link.map d.position, parents := n.parents.map d.position }

end Draft

section

variable {d : Draft} {i k : Nat} {n : Node}

lemma ofDraft_node : (Graph.ofDraft d).nodes[i]? = d[i]?.map fun e => d.renumber e.2 := by
  rw [Graph.ofDraft, getElem?_toArray, getElem?_map]
  rfl

section

variable (distinct : (d.map Prod.fst).Nodup)

include distinct

lemma position_eq (h : d[i]? = some (k, n)) : d.position k = i := by
  have key : (d.map Prod.fst)[i]? = some k := by rw [getElem?_map, h]; rfl
  obtain ⟨hi, rfl⟩ := List.getElem?_eq_some_iff.1 key
  exact distinct.idxOf_getElem i hi

lemma ofDraft_found (h : (k, n) ∈ d) :
    (Graph.ofDraft d).nodes[d.position k]? = some (d.renumber n) := by
  obtain ⟨i, h⟩ := mem_iff_getElem?.1 h
  rw [ofDraft_node, position_eq distinct h, h]
  rfl

lemma ofDraft_back (h : (Graph.ofDraft d).nodes[i]? = some n) :
    ∃ k m, d[i]? = some (k, m) ∧ i = d.position k ∧ n = d.renumber m := by
  rw [ofDraft_node] at h
  obtain ⟨e, he, rfl⟩ := Option.map_eq_some_iff.1 h
  exact ⟨e.1, e.2, he, (position_eq distinct he).symm, rfl⟩

end

/-- Renumbering the nodes keeps them connected. -/
lemma ofDraft_connected (conn : d.Connected) : (Graph.ofDraft d).Connected := by
  have back {i n} := ofDraft_back (i := i) (n := n) conn.distinct
  refine ⟨fun h t ht => ?_, fun h h' le => ?_, fun h copy => ?_, fun h h' le copy => ?_⟩
  · obtain ⟨k, n, e, rfl, rfl⟩ := back h
    obtain ⟨u, hu, rfl⟩ := mem_map.1 (Link.targets_map _ _ ▸ ht)
    obtain ⟨m, hm, parent⟩ := conn.links (mem_of_getElem? e) u hu
    exact ⟨_, ofDraft_found conn.distinct hm, mem_map_of_mem parent⟩
  · obtain ⟨k, n, e, -, rfl⟩ := back h
    obtain ⟨k', n', e', -, rfl⟩ := back h'
    exact pairwise_getElem? conn.ordered (fun _ => Nat.le_refl _) e e' le
  · obtain ⟨k, n, e, rfl, rfl⟩ := back h
    obtain ⟨i, p, parents, hp, link⟩ :=
      conn.copies (mem_of_getElem? e) (Link.isCopy_map _ _ ▸ copy)
    refine ⟨d.position i, _, ?_, ofDraft_found conn.distinct hp, ?_⟩
    · rw [renumber, parents]
      rfl
    · rw [renumber, link]
      rfl
  · obtain ⟨k, n, e, -, rfl⟩ := back h
    obtain ⟨k', n', e', -, rfl⟩ := back h'
    rw [renumber, Link.isCopy_map] at copy ⊢
    exact pairwise_getElem? conn.copiesLast (fun _ => id) e e' le copy

end

end Decompiler.Flow
