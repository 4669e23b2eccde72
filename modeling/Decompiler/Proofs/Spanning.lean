import Decompiler.Proofs.FlowGraph

/-!
# What the nodes of a flow graph are reached by

A visit gives a node no other parents than the nodes that go to it, and takes in no node that
cannot be reached. Copies of a return keep both.
-/

namespace Decompiler.Flow

open Asm List Option
open Relation (ReflTransGen)

lemma Link.targets_addCase (case : Nat) (link : Link) :
    link.targets ⊆ (link.addCase case).targets := by
  cases link with
  | select cases => exact subset_append_left cases [case]
  | _ => exact Subset.refl _

namespace Draft

def Edge (d : Draft) (i j : Nat) : Prop :=
  ∃ n, d.lookup i = some n ∧ j ∈ n.link.targets

def Backed (d : Draft) : Prop :=
  ∀ {i n}, d.lookup i = some n → ∀ p ∈ n.parents, d.Edge p i

structure Explored (k : Nat) (d d' : Draft) : Prop where
  edges : ∀ {i j}, d.Edge i j → d'.Edge i j
  backed : d.Backed → d'.Backed
  reached : ∀ {i n}, d.lookup i = none → d'.lookup i = some n → ReflTransGen d'.Edge k i

variable {d d1 d2 d' : Draft} {i k t p : Nat} {n : Node}

lemma edge_addParent : (d.addParent t p).Edge = d.Edge := by
  funext i j
  unfold Edge
  rw [addParent_eq, lookup_alter]
  apply propext
  constructor
  · rintro ⟨_, e, mem⟩
    obtain ⟨n, found, rfl⟩ := map_eq_some_iff.1 e
    refine ⟨n, found, ?_⟩
    split at mem <;> exact mem
  · rintro ⟨n, found, mem⟩
    rw [found]
    refine ⟨_, rfl, ?_⟩
    split <;> exact mem

lemma edge_ensureParent : (d.ensureParent t p).Edge = d.Edge := by
  unfold ensureParent
  split
  · split
    · rfl
    · exact edge_addParent
  · rfl

lemma Edge.addCase (h : d.Edge i j) : (d.addCase k t).Edge i j := by
  obtain ⟨n, found, mem⟩ := h
  unfold Edge
  rw [addCase_eq, lookup_alter, found]
  refine ⟨_, rfl, ?_⟩
  split
  · exact Link.targets_addCase _ _ mem
  · exact mem

lemma edge_addCase (found : d.lookup k = some n) (link : n.link = .select cases) :
    (d.addCase k t).Edge k t := by
  unfold Edge
  rw [addCase_eq, lookup_alter, found]
  refine ⟨_, rfl, ?_⟩
  dsimp only
  rw [if_pos (beq_self_eq_true k), link]
  exact mem_append_right _ (mem_singleton_self t)

namespace Explored

lemma refl : Explored k d d where
  edges h := h
  backed h := h
  reached new found := by simp [new] at found

lemma trans (h : Explored k d d1) (h' : Explored k d1 d2) : Explored k d d2 where
  edges edge := h'.edges (h.edges edge)
  backed all := h'.backed (h.backed all)
  reached {i n} new found := by
    cases old : d1.lookup i with
    | none => exact h'.reached old found
    | some m => exact ReflTransGen.mono (fun _ _ => h'.edges) _ _ (h.reached new old)

lemma from_parent (h : Explored t d d') (edge : d'.Edge k t) : Explored k d d' :=
  { h with reached := fun new found => .head edge (h.reached new found) }

lemma add (parents : n.parents = []) : Explored k d (d ++ [(k, n)]) := by
  have edges {i j} (h : d.Edge i j) : (d ++ [(k, n)]).Edge i j := by
    obtain ⟨m, found, mem⟩ := h
    exact ⟨m, lookup_added_old found, mem⟩
  refine ⟨edges, fun all i m found p mem => ?_, fun new' found => ?_⟩
  · cases old : d.lookup i with
    | some m' =>
      cases (lookup_added_old old).symm.trans found
      exact edges (all old p mem)
    | none =>
      obtain ⟨-, rfl⟩ := eq_of_lookup_added old found
      simp [parents] at mem
  · rw [(eq_of_lookup_added new' found).1]

lemma addParent (edge : d.Edge p t) : Explored k d (d.addParent t p) := by
  refine ⟨fun h => by rwa [edge_addParent], fun all i m found q mem => ?_, fun new found => ?_⟩
  · rw [edge_addParent]
    rw [addParent_eq, lookup_alter] at found
    obtain ⟨m', old, rfl⟩ := map_eq_some_iff.1 found
    split at mem
    case isTrue same =>
      rcases mem_append.1 mem with mem | mem
      · exact all old q mem
      · obtain rfl := mem_singleton.1 mem
        exact eq_of_beq same ▸ edge
    case isFalse => exact all old q mem
  · rw [addParent_eq, lookup_alter, new] at found
    cases found

lemma ensureParent (edge : d.Edge p t) : Explored k d (d.ensureParent t p) := by
  unfold Draft.ensureParent
  split
  · split
    · exact refl
    · exact addParent edge
  · exact refl

lemma addCase : Explored k d (d.addCase i t) := by
  refine ⟨Edge.addCase, fun all j m found q mem => ?_, fun new found => ?_⟩
  · rw [addCase_eq, lookup_alter] at found
    obtain ⟨m', old, rfl⟩ := map_eq_some_iff.1 found
    apply Edge.addCase
    apply all old
    split at mem <;> exact mem
  · rw [addCase_eq, lookup_alter, new] at found
    cases found

end Explored

end Draft

section

variable {blocks : Array Block} {rodata : Rodata} {depth k : Nat} {d d1 d' : Draft}

lemma Selects.explored (h : Selects blocks rodata depth k d1 d')
    (ih : ∀ {t d d'}, visit blocks rodata depth t d = .ok d' → Draft.Explored t d d')
    (here : ∃ n cases, d1.lookup k = some n ∧ n.link = .select cases) :
    Draft.Explored k d1 d' := by
  induction h with
  | done => exact .refl
  | @case d1 d2 d' t v _ ih' =>
    obtain ⟨n, cases, found, link⟩ := here
    obtain ⟨n2, found2, -, link2, -⟩ := (visit_visited v).grown.keeps found
    have edge : (d2.addCase k t).Edge k t := Draft.edge_addCase found2 (link2.trans link)
    have case : Draft.Explored k d1 ((d2.addCase k t).ensureParent t k) := by
      apply (((ih v).trans .addCase).trans (.ensureParent edge)).from_parent
      rwa [Draft.edge_ensureParent]
    refine case.trans (ih' ?_)
    obtain ⟨n3, found3, link3⟩ := exists_selected found2 (link2.trans link)
    exact ⟨n3, _, found3, link3⟩

lemma visit_explored (h : visit blocks rodata depth k d = .ok d') : Draft.Explored k d d' := by
  induction depth generalizing k d d' with
  | zero => cases h
  | succ depth ih =>
    rcases visit_enters h with ⟨-, rfl⟩ | ⟨new, block, -, enters⟩
    · exact .refl
    · have goes {n : Node} {t} (mem : t ∈ n.link.targets) : (d ++ [(k, n)]).Edge k t :=
        ⟨n, Draft.lookup_added new, mem⟩
      cases enters with
      | @next goto t d1 v =>
        have edge : d1.Edge k t := (ih v).edges (goes (mem_singleton_self t))
        exact ((Draft.Explored.add rfl).trans ((ih v).from_parent edge)).trans (.addParent edge)
      | @branch goto t f d1 d2 v1 v2 =>
        have target : d1.Edge k t := (ih v1).edges (goes mem_cons_self)
        have fall : d2.Edge k f :=
          (ih v2).edges ((ih v1).edges (goes (mem_cons_of_mem _ (mem_singleton_self f))))
        have both := ((Draft.Explored.add rfl).trans ((ih v1).from_parent target)).trans
          ((ih v2).from_parent fall)
        refine (both.trans (.addParent ((ih v2).edges target))).trans (.addParent ?_)
        rwa [Draft.edge_addParent]
      | exit => exact .add rfl
      | select selects =>
        exact (Draft.Explored.add rfl).trans
          (selects.explored ih ⟨_, [], Draft.lookup_added new, rfl⟩)

end

namespace Draft

structure Spanned (d : Draft) : Prop where
  backed : d.Backed
  reached : ∀ {i n}, (i, n) ∈ d → ReflTransGen d.Edge 0 i
  first : ∃ n rest, d = (0, n) :: rest ∧ n.block.index = 0

variable {d : Draft} {i : Nat}

lemma edge_iff (distinct : (d.map Prod.fst).Nodup) :
    d.Edge i j ↔ ∃ n, (i, n) ∈ d ∧ j ∈ n.link.targets := by
  unfold Edge
  simp only [mem_iff_lookup distinct]

end Draft

/-- The nodes that are visited are reached, each by its parents. -/
lemma reachableNodes_spanned {blocks rodata d} (numbered : Numbered blocks)
    (h : reachableNodes blocks rodata = .ok d) : d.Spanned := by
  obtain ⟨d0, v, distinct, mem, sorted⟩ := reachableNodes_sorted h
  have visited := visit_visited v
  have explored := visit_explored v
  have same (i : Nat) : d.lookup i = d0.lookup i := by
    ext n
    rw [← mem_iff_lookup distinct, mem]
  have edges : d.Edge = d0.Edge := by
    unfold Draft.Edge
    simp only [same]
  refine ⟨fun found p parent => ?_, fun found => ?_, ?_⟩
  · rw [edges]
    rw [same] at found
    exact explored.backed (fun none => by cases none) found p parent
  · rw [edges]
    exact explored.reached rfl (mem.1 found)
  · obtain ⟨n, entry⟩ := visited.found
    cases d with
    | nil => cases mem.2 entry
    | cons e rest =>
      -- The entry is among the nodes, and the first of them has no greater number.
      have zero : e.1 = 0 := by
        rcases mem_cons.1 (mem.2 entry) with here | behind
        · exact (congrArg Prod.fst here).symm
        · exact Nat.le_zero.1 ((pairwise_cons.1 sorted).1 _ behind)
      obtain ⟨k, m⟩ := e
      cases zero
      refine ⟨m, rest, rfl, ?_⟩
      exact numbered 0 m.block (reachableNodes_block h mem_cons_self).1

section

variable {fresh last : Nat} {exit : Node} {d : Draft}

lemma earlyReturns_next (h : d.getLast? = some (last, exit)) (mem : i ∈ earlyReturns d) :
    exit.isExit ∧ ∃ n, (i, n) ∈ d ∧ n.link = .next last := by
  unfold earlyReturns at mem
  split at mem
  case h_1 last' exit' beforeLast _ rest e =>
    have same : (last', exit') = (last, exit) := by
      rw [getLast?_eq_head?_reverse, e] at h
      exact some.inj h
    cases same
    split at mem
    case isTrue simple =>
      obtain ⟨⟨j, n⟩, old, chosen⟩ := mem_filterMap.1 mem
      obtain ⟨link, eq⟩ := ite_none_right_eq_some.1 chosen
      cases eq
      simp only [Bool.and_eq_true, beq_iff_eq] at link simple
      exact ⟨simple.1, n, old, link.1.1⟩
    case isFalse => cases mem
  · cases mem

lemma Node.targets_of_isExit {n : Node} (h : n.isExit) : n.link.targets = [] := by
  unfold isExit at h
  split at h
  case h_1 link => rw [link]; rfl
  case h_2 => cases h

lemma copyReturns_of_none (conn : d.Connected) (none : earlyReturns d = []) :
    copyReturns fresh d = d := by
  cases h : d.getLast? with
  | none => rw [copyReturns, h]
  | some final =>
    obtain ⟨last, exit⟩ := final
    have same : withCopies fresh last exit d = d := by
      have relinked (e : Nat × Node) : relink fresh last exit [] e = e := by
        simp [relink, returnCopies]
      rw [withCopies, none]
      exact (append_nil _).trans ((map_congr_left fun e _ => relinked e).trans d.map_id)
    rw [copyReturns_eq h, same, mergeSort_of_pairwise (by simpa using conn.ordered)]
    cases d with
    | nil => rfl
    | cons first rest =>
      refine congrArg (first :: ·) (filter_eq_self.2 fun e mem => ?_)
      simpa using conn.parents e mem

structure Returning (fresh last : Nat) (exit : Node) (d : Draft) : Prop where
  conn : d.Connected
  plain : ∀ e ∈ d, e.1 < fresh ∧ e.2.link.isCopy = false
  spanned : d.Spanned
  final : d.getLast? = some (last, exit)
  returns : exit.isExit

namespace Returning

variable {i : Nat} {n m : Node} {e : Nat × Node}

section

variable (ret : Returning fresh last exit d)

include ret

lemma connected : (copyReturns fresh d).Connected :=
  copyReturns_connected ret.conn ret.plain

lemma eq_of_mem (h : (i, n) ∈ d) (h' : (i, m) ∈ d) : n = m :=
  congrArg Prod.snd (inj_on_of_nodup_map ret.conn.distinct h h' rfl)

lemma edge_iff : d.Edge i j ↔ ∃ n, (i, n) ∈ d ∧ j ∈ n.link.targets :=
  Draft.edge_iff ret.conn.distinct

lemma edge_iff_copied :
    (copyReturns fresh d).Edge i j ↔ ∃ n, (i, n) ∈ copyReturns fresh d ∧ j ∈ n.link.targets :=
  Draft.edge_iff ret.connected.distinct

lemma ne_last (edge : d.Edge i j) : i ≠ last := by
  rintro rfl
  obtain ⟨n, mem, target⟩ := ret.edge_iff.1 edge
  cases ret.eq_of_mem mem (mem_of_getLast? ret.final)
  simp [Node.targets_of_isExit ret.returns] at target

lemma edge_early (mem : i ∈ earlyReturns d) : d.Edge i j ↔ j = last := by
  obtain ⟨-, n, old, link⟩ := earlyReturns_next ret.final mem
  rw [ret.edge_iff]
  constructor
  · rintro ⟨m, old', target⟩
    cases ret.eq_of_mem old old'
    rw [link] at target
    exact mem_singleton.1 target
  · rintro rfl
    exact ⟨n, old, link ▸ mem_singleton_self j⟩

lemma mem_iff : e ∈ copyReturns fresh d ↔ e ∈ withCopies fresh last exit d ∧
      ((withCopies fresh last exit d).head? = some e ∨ e.2.parents ≠ []) := by
  have ordered : (withCopies fresh last exit d).Pairwise _ := withCopies_ordered ret.conn ret.final
  rw [copyReturns_eq ret.final, mergeSort_of_pairwise (by simpa using ordered)]
  cases withCopies fresh last exit d with
  | nil => simp
  | cons first rest =>
    simp only [mem_cons, mem_filter, head?_cons, some.injEq]
    constructor
    · rintro (rfl | ⟨mem, parents⟩)
      · exact ⟨.inl rfl, .inl rfl⟩
      · exact ⟨.inr mem, .inr (by simpa using parents)⟩
    · rintro ⟨same | mem, first | parents⟩
      · exact .inl same
      · exact .inl same
      · exact .inl first.symm
      · exact .inr ⟨mem, by simpa using parents⟩

lemma mem_old (mem : e ∈ d) (ne : e.1 ≠ last) :
    ∃ e' ∈ copyReturns fresh d, Relinked fresh last exit (earlyReturns d) e e' := by
  obtain ⟨e', eq, relinked⟩ := relink_relinked fresh last exit (earlyReturns d) e
  refine ⟨e', ret.mem_iff.2 ⟨mem_withCopies.2 (.inl ⟨e, mem, eq⟩), ?_⟩, relinked⟩
  cases d with
  | nil => cases mem
  | cons first rest =>
    rcases mem_cons.1 mem with rfl | mem
    · exact .inl (congrArg some eq)
    · obtain ⟨p, parent⟩ := exists_mem_of_ne_nil _ (ret.conn.parents e mem)
      cases relinked with
      | early => exact .inr (ne_nil_of_mem parent)
      | other _ parents =>
        exact .inr (ne_nil_of_mem ((parents p).2 ⟨parent, fun same => absurd same ne⟩))

lemma mem_copy
    (mem : (i, e) ∈ returnCopies fresh exit (earlyReturns d)) : e ∈ copyReturns fresh d := by
  rw [ret.mem_iff]
  refine ⟨mem_withCopies.2 (.inr ⟨i, mem⟩), .inr ?_⟩
  obtain ⟨-, -, -, -, -, parents⟩ := mem_returnCopies mem
  rw [parents]
  exact cons_ne_nil _ _

lemma edge_other (other : i ∉ earlyReturns d) : (copyReturns fresh d).Edge i j ↔ d.Edge i j := by
  constructor
  · intro edge
    obtain ⟨n, mem, target⟩ := ret.edge_iff_copied.1 edge
    rcases withCopies_cases (ret.mem_iff.1 mem).1 with ⟨e, old, relinked⟩ | ⟨_, copy⟩
    · cases relinked with
      | early copy => exact absurd (mem_returnCopies copy).1 other
      | other => exact ret.edge_iff.2 ⟨_, old, target⟩
    · obtain ⟨-, -, -, -, none, -⟩ := mem_returnCopies copy
      simp [none] at target
  · intro edge
    obtain ⟨n, mem, target⟩ := ret.edge_iff.1 edge
    obtain ⟨e', kept, relinked⟩ := ret.mem_old mem (ret.ne_last edge)
    cases relinked with
    | early copy => exact absurd (mem_returnCopies copy).1 other
    | other => exact ret.edge_iff_copied.2 ⟨_, kept, target⟩

lemma edge_copy (mem : i ∈ earlyReturns d) : (copyReturns fresh d).Edge i j ↔
      ∃ m, (i, j, m) ∈ returnCopies fresh exit (earlyReturns d) := by
  have edge : d.Edge i last := (ret.edge_early mem).2 rfl
  obtain ⟨n, old, -⟩ := ret.edge_iff.1 edge
  obtain ⟨e', kept, relinked⟩ := ret.mem_old old (ret.ne_last edge)
  rw [ret.edge_iff_copied]
  cases relinked with
  | other other => exact absurd mem other
  | early copy =>
    constructor
    · rintro ⟨n', mem', target⟩
      cases inj_on_of_nodup_map ret.connected.distinct kept mem' rfl
      obtain rfl := mem_singleton.1 target
      exact ⟨_, copy⟩
    · rintro ⟨m', copy'⟩
      cases returnCopies_unique ret.conn.distinct copy copy'
      exact ⟨_, kept, mem_singleton_self _⟩

lemma backed : (copyReturns fresh d).Backed := by
  intro t m found p parent
  rw [← mem_iff_lookup ret.connected.distinct] at found
  rcases withCopies_cases (ret.mem_iff.1 found).1 with ⟨⟨u, n⟩, old, relinked⟩ | ⟨i, copy⟩
  · have edge (parent : p ∈ n.parents) : d.Edge p u :=
      ret.spanned.backed ((mem_iff_lookup ret.conn.distinct).1 old) p parent
    have notEarly (other : t = last → p ∉ earlyReturns d) (edge : d.Edge p t) :
        p ∉ earlyReturns d := fun early => other ((ret.edge_early early).1 edge) early
    cases relinked with
    | early copy =>
      have same := (ret.edge_early (mem_returnCopies copy).1).2 rfl
      refine (ret.edge_other (notEarly (fun last => ?_) (edge parent))).2 (edge parent)
      exact absurd last (ret.ne_last same)
    | other _ parents =>
      obtain ⟨parent, other⟩ := (parents p).1 parent
      exact (ret.edge_other (notEarly other (edge parent))).2 (edge parent)
  · obtain ⟨early, -, -, -, -, parents⟩ := mem_returnCopies copy
    rw [parents] at parent
    obtain rfl := mem_singleton.1 parent
    exact (ret.edge_copy early).2 ⟨m, copy⟩

lemma reached_old (h : ReflTransGen d.Edge 0 i)
    (ne : i ≠ last) : ReflTransGen (copyReturns fresh d).Edge 0 i := by
  induction h with
  | refl => exact .refl
  | tail _ edge ih =>
    refine (ih (ret.ne_last edge)).tail ((ret.edge_other fun early => ne ?_).2 edge)
    exact (ret.edge_early early).1 edge

lemma reached (mem : (i, n) ∈ copyReturns fresh d) :
    ReflTransGen (copyReturns fresh d).Edge 0 i := by
  have parent {p} (edge : d.Edge p last) : ReflTransGen (copyReturns fresh d).Edge 0 p := by
    obtain ⟨m, old, -⟩ := ret.edge_iff.1 edge
    exact ret.reached_old (ret.spanned.reached old) (ret.ne_last edge)
  obtain ⟨mem, stays⟩ := ret.mem_iff.1 mem
  rcases mem_withCopies.1 mem with ⟨⟨u, m⟩, old, eq⟩ | ⟨p, copy⟩
  · obtain rfl : i = u :=
      (congrArg Prod.fst eq).symm.trans (relink_same fresh last exit _ (u, m)).1
    by_cases same : i = last
    · subst same
      rcases stays with first | parents
      · -- The entry is reached in any case.
        obtain ⟨n0, rest, rfl, -⟩ := ret.spanned.first
        have zero := (relink_same fresh i exit (earlyReturns ((0, n0) :: rest)) (0, n0)).1
        rw [some.inj first] at zero
        cases zero
        exact .refl
      · obtain ⟨p, parent'⟩ := exists_mem_of_ne_nil _ parents
        have kept := ret.mem_iff.2 ⟨mem, .inr parents⟩
        have edge := ret.backed ((mem_iff_lookup ret.connected.distinct).1 kept) p parent'
        by_cases early : p ∈ earlyReturns d
        · exact (parent ((ret.edge_early early).2 rfl)).tail edge
        · exact (parent ((ret.edge_other early).1 edge)).tail edge
    · exact ret.reached_old (ret.spanned.reached old) same
  · obtain ⟨early, -⟩ := mem_returnCopies copy
    exact (parent ((ret.edge_early early).2 rfl)).tail ((ret.edge_copy early).2 ⟨n, copy⟩)

lemma copied_spanned : (copyReturns fresh d).Spanned := by
  refine ⟨ret.backed, ret.reached, ?_⟩
  have ordered : (withCopies fresh last exit d).Pairwise _ := withCopies_ordered ret.conn ret.final
  rw [copyReturns_eq ret.final, mergeSort_of_pairwise (by simpa using ordered)]
  obtain ⟨n, rest, rfl, zero⟩ := ret.spanned.first
  obtain ⟨key, block, -⟩ := relink_same fresh last exit (earlyReturns ((0, n) :: rest)) (0, n)
  let entry := relink fresh last exit (earlyReturns ((0, n) :: rest)) (0, n)
  have split : entry = (0, entry.2) := Prod.ext key rfl
  exact ⟨entry.2, _, congrArg (· :: _) split, (congrArg Block.index block).trans zero⟩

end

end Returning

lemma copyReturns_cases (conn : d.Connected)
    (plain : ∀ e ∈ d, e.1 < fresh ∧ e.2.link.isCopy = false) (spanned : d.Spanned) :
    copyReturns fresh d = d ∨ ∃ last exit, Returning fresh last exit d := by
  cases early : earlyReturns d with
  | nil => exact .inl (copyReturns_of_none conn early)
  | cons i rest =>
    obtain ⟨n, others, rfl, -⟩ := spanned.first
    have final : ((0, n) :: others).getLast? = some _ := getLast?_cons
    have mem : i ∈ earlyReturns ((0, n) :: others) := early ▸ mem_cons_self
    exact .inr ⟨_, _, conn, plain, spanned, final, (earlyReturns_next final mem).1⟩

/-- Copying the return keeps all nodes reached. -/
lemma copyReturns_spanned (conn : d.Connected)
    (plain : ∀ e ∈ d, e.1 < fresh ∧ e.2.link.isCopy = false) (spanned : d.Spanned) :
    (copyReturns fresh d).Spanned := by
  rcases copyReturns_cases conn plain spanned with same | ⟨last, exit, ret⟩
  · rwa [same]
  · exact ret.copied_spanned

end

end Decompiler.Flow
