import Decompiler.Proofs.PointerCycles

/-!
# Types only get narrower

Whatever types are made and made equal, what is known about a type only grows: kinds and signs are
excluded, and a size is found. A pointer never turns into anything else.

Main statements: `develops_narrows`, `unify_refused_keeps`.
-/

namespace Decompiler.Infer

open Relation TypeStore TypeNode

namespace Kinds

variable {k l : Kinds} {size : Option Nat}

def Within (k l : Kinds) : Prop :=
  (k.int → l.int) ∧ (k.ptr → l.ptr) ∧ (k.float → l.float)

lemma Within.refl : k.Within k :=
  ⟨id, id, id⟩

lemma Within.trans (h : k.Within l) (h' : l.Within m) : k.Within m :=
  ⟨h'.1 ∘ h.1, h'.2.1 ∘ h.2.1, h'.2.2 ∘ h.2.2⟩

lemma inter_within_left : (k.inter l).Within k := by
  simp +contextual [Within, inter]

lemma inter_within_right : (k.inter l).Within l := by
  simp +contextual [Within, inter]

lemma ofSize_within : (k.ofSize size).Within k := by
  simp +contextual [Within, ofSize]

lemma eq_onlyPtr (h : k.Within .onlyPtr) (left : k.isEmpty = false) : k = .onlyPtr := by
  obtain ⟨int, ptr, float⟩ := k
  cases int <;> cases ptr <;> cases float <;> simp_all [Within, onlyPtr, isEmpty]

lemma eq_onlyInt (h : k.Within .onlyInt) (left : k.isEmpty = false) : k = .onlyInt := by
  obtain ⟨int, ptr, float⟩ := k
  cases int <;> cases ptr <;> cases float <;> simp_all [Within, onlyInt, isEmpty]

lemma size_of_ofSize_eq_onlyPtr (h : k.ofSize size = .onlyPtr) :
    size ≠ some 8 ∧ size ≠ some 16 ∧ size ≠ some 64 := by
  have ptr := congrArg ptr h
  simp [ofSize, onlyPtr] at ptr
  tauto

end Kinds

namespace Signs

variable {s t : Signs}

def Within (s t : Signs) : Prop :=
  (s.signed → t.signed) ∧ (s.unsigned → t.unsigned)

lemma Within.refl : s.Within s :=
  ⟨id, id⟩

lemma Within.trans (h : s.Within t) (h' : t.Within u) : s.Within u :=
  ⟨h'.1 ∘ h.1, h'.2 ∘ h.2⟩

lemma inter_within_left : (s.inter t).Within s := by
  simp +contextual [Within, inter]

lemma inter_within_right : (s.inter t).Within t := by
  simp +contextual [Within, inter]

lemma within_all : s.Within .all := by
  simp [Within, all]

end Signs

namespace TypeNode

variable {n n' x y common : TypeNode}

structure Sound (n : TypeNode) : Prop where
  kinds : n.kinds.isEmpty = false
  signs : n.signs.isEmpty = false
  sizes : ∀ k, n.size = some k → k = 8 ∨ k = 16 ∨ k = 32 ∨ k = 64
  pointer : n.kinds = .onlyPtr → n.size = some 32
  target : n.target ≠ none → n.kinds = .onlyPtr
  sign : n.signs ≠ .all → n.kinds = .onlyInt

structure Narrows (n n' : TypeNode) : Prop where
  kinds : n'.kinds.Within n.kinds
  signs : n'.signs.Within n.signs
  size : ∀ k, n.size = some k → n'.size = some k

lemma Narrows.refl : n.Narrows n :=
  ⟨.refl, .refl, fun _ h => h⟩

lemma Narrows.trans (h : n.Narrows n') (h' : n'.Narrows n'') : n.Narrows n'' :=
  ⟨h'.kinds.trans h.kinds, h'.signs.trans h.signs, fun k e => h'.size k (h.size k e)⟩

lemma Sound.signs_of_pointer (h : n.Sound) (ptr : n.kinds = .onlyPtr) : n.signs = .all := by
  by_contra signs
  cases ptr.symm.trans (h.sign signs)

lemma Sound.expected (h : n.Sound) : (n.signs == .all || n.kinds == .onlyInt) := by
  by_cases all : n.signs = .all
  · simp [all]
  · simp [h.sign all]

lemma Sound.narrows_of_pointer (h : n.Sound) (h' : n'.Sound) (ptr : n.kinds = .onlyPtr)
    (ptr' : n'.kinds = .onlyPtr) : n.Narrows n' where
  kinds := by
    rw [ptr, ptr']
    exact .refl
  signs := by
    rw [h.signs_of_pointer ptr]
    exact Signs.within_all
  size k e := by
    rw [h'.pointer ptr', ← h.pointer ptr, e]

lemma Narrows.pointer (h : n.Narrows n') (sound : n'.Sound) (ptr : n.kinds = .onlyPtr) :
    n'.kinds = .onlyPtr :=
  Kinds.eq_onlyPtr (ptr ▸ h.kinds) sound.kinds

lemma Narrows.int (h : n.Narrows n') (left : n'.kinds.isEmpty = false) (int : n.kinds = .onlyInt) :
    n'.kinds = .onlyInt :=
  Kinds.eq_onlyInt (int ▸ h.kinds) left

namespace Meets

variable (h : Meets x y common)

include h

lemma size_eq (sizes : k = 8 ∨ k = 16 ∨ k = 32 ∨ k = 64) (known : x.size = some k ∨ y.size = some k) :
    common.size = some k := by
  have both : (x.size <|> y.size) = some k := by
    rcases known with known | known
    · rw [known]
      rfl
    · cases e : x.size with
      | none => exact known
      | some l =>
        cases h.agree l k e known
        rfl
  rw [h.size]
  split
  case isFalse => exact both
  case isTrue ptr =>
    have words := Kinds.size_of_ofSize_eq_onlyPtr (h.kinds.symm.trans ptr)
    rw [both] at words
    simp only [ne_eq, Option.some.injEq] at words
    have : k = 32 := by tauto
    rw [this]

lemma narrows_left (sound : x.Sound) : x.Narrows common where
  kinds := h.kinds ▸ Kinds.ofSize_within.trans Kinds.inter_within_left
  signs := h.signs ▸ Signs.inter_within_left
  size k e := h.size_eq (sound.sizes k e) (.inl e)

lemma narrows_right (sound : y.Sound) : y.Narrows common where
  kinds := h.kinds ▸ Kinds.ofSize_within.trans Kinds.inter_within_right
  signs := h.signs ▸ Signs.inter_within_right
  size k e := h.size_eq (sound.sizes k e) (.inr e)

lemma sound (hx : x.Sound) (hy : y.Sound) : common.Sound where
  kinds := h.kinds_left
  signs := h.signs_left
  sizes k e := by
    rw [h.size] at e
    split at e
    · cases e
      simp
    · cases e' : x.size with
      | none =>
        rw [e'] at e
        exact hy.sizes k e
      | some l =>
        rw [e'] at e
        cases e
        exact hx.sizes _ e'
  pointer ptr := by rw [h.size, if_pos ptr]
  target some := by
    have : x.target ≠ none ∨ y.target ≠ none := by
      by_contra none
      push Not at none
      exact some (by rw [h.target, none.1, none.2]; rfl)
    rcases this with left | right
    · exact Kinds.eq_onlyPtr (hx.target left ▸ (h.narrows_left hx).kinds) h.kinds_left
    · exact Kinds.eq_onlyPtr (hy.target right ▸ (h.narrows_right hy).kinds) h.kinds_left
  sign one := by
    have : x.signs ≠ .all ∨ y.signs ≠ .all := by
      by_contra all
      push Not at all
      exact one (by rw [h.signs, all.1, all.2]; rfl)
    rcases this with left | right
    · exact (h.narrows_left hx).int h.kinds_left (hx.sign left)
    · exact (h.narrows_right hy).int h.kinds_left (hy.sign right)

end Meets

/-- The nodes that types start with. -/
inductive Constructed : TypeNode → Prop
  | any :
    Constructed .any
  | ofSize {size} :
    size = 8 ∨ size = 16 ∨ size = 32 ∨ size = 64 →
    Constructed (.ofSize size)
  | integer :
    Constructed .integer
  | intOrPtr :
    Constructed .intOrPtr
  | wordOrPtr :
    Constructed .wordOrPtr
  | pointer {target} :
    Constructed (.pointer target)
  | float :
    Constructed .float
  | single :
    Constructed .single
  | double :
    Constructed .double
  | signed {size} :
    size = 8 ∨ size = 16 ∨ size = 32 ∨ size = 64 →
    Constructed (.signed size)
  | unsigned {size} :
    size = 8 ∨ size = 16 ∨ size = 32 ∨ size = 64 →
    Constructed (.unsigned size)
  | long :
    Constructed .long
  | truth :
    Constructed .truth

lemma sound_of_untargeted (kinds : n.kinds.isEmpty = false) (signs : n.signs.isEmpty = false)
    (sizes : ∀ k, n.size = some k → k = 8 ∨ k = 16 ∨ k = 32 ∨ k = 64) (target : n.target = none)
    (ptr : n.kinds ≠ .onlyPtr) (sign : n.signs = .all ∨ n.kinds = .onlyInt) : n.Sound where
  kinds := kinds
  signs := signs
  sizes := sizes
  pointer ptr' := absurd ptr' ptr
  target some := absurd target some
  sign one := sign.resolve_left one

lemma any_sound : any.Sound :=
  sound_of_untargeted rfl rfl nofun rfl nofun (.inl rfl)

lemma pointer_sound {target} : (pointer target).Sound :=
  ⟨rfl, rfl, fun k e => by cases e; simp, fun _ => rfl, fun _ => rfl, absurd rfl⟩

lemma any_narrows : any.Narrows n :=
  ⟨⟨fun _ => rfl, fun _ => rfl, fun _ => rfl⟩, Signs.within_all, nofun⟩

lemma Constructed.parent (h : Constructed n) : n.parent = none := by
  cases h <;> rfl

lemma Constructed.sound (h : Constructed n) : n.Sound := by
  cases h with
  | any => exact any_sound
  | pointer => exact pointer_sound
  | intOrPtr | float => exact sound_of_untargeted rfl rfl nofun rfl nofun (.inl rfl)
  | integer | truth => exact sound_of_untargeted rfl rfl nofun rfl nofun (.inr rfl)
  | wordOrPtr | single | double | long =>
    exact sound_of_untargeted rfl rfl (fun k e => by cases e; simp) rfl nofun (.inl rfl)
  | ofSize sizes =>
    exact sound_of_untargeted rfl rfl (fun k e => by cases e; exact sizes) rfl nofun (.inl rfl)
  | signed sizes | unsigned sizes =>
    exact sound_of_untargeted rfl rfl (fun k e => by cases e; exact sizes) rfl nofun (.inr rfl)

lemma constructed_of_words {names : List String}
    (h : (if names.contains "double" then pure .double
      else if names.contains "float" then pure .single
      else if 8 * (C.wordsSize names).toNat == 0 then pure .any
      else pure (if names.contains "unsigned" then .unsigned (8 * (C.wordsSize names).toNat)
        else .signed (8 * (C.wordsSize names).toNat)) : Except Failure TypeNode) = .ok n) :
    Constructed n ∧ ∀ u, n.target ≠ some (.type u) := by
  split at h
  · cases h
    exact ⟨.double, nofun⟩
  split at h
  · cases h
    exact ⟨.single, nofun⟩
  split at h
  · cases h
    exact ⟨.any, nofun⟩
  case isFalse nonzero =>
    have sizes : 8 * (C.wordsSize names).toNat = 8 ∨ 8 * (C.wordsSize names).toNat = 16 ∨
        8 * (C.wordsSize names).toNat = 32 ∨ 8 * (C.wordsSize names).toNat = 64 := by
      revert nonzero
      unfold C.wordsSize
      split_ifs <;> simp
    cases h
    split
    · exact ⟨.unsigned sizes, nofun⟩
    · exact ⟨.signed sizes, nofun⟩

lemma constructed_of_declared (h : ofDeclared t m = .ok n) :
    Constructed n ∧ ∀ u, n.target ≠ some (.type u) := by
  obtain ⟨t', -, h⟩ := bind_ok h
  split at h
  case h_6 | h_7 => exact constructed_of_words h
  case h_1 | h_2 | h_3 =>
    cases h
    exact ⟨.pointer, nofun⟩
  case h_4 | h_8 =>
    cases h
    exact ⟨.any, nofun⟩
  case h_5 =>
    cases h
    exact ⟨.signed (by simp), nofun⟩

end TypeNode

namespace TypeStore

variable {s s0 s1 s' : TypeStore} {common : TypeNode}

def Sound (s : TypeStore) : Prop :=
  ∀ t, (s.known t).Sound

structure Narrows (s s' : TypeStore) : Prop where
  sound : s'.Sound
  narrows : ∀ t, (s.known t).Narrows (s'.known t)

lemma Narrows.refl (sound : s.Sound) : Narrows s s :=
  ⟨sound, fun _ => .refl⟩

lemma Narrows.of_each (each : ∀ t, (s'.known t).Sound ∧ (s.known t).Narrows (s'.known t)) :
    Narrows s s' :=
  ⟨fun t => (each t).1, fun t => (each t).2⟩

lemma Narrows.trans (h : Narrows s s1) (h' : Narrows s1 s') : Narrows s s' :=
  ⟨h'.sound, fun t => (h.narrows t).trans (h'.narrows t)⟩

lemma known_of_le (wf : s.WellFormed) (le : s.nodes.size ≤ t) : s.known t = .any := by
  rw [known, wf.root_of_le le, node_of_le le]

lemma Extends.narrows (h : Extends s s') (wf : s.WellFormed) (wf' : s'.WellFormed)
    (sound : s.Sound) : Narrows s s' := by
  constructor
  · intro t
    by_cases lt : t < s.nodes.size
    · rw [h.known wf lt]
      exact sound t
    have le := Nat.le_of_not_lt lt
    by_cases lt' : t < s'.nodes.size
    · obtain ⟨c, node⟩ := h.fresh t le lt'
      rw [known, h.root, wf.root_of_le le, node]
      exact pointer_sound
    · rw [known_of_le wf' (Nat.le_of_not_lt lt')]
      exact any_sound
  · intro t
    by_cases lt : t < s.nodes.size
    · rw [h.known wf lt]
      exact .refl
    · rw [known_of_le wf (Nat.le_of_not_lt lt)]
      exact any_narrows

section

variable (ltx : x < s.nodes.size) (lty : y < s.nodes.size) (ne : x ≠ y)
  (wf : s.WellFormed) (wf' : (s.link x y common).WellFormed)

include ltx lty ne wf wf'

lemma root_link_cases (t : TypeId) : (s.link x y common).root t = s.root t ∨
    s.root t = s.root y ∧ (s.link x y common).root t = s.root x := by
  obtain ⟨top, way⟩ := wf'.root_spec t
  generalize (s.link x y common).root t = r at top way
  -- On the way up to the new representative, only the step from `y` to `x` is new.
  induction way using ReflTransGen.head_induction_on with
  | refl =>
    rw [isRoot_link ltx lty ne] at top
    exact .inl (wf.root_of_isRoot top.2).symm
  | @head v p step _ ih =>
    rw [parent_link ltx lty ne] at step
    split at step
    case isTrue same =>
      subst same step
      rcases ih with same | ⟨-, same⟩
      · exact .inr ⟨rfl, same⟩
      · exact .inr ⟨rfl, same⟩
    case isFalse =>
      rwa [wf.root_of_parent step]

omit wf in
lemma known_link (top : common.parent = none) (t : TypeId) :
    (s.link x y common).known t =
      if (s.link x y common).root t = x then common else s.node ((s.link x y common).root t) := by
  have top' := wf'.isRoot_root t
  rw [isRoot_link ltx lty ne] at top'
  rw [known, node_link ltx lty ne, if_neg top'.1]
  split
  case isTrue =>
    have same : (s.node ((s.link x y common).root t)).parent = common.parent :=
      top'.2.trans top.symm
    rw [same]
  case isFalse => rfl

lemma known_link_pointers (top : common.parent = none) (ptrc : common.kinds = .onlyPtr)
    (soundc : common.Sound) (sound : s.Sound) (ptrx : (s.known x).kinds = .onlyPtr)
    (ptry : (s.known y).kinds = .onlyPtr) (t : TypeId) :
    (s.link x y common).known t = s.known t ∨ ((s.link x y common).known t).Sound ∧
      ((s.link x y common).known t).kinds = .onlyPtr ∧ (s.known t).kinds = .onlyPtr := by
  rw [known_link ltx lty ne wf' top]
  rcases root_link_cases ltx lty ne wf wf' t with same | ⟨moved, same⟩
  · rw [same]
    split
    case isTrue here =>
      refine .inr ⟨soundc, ptrc, ?_⟩
      rwa [← here, known, wf.root_of_isRoot (wf.isRoot_root t)] at ptrx
    case isFalse => exact .inl rfl
  · have ptrt : (s.known t).kinds = .onlyPtr := by rwa [known, moved]
    rw [same]
    split
    case isTrue => exact .inr ⟨soundc, ptrc, ptrt⟩
    case isFalse => exact .inr ⟨sound x, ptrx, ptrt⟩

lemma known_link_roots (topx : s.IsRoot x) (topy : s.IsRoot y) (top : common.parent = none)
    (t : TypeId) : (s.link x y common).known t =
      if s.root t = x ∨ s.root t = y then common else s.known t := by
  rw [known_link ltx lty ne wf' top, root_link ltx lty ne wf wf' topx topy]
  by_cases right : s.root t = y
  · rw [if_pos right, if_pos rfl, if_pos (.inr right)]
  · simp only [right, or_false, if_false, known]

lemma narrows_link_roots (topx : s.IsRoot x) (topy : s.IsRoot y) (sound : s.Sound)
    (meets : Meets (s.node x) (s.node y) common) : Narrows s (s.link x y common) := by
  have known_top {z} (top : s.IsRoot z) : s.known z = s.node z := by
    rw [known, wf.root_of_isRoot top]
  have soundx := known_top topx ▸ sound x
  have soundy := known_top topy ▸ sound y
  refine .of_each fun t => ?_
  rw [known_link_roots ltx lty ne wf wf' topx topy meets.parent]
  split
  case isTrue here =>
    refine ⟨meets.sound soundx soundy, ?_⟩
    rcases here with left | right
    · rw [known, left]
      exact meets.narrows_left soundx
    · rw [known, right]
      exact meets.narrows_right soundy
  case isFalse => exact ⟨sound t, .refl⟩

end

/-- Where what two types point to has been made equal before, both are pointers, whatever has become
of them. -/
lemma known_link_targets (wf : s.WellFormed) (sound : s.Sound) (lta : a < s.nodes.size)
    (ltb : b < s.nodes.size) (ne : s.root a ≠ s.root b) (meet : s.common? a b = some common)
    (left : s.target? a ≠ none) (right : s.target? b ≠ none) (narrows : Narrows s s1)
    (size : s.nodes.size ≤ s1.nodes.size) (wf1 : s1.WellFormed)
    (wf' : (s1.link (s.root a) (s.root b) common).WellFormed) (t : TypeId) :
    (s1.link (s.root a) (s.root b) common).known t = s1.known t ∨
      ((s1.link (s.root a) (s.root b) common).known t).Sound ∧
      ((s1.link (s.root a) (s.root b) common).known t).kinds = .onlyPtr ∧
      (s1.known t).kinds = .onlyPtr := by
  have meets := meets_of_meet? meet
  have soundc := meets.sound (sound a) (sound b)
  have ptr {z} (target : s.target? z ≠ none) :
      (s1.known (s.root z)).kinds = .onlyPtr := by
    apply (narrows.narrows (s.root z)).pointer (narrows.sound _)
    rw [known, wf.root_of_isRoot (wf.isRoot_root z)]
    exact (sound z).target target
  exact known_link_pointers ((wf.root_lt lta).trans_le size) ((wf.root_lt ltb).trans_le size) ne wf1
    wf' meets.parent ((meets.narrows_left (sound a)).pointer soundc ((sound a).target left)) soundc
    narrows.sound (ptr left) (ptr right) t

lemma Behind.targets (h : Behind s old a b new p q) : s.target? a ≠ none ∧ s.target? b ≠ none := by
  cases h with
  | types left right | declaredRight left right _ | declaredLeft left right _ => simp [left, right]

/-- Merging a chain only narrows what is known. -/
lemma Chain.narrows (h : Chain s old a b ms) (ok : s.Bounded old) (placed : s.Placed old a b)
    (sound : s.Sound) : Narrows s (s.mergeAll ms) := by
  -- The merges behind the two types come first, and the induction is over them.
  induction h with
  | same _ => exact .refl sound
  | flat ne meet verdict =>
    exact narrows_link_roots (ok.root_lt placed.left) (ok.root_lt placed.right) ne ok.toWellFormed
      ((Chain.flat ne meet verdict).wellFormed ok placed) (ok.isRoot_root _) (ok.isRoot_root _) sound
      (meets_of_meet? meet)
  | deep ne meet behind rest ih =>
    have ok' := behind.bounded ok
    have placed' := behind.placed ok
    have narrows := ih ok' placed'
    have targets := behind.targets
    have whole := Chain.deep ne meet behind rest
    refine .of_each fun t => ?_
    rcases known_link_targets ok.toWellFormed sound placed.left placed.right ne meet targets.1
      targets.2 narrows size_mergeAll.ge (rest.wellFormed ok' placed') (whole.wellFormed ok placed) t
      with same | ⟨soundt, ptr, ptr'⟩
    · rw [mergeAll, same]
      exact ⟨narrows.sound t, narrows.narrows t⟩
    · exact ⟨soundt, (narrows.narrows t).trans
        ((narrows.sound t).narrows_of_pointer soundt ptr' ptr)⟩

lemma unifyFrom_narrows (wf : s.WellFormed) (sound : s.Sound) (lta : a < s.nodes.size)
    (ltb : b < s.nodes.size) (run : unifyFrom fuel s a b = .ok (verdict, s')) :
    s'.WellFormed ∧ Narrows s s' ∧ s.nodes.size ≤ s'.nodes.size := by
  cases verdict with
  | false =>
    obtain ⟨wf', grows⟩ := unifyFrom_extends wf run
    exact ⟨wf', grows.narrows wf wf' sound, grows.size⟩
  | true =>
    obtain ⟨s0, ms, wf0, grows, chain, rfl, -⟩ := unifyFrom_merges wf lta ltb run
    have ok := grows.bounded wf wf0
    have placed := grows.placed wf lta ltb
    have first := grows.narrows wf wf0 sound
    exact ⟨chain.wellFormed ok placed, first.trans (chain.narrows ok placed first.sound),
      grows.size.trans size_mergeAll.ge⟩

lemma unifyFrom_error (wf : s.WellFormed) (sound : s.Sound)
    (run : unifyFrom fuel s a b = .error e) : e = .endless := by
  induction fuel generalizing s a b with
  | zero =>
    cases run
    rfl
  | succ fuel ih =>
    obtain ⟨common, meet, ⟨-, broken⟩ | ⟨s1, p, q, descends, run⟩⟩ := unifyFrom_fails run
    · have expected := ((meets_of_meet? meet).sound (sound a) (sound b)).expected
      cases broken.symm.trans expected
    · have enters := descends.enters wf
      exact ih enters.wellFormed (enters.toExtends.narrows wf enters.wellFormed sound).sound run

end TypeStore

/-- What happens to types: one is made, one is looked up, or two are made equal if that is
possible. -/
inductive Develops : TypeStore → TypeStore → Prop
  | add {s n} :
    TypeNode.Constructed n →
    (∀ u, n.target = some (.type u) → u < s.nodes.size) →
    Develops s (s.add n).2
  | declare {s n t m} :
    TypeNode.ofDeclared t m = .ok n →
    Develops s (s.add n).2
  | look :
    Develops s (s.compress t)
  | unify {s s' a b verdict} :
    a < s.nodes.size →
    b < s.nodes.size →
    s.unify a b = .ok (verdict, s') →
    Develops s s'

variable {s s' : TypeStore}

lemma add_narrows (h : Constructed n)
    (known : ∀ u, n.target = some (.type u) → u < s.nodes.size) (wf : s.WellFormed) (sound : s.Sound) :
    (s.add n).2.WellFormed ∧ Narrows s (s.add n).2 := by
  have wf' := add_wellFormed wf h.parent known
  refine ⟨wf', .of_each fun t => ?_⟩
  rw [TypeStore.known, root_add wf wf' h.parent, node_add]
  split
  case isTrue new =>
    refine ⟨h.sound, ?_⟩
    rw [TypeStore.known, new, node_of_le le_rfl]
    exact any_narrows
  case isFalse => exact ⟨sound t, .refl⟩

/-- Every step only narrows what is known. -/
lemma Develops.narrows (h : Develops s s') (wf : s.WellFormed) (sound : s.Sound) :
    s'.WellFormed ∧ Narrows s s' := by
  cases h with
  | add constructed known => exact add_narrows constructed known wf sound
  | declare declared =>
    obtain ⟨constructed, target⟩ := constructed_of_declared declared
    exact add_narrows constructed (fun u same => absurd same (target u)) wf sound
  | @look t =>
    obtain ⟨wf', alike⟩ := compress_alike wf t
    exact ⟨wf', alike.extends.narrows wf wf' sound⟩
  | unify lta ltb run =>
    obtain ⟨wf', narrows, -⟩ := unifyFrom_narrows wf sound lta ltb run
    exact ⟨wf', narrows⟩

lemma narrows_of_develops (later : ReflTransGen Develops s s') (wf : s.WellFormed)
    (sound : s.Sound) : s'.WellFormed ∧ Narrows s s' := by
  induction later with
  | refl => exact ⟨wf, .refl sound⟩
  | tail _ step ih =>
    obtain ⟨wf1, narrows1⟩ := ih
    obtain ⟨wf', narrows'⟩ := step.narrows wf1 narrows1.sound
    exact ⟨wf', narrows1.trans narrows'⟩

lemma empty_sound : WellFormed {} ∧ Sound {} := by
  have wf := (Built.empty).acyclic.1
  refine ⟨wf, fun t => ?_⟩
  exact any_sound

/-- At each time of a history each type has a representative with kinds and signs, whose size is
that of a word if it is a pointer; only a pointer points to something, and only an integer has a
sign. At a later time there are no other kinds and signs, and a size is still the same. That only
integers have a sign is also why no expectation of a unification is ever broken: it fails only where
types lead back to themselves. -/
theorem develops_narrows (start : ReflTransGen Develops {} s)
    (later : ReflTransGen Develops s s') :
    (∀ t, s'.IsRoot (s'.root t) ∧ (s'.known t).Sound ∧ (s.known t).Narrows (s'.known t)) ∧
      ∀ a b e, s'.unify a b = .error e → e = .endless := by
  obtain ⟨wf, narrows⟩ := narrows_of_develops start empty_sound.1 empty_sound.2
  obtain ⟨wf', narrows'⟩ := narrows_of_develops later wf narrows.sound
  refine ⟨fun t => ⟨wf'.isRoot_root t, narrows'.sound t, narrows'.narrows t⟩, fun a b e run => ?_⟩
  exact TypeStore.unifyFrom_error wf' narrows'.sound run

/-- A type of which nothing is known is made equal to a pointer to itself. From then on it is a
pointer, and so a word. -/
theorem develops_narrows_withPointer : ∃ s, (withPointer {}).unify 0 1 = .ok (true, s) ∧
    ReflTransGen Develops {} (withPointer {}) ∧ ReflTransGen Develops (withPointer {}) s ∧
      s.Points 0 0 ∧ ((withPointer {}).known 0).size = none ∧ (s.known 0).size = some 32 ∧
      (∀ t, s.IsRoot (s.root t) ∧ (s.known t).Sound ∧
        ((withPointer {}).known t).Narrows (s.known t)) ∧
      ∀ a b e, s.unify a b = .error e → e = .endless := by
  have start : ReflTransGen Develops {} (withPointer {}) :=
    .tail (.single (.add .any nofun)) (.add .pointer (by
      intro u target
      cases target
      decide))
  have run : (withPointer {}).unify 0 1 = .ok (true, _) := rfl
  have later : ReflTransGen Develops (withPointer {}) _ :=
    .single (.unify (by decide) (by decide) run)
  obtain ⟨narrows, ends⟩ := develops_narrows start later
  exact ⟨_, run, start, later, ⟨rfl, 0, rfl, rfl⟩, rfl, rfl, narrows, ends⟩

/-- Two types that cannot be made equal are left as they were, and so is every other type. How deep
the pointers to them are does not matter: nothing is made equal before all that they point to has
been compared. -/
theorem unify_refused_keeps (start : ReflTransGen Develops {} s)
    (run : s.unify a b = .ok (false, s')) (lt : t < s.nodes.size) :
    s'.root t = s.root t ∧ s'.known t = s.known t ∧
      (s'.node t).contents = (s.node t).contents := by
  have wf := (narrows_of_develops start empty_sound.1 empty_sound.2).1
  obtain ⟨-, kept⟩ := TypeStore.unifyFrom_extends wf run
  refine ⟨kept.root t, ?_, kept.contents t lt⟩
  rw [TypeStore.known, kept.root]
  exact kept.node _ (wf.root_lt lt) (wf.isRoot_root t)

/-- A pointer to an integer and a declared pointer to a pointer: a new type is made to compare what
they point to. -/
theorem unify_refused_keeps_declared : ∃ s s', ReflTransGen Develops {} s ∧
    s.unify 1 2 = .ok (false, s') ∧ s.nodes.size < s'.nodes.size ∧
      s'.root 0 = s.root 0 ∧ s'.known 0 = s.known 0 ∧
      (s'.node 0).contents = (s.node 0).contents := by
  have int : ReflTransGen Develops {} _ :=
    .single (.add (n := .signed 32) (.signed (by decide)) nofun)
  have pointer := int.tail (.add (n := .pointer (some (.type 0))) .pointer (by
    rintro _ ⟨⟩
    decide))
  have start := pointer.tail
    (.add (n := .pointer (some (.declared (.pointer [] (.bare (.words ["int"])))))) .pointer nofun)
  exact ⟨_, _, start, rfl, by decide, unify_refused_keeps (a := 1) (b := 2) start rfl (by decide)⟩

end Decompiler.Infer
