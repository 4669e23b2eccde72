import Decompiler.Infer.Slots
import Decompiler.Proofs.Layouts

/-!
# Where arguments are passed

The slots of a function's arguments lie behind each other, each at a multiple of four, and the words
in them go into registers by their place. Only leading floating-point parameters have registers of
their own.

* `argumentSlots_places`: where arguments are passed only depends on the sizes of their types.
* `placesFrom_spec`: the places are in order, and no register is used twice.
* `argumentSlots_arranged`: the slots of a function, as it sees them and as a caller does.
-/

namespace Decompiler.Infer

open Asm C List

/-- A slot without its type. -/
abbrev Place := Int × Option Register × Option String

def Slot.place (s : Slot) : Place :=
  (s.offset, s.register, s.name)

/-- What decides how a parameter is passed: the room that it takes and the words of its type. -/
structure Passing where
  size : Int
  align : Int
  name : Option String
  words : Option (List String)

def passing (m : TypeMap) (p : Parameter) : Except Failure Passing := do
  let (size, align) ← ((argumentExtent p.type).run.run m).1
  return ⟨alignUp size 4, align, p.name, ← p.type.words? m⟩

def hidesResult (m : TypeMap) (f : Signature) : Except Failure Bool :=
  match f.result with
  | some t => t.isAggregate m
  | none => pure false

/-- How the parameters of a function are passed. The address for a result in memory comes first. -/
def passings (m : TypeMap) (f : Signature) : Except Failure (List Passing) := do
  let hidden ← hidesResult m f
  let qs ← (f.params.getD []).mapM (passing m)
  return if hidden then ⟨4, 4, some "__return__", none⟩ :: qs else qs

def upper (n : Nat) : Register :=
  ⟨if n == 0 then "f12" else "f14"⟩

def lower (n : Nat) : Register :=
  ⟨if n == 0 then "f13" else "f15"⟩

/-- The name of the second half of a double. -/
def lowerName (name : Option String) : Option String :=
  name.bind fun n => if n == "" then none else some (n ++ "_lo")

/-- The name of a word within a parameter. -/
def wordName (name : Option String) (inner : Int) : Option String :=
  name.map fun n => if n != "" && inner != 0 then n ++ "_unk" ++ Integer.upperHex inner else n

namespace Passing

def isDouble (q : Passing) : Bool :=
  q.words == some ["double"]

def isFloat (q : Passing) : Bool :=
  q.words == some ["float"] || q.isDouble

def inFloats (forCall : Bool) (n : Nat) (start : Int) (q : Passing) : List Place :=
  (start, some (upper n), q.name) ::
    if q.isDouble && !forCall then [(start + 4, some (lower n), lowerName q.name)] else []

def inWords (start : Int) (q : Passing) : List Place :=
  (wordsBetween start (start + q.size)).map fun n =>
    (4 * n, wordRegister? n, wordName q.name (4 * n - start))

def places (forCall only : Bool) (n : Nat) (start : Int) (q : Passing) : List Place :=
  if n < 2 && only then q.inFloats forCall n start else q.inWords start

end Passing

/-- The places of parameters, parameter by parameter, from the given number and offset on; `only`
says that all before were floating-point numbers. -/
def placesFrom (forCall : Bool) : Bool → Nat → Int → List Passing → List (List Place)
  | _, _, _, [] => []
  | only, n, offset, q :: qs =>
    let start := alignUp offset q.align
    q.places forCall (only && q.isFloat) n start ::
      placesFrom forCall (only && q.isFloat) (n + 1) (start + q.size) qs

def endFrom (offset : Int) (qs : List Passing) : Int :=
  qs.foldl (fun offset q => alignUp offset q.align + q.size) offset

section Reader

variable {σ : Types} {r : SlotReader} {p : Parameter} {forCall : Bool} {q : Passing}

def SlotReader.places (r : SlotReader) : List Place :=
  r.slots.toList.map Slot.place

/-- The places that are known when further parameters have been read. -/
def SlotReader.withRest (forCall : Bool) (r : SlotReader) (qs : List Passing) : List Place :=
  r.places ++ (placesFrom forCall r.onlyFloats r.count r.offset qs).flatten

lemma fresh_context (n : TypeNode) :
    Ensures σ (fresh n) fun _ σ' => σ'.context = σ.context := by
  intro _ _ run
  cases run
  rfl

lemma ofDeclared_context (t : CType) :
    Ensures σ (ofDeclared t) fun _ σ' => σ'.context = σ.context :=
  .get (.bind_lift fun n _ => fresh_context n)

lemma argumentExtent_still {m : TypeMap} (t : CType) :
    Ensures m (argumentExtent t) fun _ m' => m' = m := by
  refine .get (.bind_lift fun t' _ => ?_)
  split
  all_goals first
    | exact .pure rfl
    | exact .throw _
    | (split <;> first | exact .pure rfl | exact .throw _)
    | exact .ite (fun _ => .bind (P := fun _ _ => False) (.throw _) fun _ _ => False.elim)
        fun _ => .pure rfl

lemma declared_extent (t : CType) : Ensures σ (declared (argumentExtent t)) fun x σ' =>
    σ'.context = σ.context ∧ ((argumentExtent t).run.run (σ.context.getD {})).1 = .ok x := by
  refine .get (.bind (P := fun _ σ' => σ' = { σ with context := σ.context.map fun _ =>
    ((argumentExtent t).run.run (σ.context.getD {})).2 }) (.modify rfl) ?_)
  rintro _ _ rfl
  refine .lift fun x ok => ⟨?_, ok⟩
  have still := argumentExtent_still t x ((argumentExtent t).run.run (σ.context.getD {})).2
    (Prod.ext ok rfl)
  rw [still]
  cases σ.context <;> rfl

lemma addFloat_places : Ensures σ (r.addFloat q.name q.isDouble forCall) fun r' σ' =>
    σ'.context = σ.context ∧ r' = { r with slots := r'.slots } ∧
      r'.places = r.places ++ q.inFloats forCall r.count r.offset := by
  refine (fresh_context _).bind fun type σ₁ same₁ => .ite (fun second => ?_) fun single => ?_
  · refine (fresh_context _).bind fun _ σ₂ same₂ => .pure ⟨same₂.trans same₁, rfl, ?_⟩
    simp only [SlotReader.places, Passing.inFloats, second, Array.toList_push, map_append]
    cases q.name <;> simp [Slot.place, upper, lower, lowerName]
  · refine .pure ⟨same₁, rfl, ?_⟩
    simp [SlotReader.places, Passing.inFloats, single, Slot.place, upper]

lemma addWords_places (named : q.name = p.name) : Ensures σ (r.addWords p q.size) fun r' σ' =>
    σ'.context = σ.context ∧ r' = { r with slots := r'.slots } ∧
      r'.places = r.places ++ q.inWords r.offset := by
  unfold SlotReader.addWords Passing.inWords
  rw [named]
  generalize wordsBetween r.offset (r.offset + q.size) = ns
  induction ns generalizing r σ with
  | nil => exact .pure ⟨rfl, rfl, by simp⟩
  | cons n ns ih =>
    rw [foldlM_cons]
    refine .bind (P := fun r' σ' => σ'.context = σ.context ∧ ∃ type, r' = { r with
      slots := r.slots.push ⟨4 * n, wordRegister? n, wordName p.name (4 * n - r.offset), type⟩ })
      ((ofDeclared_context _).bind fun type _ same => .pure ⟨same, type, ?_⟩) ?_
    · cases p.name <;> rfl
    · rintro _ σ₁ ⟨same₁, type, rfl⟩
      refine ih.imp ?_
      rintro r' σ' ⟨same, others, places⟩
      refine ⟨same.trans same₁, others, ?_⟩
      rw [places]
      simp [SlotReader.places, Slot.place]

lemma withRest_add {r₁ : SlotReader} (others : r₁ = { r with
      offset := alignUp r.offset q.align, onlyFloats := r.onlyFloats && q.isFloat, slots := r₁.slots })
    (places : r₁.places = r.places ++
      q.places forCall (r.onlyFloats && q.isFloat) r.count (alignUp r.offset q.align))
    (qs : List Passing) :
    SlotReader.withRest forCall { r₁ with offset := r₁.offset + q.size, count := r₁.count + 1 } qs =
      r.withRest forCall (q :: qs) := by
  unfold SlotReader.withRest
  rw [placesFrom, flatten_cons, ← append_assoc, ← places, others]
  rfl

lemma add_places : Ensures σ (r.add forCall p) fun r' σ' => σ'.context = σ.context ∧
    ∃ q, passing (σ.context.getD {}) p = .ok q ∧
      r'.offset = alignUp r.offset q.align + q.size ∧
      ∀ qs, r'.withRest forCall qs = r.withRest forCall (q :: qs) := by
  refine (declared_extent _).bind ?_
  rintro ⟨size, align⟩ σ₁ ⟨same₁, extent⟩
  refine .get (.bind_lift fun words found => ?_)
  rw [same₁] at found
  let q : Passing := ⟨alignUp size 4, align, p.name, words⟩
  have passes : passing (σ.context.getD {}) p = .ok q := by
    unfold passing
    rw [extent]
    change (p.type.words? _ >>= _) = _
    rw [found]
    rfl
  refine .ite (fun floats => ?_) fun floats => ?_
  · refine (addFloat_places (q := q)).bind ?_
    rintro r₁ σ' ⟨same, others, places⟩
    refine .pure ⟨same.trans same₁, q, passes, by rw [others], withRest_add (q := q) others ?_⟩
    exact places.trans (congrArg _ (if_pos floats).symm)
  · refine (addWords_places (q := q) rfl).bind ?_
    rintro r₁ σ' ⟨same, others, places⟩
    refine .pure ⟨same.trans same₁, q, passes, by rw [others], withRest_add (q := q) others ?_⟩
    exact places.trans (congrArg _ (if_neg floats).symm)

lemma params_places {params : List Parameter} :
    Ensures σ (params.foldlM (SlotReader.add forCall) r) fun r' σ' => σ'.context = σ.context ∧
      ∃ qs, params.mapM (passing (σ.context.getD {})) = .ok qs ∧
        r'.places = r.withRest forCall qs ∧ r'.offset = endFrom r.offset qs := by
  induction params generalizing r σ with
  | nil => exact .pure ⟨rfl, [], rfl, by simp [SlotReader.withRest, placesFrom], rfl⟩
  | cons p params ih =>
    rw [foldlM_cons]
    refine add_places.bind ?_
    rintro r₁ σ₁ ⟨same₁, q, passes, offset₁, rest⟩
    refine ih.imp ?_
    rintro r' σ' ⟨same, qs, others, places, offset⟩
    rw [same₁] at same others
    refine ⟨same, q :: qs, ?_, places.trans (rest qs), ?_⟩
    · rw [mapM_cons, passes, others]
      rfl
    · rw [offset, offset₁]
      rfl

end Reader

section Places

variable {m : TypeMap} {aligned : CType → Int → Prop} {p : Parameter} {q : Passing} {qs : List Passing}
  {forCall only : Bool} {n : Nat} {offset start size : Int} {x : Place}

structure Passing.Sized (q : Passing) : Prop where
  nonneg : 0 ≤ q.size
  words : 4 ∣ q.size
  align : IsAlignment q.align
  float : q.isFloat → q.size = if q.isDouble then 8 else 4

lemma isAlignment_four : IsAlignment 4 :=
  ⟨2, rfl⟩

/-- The words of a type that is none of another one. -/
def ownWords? : CType → Option (List String)
  | .named _ _ _ (.enumeration _ _) => some ["int"]
  | .named _ _ _ (.words names) => some names
  | _ => none

lemma words?_eq (m : TypeMap) (t : CType) : t.words? m = (t.resolve m).map ownWords? := by
  unfold CType.words?
  rcases t.resolve m with e | ⟨_, _, _, _ | _ | _⟩ | _ | _ | _ | _ <;> rfl

/-- A type takes room that is not negative, and a named one as much as its words say. -/
lemma argumentExtent_sized (sound : m.Sound aligned) (t : CType) :
    Ensures m (argumentExtent t) fun x _ => 0 ≤ x.1 ∧ IsAlignment x.2 ∧
      ∀ names, t.words? m = .ok (some names) → names = ["int"] ∨ x.1 = wordsSize names := by
  refine .get (.bind_lift fun t' resolved => ?_)
  have word : 0 ≤ (4 : Int) ∧ IsAlignment 4 := ⟨by decide, isAlignment_four⟩
  rw [words?_eq, resolved]
  have scalar {names : List String} : Ensures m (do
      if wordsSize names == 0 then reject .voidParameter
      return (wordsSize names, wordsSize names) : Typing (Int × Int)) fun x _ =>
        0 ≤ x.1 ∧ IsAlignment x.2 ∧ x.1 = wordsSize names := by
    refine .ite (fun _ => .bind (P := fun _ _ => False) (.throw _) fun _ _ => False.elim)
      fun sized => ?_
    have ha := isAlignment_wordsSize (ne_of_beq_false (Bool.eq_false_iff.2 sized))
    exact .pure ⟨ha.pos.le, ha, rfl⟩
  split
  · exact .pure ⟨word.1, word.2, by rintro _ ⟨⟩⟩
  · exact .pure ⟨word.1, word.2, by rintro _ ⟨⟩⟩
  · exact .throw _
  · split
    · next found =>
      exact .pure ⟨(sound _ _ _ found).size, (sound _ _ _ found).align, by rintro _ ⟨⟩⟩
    · exact .throw _
  · refine .pure ⟨word.1, word.2, fun names h => .inl ?_⟩
    cases h
    rfl
  · refine scalar.imp fun x _ h => ⟨h.1, h.2.1, fun names same => .inr ?_⟩
    cases same
    exact h.2.2
  · exact scalar.imp fun x _ h => ⟨h.1, h.2.1, by rintro _ ⟨⟩⟩
  · exact .throw _

lemma passing_sized (sound : m.Sound aligned) (passes : passing m p = .ok q) : q.Sized := by
  obtain ⟨⟨size, align⟩, extent, passes⟩ := bind_ok passes
  obtain ⟨words, found, passes⟩ := bind_ok passes
  obtain ⟨nonneg, ha, named⟩ := argumentExtent_sized sound p.type _ _ (Prod.ext extent rfl)
  dsimp only at nonneg ha named
  obtain ⟨multiple, le, -⟩ := alignUp_spec isAlignment_four nonneg
  cases passes
  refine ⟨nonneg.trans le, multiple, ha, fun float => ?_⟩
  rcases Bool.or_eq_true_iff.1 float with single | double
  · cases eq_of_beq single
    rw [(named _ found).resolve_left (by decide)]
    rfl
  · cases eq_of_beq double
    rw [(named _ found).resolve_left (by decide)]
    rfl

lemma alignUp_start (sized : q.Sized) (nonneg : 0 ≤ offset) (words : 4 ∣ offset) :
    offset ≤ alignUp offset q.align ∧ 4 ∣ alignUp offset q.align := by
  obtain ⟨multiple, le, lt⟩ := alignUp_spec sized.align nonneg
  refine ⟨le, ?_⟩
  rcases le_or_gt 4 q.align with large | small
  · exact (isAlignment_four.dvd_of_le sized.align large).trans multiple
  · have divides := (sized.align.dvd_of_le isAlignment_four small.le).trans words
    have same : alignUp offset q.align - offset = 0 :=
      Int.eq_zero_of_dvd_of_nonneg_of_lt (by omega) (by omega) (Int.dvd_sub multiple divides)
    rw [sub_eq_zero.1 same]
    exact words

lemma wordsBetween_eq (words : 4 ∣ start) (size4 : 4 ∣ size) :
    wordsBetween start (start + size) =
      (range (size / 4).toNat).map fun k : Nat => start / 4 + k := by
  unfold wordsBetween
  rw [Int.fdiv_eq_ediv_of_nonneg _ (by decide), Int.fdiv_eq_ediv_of_nonneg _ (by decide)]
  congr 2
  omega

lemma Passing.inWords_offsets (sized : q.Sized) (words : 4 ∣ start) :
    (q.inWords start).map Prod.fst =
      (range (q.size / 4).toNat).map fun k : Nat => start + 4 * k := by
  rw [inWords, wordsBetween_eq words sized.words, map_map, map_map]
  refine map_congr_left fun k _ => ?_
  simp only [Function.comp_apply]
  omega

lemma wordRegister?_ne {a b : Int} {r} (nonneg : 0 ≤ a) (lt : a < b) (h : wordRegister? a = some r) :
    wordRegister? b ≠ some r := by
  intro h'
  unfold wordRegister? at h h'
  split_ifs at h h' with ha hb
  cases h'
  have few : a = 0 ∨ a = 1 ∨ a = 2 := by omega
  have few' : b = 1 ∨ b = 2 ∨ b = 3 := by omega
  rcases few with rfl | rfl | rfl <;> rcases few' with rfl | rfl | rfl <;>
    first | omega | exact absurd h (by decide)

/-- Whether floating-point parameters from a number on are passed in a register. -/
def IsFloatFrom (n : Nat) (r : Register) : Prop :=
  ∃ k, n ≤ k ∧ k < 2 ∧ (r = upper k ∨ r = lower k)

lemma wordRegister?_not_float {a : Int} {r} (nonneg : 0 ≤ a) (float : IsFloatFrom n r) :
    wordRegister? a ≠ some r := by
  intro h
  unfold wordRegister? at h
  split_ifs at h with ha
  obtain ⟨k, -, lt, eq⟩ := float
  have few : a = 0 ∨ a = 1 ∨ a = 2 ∨ a = 3 := by omega
  cases h
  obtain rfl | rfl : k = 0 ∨ k = 1 := by omega
  all_goals rcases few with rfl | rfl | rfl | rfl <;> exact absurd eq (by decide)

/-- Whether a place is none of a second half of a double. -/
def inCall (x : Place) : Bool :=
  x.2.1.all fun r => r != ⟨"f13"⟩ && r != ⟨"f15"⟩

/-- One place before another, in another register. -/
def Apart (x y : Place) : Prop :=
  x.1 < y.1 ∧ ∀ r, x.2.1 = some r → y.2.1 ≠ some r

lemma apart_of_words {y : Place} (nonneg : 0 ≤ x.1) (wordx : 4 ∣ x.1) (wordy : 4 ∣ y.1)
    (lt : x.1 < y.1) (rx : x.2.1 = wordRegister? (x.1 / 4)) (ry : y.2.1 = wordRegister? (y.1 / 4)) :
    Apart x y := by
  refine ⟨lt, fun r hx hy => ?_⟩
  exact wordRegister?_ne (by omega) (by omega) (rx.symm.trans hx) (ry.symm.trans hy)

/-- Where places may be: in a range, in the registers by their offsets or in some others. -/
def Within (start stop : Int) (others : Register → Prop) (x : Place) : Prop :=
  start ≤ x.1 ∧ x.1 < stop ∧ 4 ∣ x.1 ∧
    (x.2.1 = wordRegister? (x.1 / 4) ∨ ∃ r, others r ∧ x.2.1 = some r)

lemma Within.mono {start' stop' : Int} {others others' : Register → Prop}
    (h : Within start stop others x) (before : start' ≤ start) (behind : stop ≤ stop')
    (more : ∀ r, others r → others' r) : Within start' stop' others' x := by
  obtain ⟨ge, lt, multiple, register⟩ := h
  refine ⟨before.trans ge, lt.trans_le behind, multiple, register.imp_right ?_⟩
  rintro ⟨r, own, eq⟩
  exact ⟨r, more r own, eq⟩

namespace Passing

lemma mem_inWords (sized : q.Sized) (words : 4 ∣ start) (mem : x ∈ q.inWords start) :
    start ≤ x.1 ∧ x.1 < start + q.size ∧ 4 ∣ x.1 ∧ x.2.1 = wordRegister? (x.1 / 4) := by
  rw [inWords, wordsBetween_eq words sized.words, map_map] at mem
  obtain ⟨k, below, rfl⟩ := mem_map.1 mem
  have := mem_range.1 below
  have := sized.words
  refine ⟨?_, ?_, ?_, ?_⟩ <;> simp only [Function.comp_apply]
  · omega
  · omega
  · omega
  · rw [Int.mul_ediv_cancel_left _ (by decide)]

lemma inWords_spec (sized : q.Sized) (nonneg : 0 ≤ start) (words : 4 ∣ start) :
    (q.inWords start).Pairwise Apart ∧ (q.inWords start).filter inCall = q.inWords start := by
  have increasing : (q.inWords start).Pairwise fun x y => x.1 < y.1 := by
    rw [← pairwise_map (f := Prod.fst) (R := (· < ·)), inWords_offsets sized words,
      pairwise_map]
    exact pairwise_lt_range.imp fun lt => by omega
  refine ⟨increasing.imp_of_mem fun {x y} memx memy lt => ?_, filter_eq_self.2 fun x mem => ?_⟩
  · obtain ⟨le, -, wordx, rx⟩ := mem_inWords sized words memx
    obtain ⟨-, -, wordy, ry⟩ := mem_inWords sized words memy
    exact apart_of_words (nonneg.trans le) wordx wordy lt rx ry
  · obtain ⟨le, lt, multiple, register⟩ := mem_inWords sized words mem
    have other (k) (few : k < 2) : x.2.1 ≠ some (lower k) := fun eq =>
      wordRegister?_not_float (by omega) ⟨k, le_rfl, few, .inr rfl⟩ (register.symm.trans eq)
    have f13 := other 0 (by decide)
    have f15 := other 1 (by decide)
    unfold inCall
    cases found : x.2.1 with
    | none => rfl
    | some r =>
      rw [found] at f13 f15
      simp only [Option.all_some, Bool.and_eq_true, bne_iff_ne]
      exact ⟨fun eq => f13 (congrArg some eq), fun eq => f15 (congrArg some eq)⟩

/-- The places of a floating-point parameter lie in it, apart from each other. -/
lemma inFloats_spec (forCall : Bool) (few : n < 2) (float : q.isFloat) (sized : q.Sized)
    (words : 4 ∣ start) : (q.inFloats forCall n start).Pairwise Apart ∧
      (∀ x ∈ q.inFloats forCall n start,
        Within start (start + q.size) (fun r => r = upper n ∨ r = lower n) x) ∧
      q.inFloats true n start = (q.inFloats false n start).filter inCall := by
  have size := sized.float float
  have first : Within start (start + q.size) (fun r => r = upper n ∨ r = lower n)
      (start, some (upper n), q.name) := by
    refine ⟨le_rfl, ?_, words, .inr ⟨_, .inl rfl, rfl⟩⟩
    dsimp only
    split_ifs at size <;> omega
  have halves (name name' : Option String) : inCall (start, some (upper n), name) = true ∧
      inCall (start + 4, some (lower n), name') = false ∧ upper n ≠ lower n := by
    obtain rfl | rfl : n = 0 ∨ n = 1 := by omega
    all_goals exact ⟨rfl, rfl, by decide⟩
  unfold inFloats
  cases double : q.isDouble
  · refine ⟨pairwise_singleton _ _, forall_mem_singleton.2 first, ?_⟩
    change _ = filter _ [_]
    rw [filter_cons_of_pos (halves _ none).1]
    rfl
  · rw [double, if_pos rfl] at size
    refine ⟨?_, ?_, ?_⟩
    · cases forCall
      · refine pairwise_pair.2 ⟨Int.lt_add_of_pos_right _ (by decide), fun r hx hy => ?_⟩
        exact (halves none none).2.2 ((Option.some.inj hx).trans (Option.some.inj hy).symm)
      · exact pairwise_singleton _ _
    · cases forCall
      · refine forall_mem_cons.2 ⟨first, forall_mem_singleton.2 ⟨?_, ?_, ?_, ?_⟩⟩
        · exact Int.le_add_of_nonneg_right (by decide)
        · dsimp only
          omega
        · exact Int.dvd_add words (by decide)
        · exact .inr ⟨_, .inr rfl, rfl⟩
      · exact forall_mem_singleton.2 first
    · change _ = filter _ [_, _]
      rw [filter_cons_of_pos (halves _ none).1,
        filter_cons_of_neg (Bool.eq_false_iff.1 (halves none _).2.1)]
      rfl

lemma places_spec (forCall only : Bool) (n : Nat) (float : only → q.isFloat) (sized : q.Sized)
    (nonneg : 0 ≤ start) (words : 4 ∣ start) :
    (q.places forCall only n start).Pairwise Apart ∧
      (∀ x ∈ q.places forCall only n start,
        Within start (start + q.size) (fun r => n < 2 ∧ (r = upper n ∨ r = lower n)) x) ∧
      q.places true only n start = (q.places false only n start).filter inCall := by
  unfold places
  split_ifs with floats
  · obtain ⟨few, only⟩ := Bool.and_eq_true_iff.1 floats
    have few := of_decide_eq_true few
    obtain ⟨apart, within, call⟩ := inFloats_spec forCall few (float only) sized words
    exact ⟨apart, fun x mem => (within x mem).mono le_rfl le_rfl fun r own => ⟨few, own⟩, call⟩
  · obtain ⟨apart, call⟩ := inWords_spec sized nonneg words
    refine ⟨apart, fun x mem => ?_, call.symm⟩
    obtain ⟨le, lt, multiple, register⟩ := mem_inWords sized words mem
    exact ⟨le, lt, multiple, .inl register⟩

end Passing

lemma next_offset (sized : q.Sized) (nonneg : 0 ≤ offset) (words : 4 ∣ offset) :
    offset ≤ alignUp offset q.align + q.size ∧ 4 ∣ alignUp offset q.align + q.size := by
  obtain ⟨le, multiple⟩ := alignUp_start sized nonneg words
  have := sized.nonneg
  exact ⟨by omega, Int.dvd_add multiple sized.words⟩

lemma le_endFrom (sized : ∀ q ∈ qs, q.Sized) (nonneg : 0 ≤ offset) (words : 4 ∣ offset) :
    offset ≤ endFrom offset qs ∧ 4 ∣ endFrom offset qs := by
  induction qs generalizing offset with
  | nil => exact ⟨le_rfl, words⟩
  | cons q qs ih =>
    obtain ⟨fits, others⟩ := forall_mem_cons.1 sized
    obtain ⟨le, multiple⟩ := next_offset fits nonneg words
    obtain ⟨le', multiple'⟩ := ih others (nonneg.trans le) multiple
    exact ⟨le.trans le', multiple'⟩

lemma placesFrom_spec (forCall : Bool) (sized : ∀ q ∈ qs, q.Sized) (nonneg : 0 ≤ offset)
    (words : 4 ∣ offset) : (placesFrom forCall only n offset qs).flatten.Pairwise Apart ∧
      (∀ x ∈ (placesFrom forCall only n offset qs).flatten,
        Within offset (endFrom offset qs) (IsFloatFrom n) x) ∧
      (placesFrom true only n offset qs).flatten =
        (placesFrom false only n offset qs).flatten.filter inCall := by
  induction qs generalizing only n offset with
  | nil => exact ⟨.nil, forall_mem_nil _, rfl⟩
  | cons q qs ih =>
    obtain ⟨fits, others⟩ := forall_mem_cons.1 sized
    obtain ⟨before, start⟩ := alignUp_start fits nonneg words
    obtain ⟨le, next⟩ := next_offset fits nonneg words
    have last : _ ≤ endFrom offset (q :: qs) := (le_endFrom others (nonneg.trans le) next).1
    obtain ⟨apart, within, call⟩ := q.places_spec forCall (only && q.isFloat) n
      (fun h => (Bool.and_eq_true_iff.1 h).2) fits (nonneg.trans before) start
    obtain ⟨apart', within', call'⟩ := ih others (nonneg.trans le) next
    simp only [placesFrom, flatten_cons, filter_append]
    refine ⟨pairwise_append.2 ⟨apart, apart', fun x memx y memy => ?_⟩, fun x mem => ?_,
      by rw [call, call']⟩
    · obtain ⟨gex, ltx, wordx, rx⟩ := within x memx
      obtain ⟨gey, -, wordy, ry⟩ := within' y memy
      have lt := ltx.trans_le gey
      rcases rx with rx | ⟨r, ⟨few, own⟩, rx⟩ <;> rcases ry with ry | ⟨r', float, ry⟩
      · exact apart_of_words (by omega) wordx wordy lt rx ry
      · refine ⟨lt, fun s hx hy => wordRegister?_not_float (a := x.1 / 4) (by omega) float ?_⟩
        exact rx.symm.trans (hx.trans (hy.symm.trans ry))
      · have own : IsFloatFrom n r := ⟨n, le_rfl, few, own⟩
        refine ⟨lt, fun s hx hy => wordRegister?_not_float (a := y.1 / 4) (by omega) own ?_⟩
        exact ry.symm.trans (hy.trans (hx.symm.trans rx))
      · refine ⟨lt, fun s hx hy => ?_⟩
        cases rx.symm.trans hx
        cases ry.symm.trans hy
        obtain ⟨k, gt, few', other⟩ := float
        obtain ⟨rfl, rfl⟩ : n = 0 ∧ k = 1 := by omega
        rcases own with rfl | rfl <;> exact absurd other (by decide)
    · rcases mem_append.1 mem with mem | mem
      · exact (within x mem).mono before last fun r own => ⟨n, le_rfl, own⟩
      · refine (within' x mem).mono le le_rfl ?_
        rintro r ⟨k, gt, float⟩
        exact ⟨k, by omega, float⟩

lemma placesFrom_getElem? (i : Nat) : (placesFrom forCall only n offset qs)[i]? = qs[i]?.map
    fun q => q.places forCall (only && (qs.take (i + 1)).all Passing.isFloat) (n + i)
      (alignUp (endFrom offset (qs.take i)) q.align) := by
  induction qs generalizing only n offset i with
  | nil => rfl
  | cons q qs ih =>
    cases i with
    | zero => simp [placesFrom, endFrom]
    | succ i =>
      refine (ih i).trans ?_
      rw [take_succ_cons, all_cons, Bool.and_assoc, Nat.add_right_comm, Nat.add_assoc]
      rfl

lemma placesFrom_false (n k : Nat) :
    placesFrom forCall false n offset qs = placesFrom forCall false k offset qs := by
  induction qs generalizing n k offset with
  | nil => rfl
  | cons q qs ih =>
    simp only [placesFrom, Bool.false_and, Passing.places, Bool.and_false, Bool.false_eq_true, if_false]
    rw [ih (n + 1) (k + 1)]

/-- How the slots of parameters lie. Up to two leading floating-point parameters are passed in
floating-point registers, and the words of all others by their place. -/
structure Arranged (forCall : Bool) (qs : List Passing) (slots : List Slot)
    (possible : List Register) : Prop where
  words : ∀ s ∈ slots, 0 ≤ s.offset ∧ 4 ∣ s.offset
  increasing : slots.Pairwise fun s t => s.offset < t.offset
  distinct : (slots.filterMap Slot.register).Nodup
  further : ∀ s ∈ slots, ∀ r ∈ possible, s.register ≠ some r
  covered : ∃ pieces : List (List Place), slots.map Slot.place = pieces.flatten ∧
    ∀ i, (pieces[i]?.isSome ↔ i < qs.length) ∧ ∀ q piece start,
      qs[i]? = some q → pieces[i]? = some piece →
      start = alignUp (endFrom 0 (qs.take i)) q.align →
      if i < 2 ∧ (qs.take (i + 1)).all Passing.isFloat then piece = q.inFloats forCall i start
      else piece.map Prod.fst =
          (range (q.size / 4).toNat).map (fun k : Nat => start + 4 * k) ∧
        ∀ x ∈ piece, x.2.1 = wordRegister? (x.1 / 4)

lemma arranged {slots : List Slot} {possible} (sized : ∀ q ∈ qs, q.Sized)
    (places : slots.map Slot.place = (placesFrom forCall true 0 0 qs).flatten)
    (further : ∀ r ∈ possible, ∃ n, endFrom 0 qs / 4 ≤ n ∧ wordRegister? n = some r) :
    Arranged forCall qs slots possible := by
  obtain ⟨apart, within, -⟩ := placesFrom_spec forCall sized le_rfl (by decide)
  rw [← places] at apart within
  rw [pairwise_map] at apart
  have last := (le_endFrom sized le_rfl (by decide)).2
  refine ⟨fun s mem => ?_, apart.imp fun h => h.1, ?_, fun s mem r more register => ?_,
    _, places, fun i => ⟨?_, fun q piece start found taken hstart => ?_⟩⟩
  · obtain ⟨ge, -, multiple, -⟩ := within _ (mem_map_of_mem mem)
    exact ⟨ge, multiple⟩
  · refine pairwise_filterMap.2 (apart.imp fun {s t} h r hs r' ht eq => ?_)
    exact h.2 r hs (eq ▸ ht)
  · obtain ⟨n, le, found⟩ := further r more
    obtain ⟨ge, lt, multiple, word | ⟨r', float, register'⟩⟩ := within _ (mem_map_of_mem mem)
    · exact wordRegister?_ne (by omega) (by omega) (word.symm.trans register) found
    · cases register'.symm.trans register
      exact wordRegister?_not_float (by omega) float found
  · simp [placesFrom_getElem?]
  · rw [placesFrom_getElem?, found] at taken
    cases taken
    subst hstart
    rw [Bool.true_and, Nat.zero_add]
    unfold Passing.places
    simp only [Bool.and_eq_true, decide_eq_true_eq]
    split_ifs
    · rfl
    · have fits := sized q (mem_of_getElem? found)
      have before : _ ≤ endFrom 0 (qs.take i) ∧ _ :=
        le_endFrom (fun q mem => sized q (mem_of_mem_take mem)) le_rfl (by decide)
      have multiple := (alignUp_start fits before.1 before.2).2
      exact ⟨Passing.inWords_offsets fits multiple,
        fun x mem => (Passing.mem_inWords fits multiple mem).2.2.2⟩

end Places

section Slots

variable {f : Signature} {forCall : Bool} {σ : Types} {aligned : CType → Int → Prop}

lemma read_places {σ₁ : Types} {params} {hidden : Bool} {r : SlotReader} {qs₀ : List Passing}
    (hparams : f.params = some params) (same : σ₁.context = σ.context)
    (hides : hidesResult (σ.context.getD {}) f = .ok hidden)
    (first : qs₀ = if hidden then [⟨4, 4, some "__return__", none⟩] else [])
    (read : ∀ qs, (placesFrom forCall true 0 0 (qs₀ ++ qs)).flatten = r.withRest forCall qs)
    (offset : r.offset = endFrom 0 qs₀) :
    Ensures σ₁ (do
      let r ← params.foldlM (SlotReader.add forCall) r
      return (r.slots.toList,
        if f.isVariadic then (wordsBetween r.offset 16).filterMap wordRegister? else []))
      fun x _ => ∃ qs, passings (σ.context.getD {}) f = .ok qs ∧
        x.1.map Slot.place = (placesFrom forCall true 0 0 qs).flatten ∧ x.2 = if f.isVariadic then
          (wordsBetween (endFrom 0 qs) 16).filterMap wordRegister? else [] := by
  refine params_places.bind ?_
  rintro r' σ₂ ⟨-, qs, passes, places, last⟩
  refine .pure ⟨qs₀ ++ qs, ?_, ?_, ?_⟩
  · unfold passings
    rw [hides, hparams]
    change (params.mapM (passing (σ.context.getD {})) >>= _) = _
    rw [← same, passes, first]
    cases hidden <;> rfl
  · exact places.trans (read qs).symm
  · rw [last, offset, endFrom, endFrom, endFrom, foldl_append]

lemma argumentSlots_places : Ensures σ (argumentSlots f forCall) fun x _ =>
    ∃ qs, passings (σ.context.getD {}) f = .ok qs ∧
      x.1.map Slot.place = (placesFrom forCall true 0 0 qs).flatten ∧ x.2 = if f.isVariadic then
        (wordsBetween (endFrom 0 qs) 16).filterMap wordRegister? else [] := by
  unfold argumentSlots
  cases hparams : f.params with
  | none => exact .throw _
  | some params =>
    refine .get ?_
    dsimp only
    cases result : f.result with
    | none =>
      have hides : hidesResult (σ.context.getD {}) f = .ok false := by
        rw [hidesResult, result]
        rfl
      exact read_places hparams rfl hides rfl (fun qs => rfl) rfl
    | some t =>
      have hides : hidesResult (σ.context.getD {}) f = t.isAggregate (σ.context.getD {}) := by
        rw [hidesResult, result]
      refine .bind_lift fun hidden ok => .ite (fun h => ?_) fun h => ?_
      · refine (fresh_context _).bind fun _ σ₁ same => ?_
        subst h
        refine read_places hparams same (hides.trans ok) rfl (fun qs => ?_) rfl
        exact congrArg ([(0, some ⟨"a0"⟩, some "__return__")] ++ flatten ·)
          (placesFrom_false 1 0)
      · rw [Bool.eq_false_iff.2 h] at ok
        exact read_places hparams rfl (hides.trans ok) rfl (fun qs => rfl) rfl

lemma passings_sized {m : TypeMap} {qs : List Passing} (sound : m.Sound aligned)
    (passes : passings m f = .ok qs) : ∀ q ∈ qs, q.Sized := by
  have each {params : List Parameter} {qs} (passes : params.mapM (passing m) = .ok qs) :
      ∀ q ∈ qs, q.Sized := by
    induction params generalizing qs with
    | nil =>
      cases passes
      exact forall_mem_nil _
    | cons p params ih =>
      rw [mapM_cons] at passes
      obtain ⟨q, first, passes⟩ := bind_ok passes
      obtain ⟨qs, others, passes⟩ := bind_ok passes
      cases passes
      exact forall_mem_cons.2 ⟨passing_sized sound first, ih others⟩
  obtain ⟨hidden, -, passes⟩ := bind_ok passes
  obtain ⟨qs, others, passes⟩ := bind_ok passes
  cases passes
  split_ifs
  · exact forall_mem_cons.2 ⟨⟨by decide, by decide, isAlignment_four, by rintro ⟨⟩⟩, each others⟩
  · exact each others

/-- The arguments of a function are passed in slots that lie behind each other, if no array of the
context has a negative dimension and no bit-field a negative width. A caller sees the same slots as
the function, without the second halves of doubles. -/
theorem argumentSlots_arranged {σ' : Types} {seen : List Observation} {slots : List Slot}
    {possible : List Register} (past : History seen (σ.context.getD {}))
    (dimensions : ∀ n, .dimension n ∈ seen → 0 ≤ n) (widths : ∀ n, .width n ∈ seen → 0 ≤ n)
    (run : (argumentSlots f forCall).run.run σ = (.ok (slots, possible), σ')) :
    ∃ qs, passings (σ.context.getD {}) f = .ok qs ∧ Arranged forCall qs slots possible ∧
      ∀ σ₁ slots₁ possible₁ σ₁', forCall = false → σ₁.context = σ.context →
        (argumentSlots f true).run.run σ₁ = (.ok (slots₁, possible₁), σ₁') →
        possible₁ = possible ∧
          slots₁.map Slot.place = (slots.map Slot.place).filter inCall := by
  obtain ⟨qs, passes, places, further⟩ := argumentSlots_places _ _ run
  dsimp only at places further
  have fits := passings_sized (past.sound (good_of_nonneg dimensions widths)) passes
  refine ⟨qs, passes, arranged fits places fun r mem => ?_, ?_⟩
  · rw [further] at mem
    split_ifs at mem
    · obtain ⟨n, mem, found⟩ := mem_filterMap.1 mem
      obtain ⟨k, -, rfl⟩ := mem_map.1 mem
      refine ⟨_, ?_, found⟩
      rw [Int.fdiv_eq_ediv_of_nonneg _ (by decide)]
      omega
    · cases mem
  · rintro σ₁ slots₁ possible₁ σ₁' rfl same run₁
    obtain ⟨qs₁, passes₁, places₁, further₁⟩ := argumentSlots_places _ _ run₁
    rw [same] at passes₁
    cases passes.symm.trans passes₁
    refine ⟨further₁.trans further.symm, ?_⟩
    rw [places₁, places]
    exact (placesFrom_spec false fits le_rfl (by decide)).2.2

/-- The members of `struct S { char a; short b[2]; };`. -/
def smallMembers : List Member :=
  [namedMember "a" (.ofKeyword "char"),
   namedMember "b" (.array (.ofKeyword "short") (some (.constant "2")) [])]

def smallStruct : TypeMap :=
  ((layOut 2 .struct (some "S") 0 (some smallMembers)).run {}).2

/-- The signature `void f(double x, struct S s, ...)`. -/
def printer : Signature :=
  ⟨none, some [⟨.named 0 none [] (.words ["double"]), some "x"⟩,
    ⟨.named 0 none [] (.aggregate .struct (some "S") 0 none), some "s"⟩], true⟩

theorem argumentSlots_arranged_printer : ∃ slots possible σ' qs,
    (argumentSlots printer false).run.run { context := some smallStruct } =
      (.ok (slots, possible), σ') ∧
    slots.map Slot.place = [(0, some ⟨"f12"⟩, some "x"), (4, some ⟨"f13"⟩, some "x_lo"),
      (8, some ⟨"a2"⟩, some "s"), (12, some ⟨"a3"⟩, some "s_unk4")] ∧
    possible = [] ∧ Arranged false qs slots possible := by
  have seen : ([] ++ layOutSeen 2 .struct (some "S") 0 (some smallMembers) {}) =
    [.alignment _ 1, .dimension 2, .alignment _ 2] := rfl
  have past : History _ smallStruct := .layOut (.start fun tag id => by cases tag <;> rfl) rfl
  have run : (argumentSlots printer false).run.run { context := some smallStruct } =
      (.ok (_, _), _) := rfl
  obtain ⟨qs, -, arranged, -⟩ := argumentSlots_arranged past (by simp [seen]) (by simp [seen]) run
  exact ⟨_, _, _, qs, run, by decide +kernel, rfl, arranged⟩

end Slots

end Decompiler.Infer
