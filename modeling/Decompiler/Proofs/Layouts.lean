import Decompiler.Proofs.Placement
import Decompiler.Proofs.Steps

/-!
# Layouts of aggregates

An aggregate is laid out when it is first needed, and then its layout is kept. So what is true of
one layout depends on all that were made before.

Main statements: `layOut_arranged`, `layOut_packed`.
-/

namespace Decompiler

open List

namespace C

variable {α β : Type} {m m' m1 : TypeMap} {aligned : CType → Int → Prop}

section

inductive Observation where
  | dimension (n : Int)
  | width (n : Int)
  | alignment (t : CType) (a : Int)

abbrev Seen := AggregateKind → Option String → Nat → Option (List Member) → TypeMap →
  List Observation

def extentSeen (inner : Seen) : Nat → CType → TypeMap → List Observation
  | 0, _, _ => []
  | depth + 1, t, m =>
    match t.resolve m with
    | .ok (.array element (some e) _) =>
      match e.value m.nameless m.enumerators with
      | .ok n => .dimension n :: extentSeen inner depth element m
      | .error _ => []
    | .ok (.named _ _ _ (.aggregate kind tag id members)) => inner kind tag id members m
    | _ => []

def memberName (tag : Option String) (d : Decl) : String :=
  tag.getD "None" ++ "." ++ d.name.getD "None"

variable (lay : LayOut) (inner : Seen) (depth : Nat) (tag : Option String)

/-- What is found out while a member is placed. -/
def memberSeen (d : Decl) (m : TypeMap) : List Observation :=
  match d.bits with
  | some bits =>
    match bits.value m.nameless m.enumerators with
    | .ok width => .width width :: extentSeen inner depth d.type m
    | .error _ => []
  | none =>
    match d.name, d.type with
    | some _, type =>
      extentSeen inner depth type m ++
        match ((extent lay (memberName tag d) depth type false).run m).1 with
        | .ok x => [.alignment type x.align]
        | .error _ => []
    | none, .bare (.aggregate kind tag id (some members)) => inner kind tag id (some members) m
    | none, _ => []

def membersSeen (kind : AggregateKind) : Placement → List Member → TypeMap → List Observation
  | _, [], _ => []
  | p, .pragma _ :: members, m => membersSeen kind p members m
  | p, .field d :: members, m =>
    memberSeen lay inner depth tag d m ++
      match (placeMember lay depth kind tag p d).run m with
      | (.ok p, m) => membersSeen kind p members m
      | (.error _, _) => []

def layOutSeen : Nat → Seen
  | 0, _, _, _, _, _ => []
  | depth + 1, kind, tag, id, members, m =>
    match m.layout? tag id, members with
    | none, some members =>
      membersSeen (layOut depth) (layOutSeen depth) (depth + 1) tag kind {} members m
    | _, _ => []

def Observation.Good (aligned : CType → Int → Prop) : Observation → Prop
  | .dimension n | .width n => 0 ≤ n
  | .alignment t a => aligned t a

end

/-- What becomes of a member: the parts that it adds to an aggregate, wherever they are, and what
is known afterwards. -/
inductive Puts (lay : LayOut) (depth : Nat) (tag : Option String) (m : TypeMap) (d : Decl) :
    List Part → TypeMap → Prop
  | member {name x offset m'} :
    d.bits = none →
    d.name = some name →
    (extent lay (memberName tag d) depth d.type false).run m = (.ok x, m') →
    Puts lay depth tag m d [.member offset ⟨d.type, x.size, name⟩ x] m'
  | nested {kind id members l offset m'} :
    d.bits = none →
    d.name = none →
    d.type = .bare (.aggregate kind none id (some members)) →
    (lay kind none id (some members)).run m = (.ok l, m') →
    Puts lay depth tag m d [.nested offset l] m'
  | tagged {kind inner id members l m'} :
    d.bits = none →
    d.name = none →
    d.type = .bare (.aggregate kind (some inner) id (some members)) →
    (lay kind (some inner) id (some members)).run m = (.ok l, m') →
    Puts lay depth tag m d [] m'
  | enumeration {name values m'} :
    d.bits = none →
    d.name = none →
    d.type = .bare (.enumeration name values) →
    (enumerate values).run m = (.ok (), m') →
    Puts lay depth tag m d [] m'
  | nothing :
    d.bits = none →
    d.name = none →
    (∀ kind inner id members, d.type ≠ .bare (.aggregate kind inner id (some members))) →
    (∀ name values, d.type ≠ .bare (.enumeration name values)) →
    Puts lay depth tag m d [] m
  | bits {e width start x m'} :
    d.bits = some e →
    e.value m.nameless m.enumerators = .ok width →
    width ≠ 0 →
    (extent lay (memberName tag d) depth d.type false).run m = (.ok x, m') →
    Puts lay depth tag m d [.bits start width x.size] m'
  | noBits {e x m'} :
    d.bits = some e →
    e.value m.nameless m.enumerators = .ok 0 →
    (extent lay (memberName tag d) depth d.type false).run m = (.ok x, m') →
    Puts lay depth tag m d [] m'

/-- What becomes of members, in the order of their declarations. -/
inductive Places (lay : LayOut) (depth : Nat) (tag : Option String) :
    TypeMap → List Member → List Part → TypeMap → Prop
  | nil {m : TypeMap} :
    Places lay depth tag m [] [] m
  | pragma {m m' text members parts} :
    Places lay depth tag m members parts m' →
    Places lay depth tag m (.pragma text :: members) parts m'
  | field {m m1 m' d members parts parts'} :
    Puts lay depth tag m d parts m1 →
    Places lay depth tag m1 members parts' m' →
    Places lay depth tag m (.field d :: members) (parts ++ parts') m'

/-- A declaration that gives the aggregate in which it stands a member. -/
def Decl.IsField (d : Decl) : Prop :=
  d.bits.isSome ∨ d.name.isSome ∨
    ∃ kind id members, d.type = .bare (.aggregate kind none id (some members))

variable (aligned) in
def TypeMap.Sound (m : TypeMap) : Prop :=
  ∀ tag id l, m.layout? tag id = some l → l.Sound aligned

variable (aligned) in
/-- With or without success the layouts are sound afterwards. A result satisfies `Q`, together with
what is known then. -/
def Lawful (m : TypeMap) (x : Typing α) (Q : α → TypeMap → Prop) : Prop :=
  ∀ r m', x.run m = (r, m') → m'.Sound aligned ∧ ∀ a, r = .ok a → Q a m'

namespace Lawful

variable {x : Typing α} {f : α → Typing β} {P : α → TypeMap → Prop} {Q : β → TypeMap → Prop}

section

variable (sound : m.Sound aligned)

include sound

lemma pure (h : P a m) : Lawful aligned m (pure a) P := by
  rintro r m' ⟨⟩
  refine ⟨sound, ?_⟩
  rintro a ⟨⟩
  exact h

lemma failed (run : x.run m = (.error e, m)) : Lawful aligned m x P := by
  intro r m' run'
  cases run.symm.trans run'
  exact ⟨sound, nofun⟩

lemma lift_bind {x : Except Failure α} (h : ∀ a, x = .ok a → Lawful aligned m (f a) Q) :
    Lawful aligned m (liftM x >>= f) Q := by
  cases x with
  | error e => exact failed sound rfl
  | ok a => exact h a rfl

lemma value_bind {f : Int → Typing β}
    (h : ∀ n, e.value m.nameless m.enumerators = .ok n → Lawful aligned m (f n) Q) :
    Lawful aligned m (constantValue e >>= f) Q :=
  lift_bind sound h

end

lemma done (run : x.run m = (.ok a, m)) (h : Lawful aligned m (f a) Q) :
    Lawful aligned m (x >>= f) Q := by
  intro r m' run'
  rw [run_bind_of_ok run] at run'
  exact h r m' run'

lemma bind (hx : Lawful aligned m x P) (hf : ∀ a m1, x.run m = (.ok a, m1) → m1.Sound aligned →
    P a m1 → Lawful aligned m1 (f a) Q) : Lawful aligned m (x >>= f) Q := by
  intro r m' run
  rcases head : x.run m with ⟨_ | a, m1⟩
  · rw [run_bind_of_error head] at run
    cases run
    exact ⟨(hx _ _ head).1, nofun⟩
  · rw [run_bind_of_ok head] at run
    obtain ⟨sound, h⟩ := hx _ _ head
    exact hf a m1 head sound (h a rfl) r m' run

end Lawful

variable (aligned) in
def Lays (lay : LayOut) (inner : Seen) : Prop :=
  ∀ ⦃kind tag id members m⦄, m.Sound aligned →
    (∀ o ∈ inner kind tag id members m, o.Good aligned) →
    Lawful aligned m (lay kind tag id members) fun l _ => l.Sound aligned

lemma enumerate_sound (sound : m.Sound aligned) :
    Lawful aligned m (enumerate values) fun _ _ => True := by
  have insert {m : TypeMap} (sound : m.Sound aligned) (name : String) (n : Int) :
      { m with enumerators := m.enumerators.insert name n }.Sound aligned := by
    intro tag
    cases tag with
    | none => exact sound none
    | some tag => exact sound (some tag)
  refine .bind (P := fun _ _ => True) ?_ fun _ _ _ sound _ => .pure sound trivial
  generalize (0 : Int) = start
  induction values.getD [] generalizing m start with
  | nil => exact .pure sound trivial
  | cons e es ih =>
    obtain ⟨name, value⟩ := e
    refine .bind (P := fun _ _ => True) ?_ fun n _ _ sound _ => ih sound n
    cases value with
    | none => exact .pure (insert sound name start) trivial
    | some v => exact .value_bind sound fun n _ => .pure (insert sound name n) trivial

lemma isAlignment_wordsSize (sized : wordsSize names ≠ 0) : IsAlignment (wordsSize names) := by
  unfold wordsSize at sized ⊢
  split_ifs at sized ⊢
  · exact ⟨3, rfl⟩
  · exact ⟨2, rfl⟩
  · exact ⟨1, rfl⟩
  · exact ⟨0, rfl⟩
  · exact absurd rfl sized
  · exact ⟨3, rfl⟩
  · exact ⟨2, rfl⟩

lemma Extent.sound_flat {size align} (ha : IsAlignment align) (nonneg : 0 ≤ size) :
    Sound aligned { size := size, align := align } :=
  ⟨ha, nonneg, nofun⟩

lemma words_sound (sound : m.Sound aligned) (field : String) (names : List String)
    (unsized : Bool) : Lawful aligned m (do
      if wordsSize names == 0 && !unsized then reject (.voidField field)
      return { size := wordsSize names, align := wordsSize names })
      fun x _ => unsized = false → Extent.Sound aligned x := by
  split
  case isTrue => exact .failed sound rfl
  case isFalse sized =>
    refine .pure sound ?_
    rintro rfl
    have ha : IsAlignment (wordsSize names) := by
      apply isAlignment_wordsSize
      simpa using sized
    exact Extent.sound_flat ha ha.pos.le

/-- The extent of a type is sound. -/
lemma extent_sound {inner} (lays : Lays aligned lay inner)
    (sound : m.Sound aligned) (good : ∀ o ∈ extentSeen inner depth t m, o.Good aligned) :
    Lawful aligned m (extent lay field depth t unsized) fun x _ =>
      unsized = false → x.Sound aligned := by
  have word : Extent.Sound aligned { size := 4, align := 4 } :=
    Extent.sound_flat ⟨2, rfl⟩ (by decide)
  -- The depth goes down from an array to its elements, and nowhere else.
  induction depth generalizing t unsized with
  | zero => exact .failed sound rfl
  | succ depth ih =>
    rw [extentSeen] at good
    refine .done rfl (.lift_bind sound fun t' resolved => ?_)
    rw [resolved] at good
    split
    case h_1 => exact .pure sound fun _ => word
    case h_2 => exact .failed sound rfl
    case h_3 =>
      refine .value_bind sound fun n value => ?_
      dsimp only at good
      rw [value] at good
      refine .bind (ih fun o mem => good o (.tail _ mem)) fun x _ _ sound' whole =>
        .pure sound' fun _ => ?_
      exact Extent.sound_flat (whole rfl).align (mul_nonneg (whole rfl).size (good _ (.head _)))
    case h_4 =>
      cases unsized with
      | false => exact .failed sound rfl
      | true => exact .pure sound nofun
    case h_5 =>
      refine (lays sound good).bind fun l m1 _ sound' whole => .pure sound' fun _ => ?_
      refine ⟨whole.align, whole.size, ?_⟩
      rintro l' ⟨⟩
      exact ⟨whole, rfl, rfl⟩
    case h_6 =>
      exact (enumerate_sound sound).bind fun _ _ _ sound' _ => .pure sound' fun _ => word
    case h_7 _ _ _ _ names => exact words_sound sound field names unsized
    case h_8 _ names => exact words_sound sound field names unsized
    case h_9 => exact .failed sound rfl

/-- A member is placed behind the others, aligned as its type asks. -/
lemma place_member (placed : Placed aligned kind p parts) (closed : Placed.Closed kind p0 p)
    (sound : x.Sound aligned) (type : aligned t x.align)
    (result : q = { p with
      align := max p.align x.align, offset := alignUp p.offset x.align }.addField
        (alignUp p.offset x.align) ⟨t, x.size, name⟩)
    (result' : p' = (match x.layout with
      | some l => q.addFields (alignUp p.offset x.align) l.fields fun inner => name ++ "." ++ inner
      | none => q).advance kind x.size) :
    Placed aligned kind p' (parts ++ [.member (alignUp p.offset x.align) ⟨t, x.size, name⟩ x]) ∧
      (Packing kind p0 parts →
        Packing kind p' (parts ++ [.member (alignUp p.offset x.align) ⟨t, x.size, name⟩ x])) := by
  subst result'
  obtain ⟨multiple, le, -⟩ := alignUp_spec sound.align placed.offset_nonneg
  have fits : Part.Fits aligned x.align (.member (alignUp p.offset x.align) ⟨t, x.size, name⟩ x) :=
    .member (placed.offset_nonneg.trans le) sound rfl type multiple dvd_rfl
  have keys : q.fields.keys.Nodup := by
    rw [result]
    exact Placement.keys_addField placed.keys
  have holds (o) (f) : Holds q.fields o f ↔
      Holds p.fields o f ∨ o = alignUp p.offset x.align ∧ f = ⟨t, x.size, name⟩ := by
    rw [result, Placement.holds_addField]
  cases layout : x.layout with
  | none =>
    refine placed.occupy closed sound.align sound.size rfl rfl fits .member (by rw [result]; rfl)
      keys fun o f => ?_
    rw [holds]
    refine or_congr_right ⟨?_, ?_⟩
    · rintro ⟨rfl, rfl⟩
      exact .direct
    · intro records
      cases records with
      | direct => exact ⟨rfl, rfl⟩
      | named here _ => cases layout.symm.trans here
  | some l =>
    have inner := (sound.layout l layout).1.keys
    refine placed.occupy closed sound.align sound.size rfl rfl fits .member ?_
      (Placement.keys_addFields keys) fun o f => ?_
    · refine Placement.addFields_keeps.trans ?_
      rw [result]
      rfl
    rw [Placement.holds_addFields inner, holds, or_assoc]
    refine or_congr_right ⟨?_, ?_⟩
    · rintro (⟨rfl, rfl⟩ | ⟨o', g, held, rfl, rfl⟩)
      · exact .direct
      · exact .named layout held
    · intro records
      cases records with
      | direct => exact .inl ⟨rfl, rfl⟩
      | named here held =>
        cases layout.symm.trans here
        exact .inr ⟨_, _, held, rfl, rfl⟩

lemma place_nested (placed : Placed aligned kind p parts) (closed : Placed.Closed kind p0 p)
    (sound : l.Sound aligned)
    (result : p' = ({ p with align := max p.align l.align, offset := alignUp p.offset l.align }.addFields
      (alignUp p.offset l.align) l.fields id).advance kind l.size) :
    Placed aligned kind p' (parts ++ [.nested (alignUp p.offset l.align) l]) ∧
      (Packing kind p0 parts →
        Packing kind p' (parts ++ [.nested (alignUp p.offset l.align) l])) := by
  subst result
  obtain ⟨multiple, le, -⟩ := alignUp_spec sound.align placed.offset_nonneg
  refine placed.occupy closed sound.align sound.size rfl rfl
    (.nested (placed.offset_nonneg.trans le) sound multiple dvd_rfl) .nested
    Placement.addFields_keeps (Placement.keys_addFields placed.keys) fun o f => ?_
  rw [Placement.holds_addFields sound.keys]
  refine or_congr_right ⟨?_, ?_⟩
  · rintro ⟨o', g, held, rfl, rfl⟩
    exact .anonymous held
  · intro records
    cases records with
    | anonymous held => exact ⟨_, _, held, rfl, rfl⟩

variable (aligned) in
/-- Whatever parts are in `p`, in `p'` there are others behind them, which satisfy `P`. -/
def Adds (kind : AggregateKind) (p p' : Placement) (P : List Part → Prop) (isField : Prop) : Prop :=
  ∀ parts, Placed aligned kind p parts → ∃ ps, P ps ∧ Placed aligned kind p' (parts ++ ps) ∧
    (isField → Packing kind p parts → Packing kind p' (parts ++ ps))

lemma Adds.nothing {P : List Part → Prop} (none : P [])
    (placed : ∀ parts, Placed aligned kind p parts → Placed aligned kind p' parts)
    (packing : isField → ∀ parts, Packing kind p parts → Packing kind p' parts) :
    Adds aligned kind p p' P isField := by
  refine fun parts placed' => ⟨[], none, ?_⟩
  rw [append_nil]
  exact ⟨placed parts placed', fun here => packing here parts⟩

section

variable {inner : Seen} (lays : Lays aligned lay inner) {d : Decl} (sound : m.Sound aligned)

include lays sound

lemma placeBits_sound (bits : d.bits = some e)
    (good : ∀ o ∈ memberSeen lay inner depth tag d m, o.Good aligned) :
    Lawful aligned m (placeMember lay depth kind tag p d) fun p' m' =>
      Adds aligned kind p p' (Puts lay depth tag m d · m') d.IsField := by
  unfold placeMember
  rw [memberSeen, bits] at good
  rw [bits]
  dsimp only at good ⊢
  refine .value_bind sound fun width value => ?_
  rw [value] at good
  have nonneg : 0 ≤ width := good _ (.head _)
  refine .bind (extent_sound lays sound fun o mem => good o (.tail _ mem))
    fun x m1 head sound' extent => ?_
  replace extent := extent rfl
  split
  case isTrue zero =>
    refine .pure sound' (.nothing (.noBits bits ?_ head) (fun _ placed => placed.widen extent.align)
      fun _ _ packed => packed)
    rw [value, eq_of_beq zero]
  case isFalse nonzero =>
    split
    case isTrue => exact .failed sound' rfl
    case isFalse flat =>
      split
      case isTrue => exact .failed sound' rfl
      case isFalse narrow =>
        refine .pure sound' fun parts placed => ?_
        have ne : width ≠ 0 := by simpa using nonzero
        have same : x.size = x.align := by
          by_contra differ
          simp [differ] at flat
        have size : IsAlignment x.size := by
          rw [same]
          exact extent.align
        obtain ⟨start, placed', packing⟩ := (placed.widen extent.align).addBits size
          (lt_of_le_of_ne nonneg ne.symm) (not_lt.1 narrow)
          (same.symm ▸ placed.align.dvd_max_right extent.align)
        exact ⟨_, .bits bits value ne head, placed', fun _ => packing⟩

/-- Every kind of member keeps the placement in order. -/
lemma placeMember_sound (good : ∀ o ∈ memberSeen lay inner depth tag d m, o.Good aligned) :
    Lawful aligned m (placeMember lay depth kind tag p d) fun p' m' =>
      Adds aligned kind p p' (Puts lay depth tag m d · m') d.IsField := by
  cases bits : d.bits with
  | some e => exact placeBits_sound lays sound bits good
  | none =>
    unfold placeMember
    rw [memberSeen, bits] at good
    rw [bits]
    dsimp only at good ⊢
    have closed (parts) (placed : Placed aligned kind p parts) := placed.closeBits.1
    cases named : d.name with
    | some name =>
      have field : memberName tag d = tag.getD "None" ++ "." ++ (some name).getD "None" := by
        rw [memberName, named]
      rw [named] at good
      rw [← field]
      refine .bind (extent_sound lays sound fun o mem => good o (mem_append_left _ mem))
        fun x m1 head sound' extent => .pure sound' fun parts placed => ?_
      have type : aligned d.type x.align := by
        dsimp only at good
        rw [head] at good
        exact good (.alignment d.type x.align) (mem_append_right _ (.head _))
      obtain ⟨closed, flat⟩ := placed.closeBits
      obtain ⟨placed', packing⟩ := place_member closed flat (extent rfl) type rfl rfl
      exact ⟨_, .member bits named head, placed', fun _ => packing⟩
    | none =>
      rw [named] at good
      have unnamed (isField : d.IsField) :
          ∃ kind id members, d.type = .bare (.aggregate kind none id (some members)) := by
        simpa [Decl.IsField, bits, named] using isField
      by_cases within : ∃ kind inner id members,
          d.type = .bare (.aggregate kind inner id (some members))
      · obtain ⟨kind', innerTag, id, members, type⟩ := within
        rw [type] at good ⊢
        refine .bind (lays sound good) fun l m1 head sound' whole => ?_
        cases innerTag with
        | some innerTag =>
          refine .pure sound' (.nothing (.tagged bits named type head) closed fun isField => ?_)
          obtain ⟨_, _, _, here⟩ := unnamed isField
          cases type.symm.trans here
        | none =>
          refine .pure sound' fun parts placed => ?_
          obtain ⟨closed, flat⟩ := placed.closeBits
          obtain ⟨placed', packing⟩ := place_nested closed flat whole rfl
          exact ⟨_, .nested bits named type head, placed', fun _ => packing⟩
      · push Not at within
        have no : ¬ d.IsField := by
          intro isField
          obtain ⟨_, _, _, here⟩ := unnamed isField
          exact within _ _ _ _ here
        split
        case h_1 same => cases same
        case h_2 type => exact absurd type (within _ _ _ _)
        case h_3 type =>
          refine (enumerate_sound sound).bind fun _ _ head sound' _ => .pure sound' ?_
          exact .nothing (.enumeration bits named type head) closed fun isField => absurd isField no
        case h_4 other =>
          exact .pure sound (.nothing (.nothing bits named within other) closed fun isField =>
            absurd isField no)

lemma members_sound
    (good : ∀ o ∈ membersSeen lay inner depth tag kind p members m, o.Good aligned) :
    Lawful aligned m (members.foldlM (fun p member =>
      match member with
      | .field d => placeMember lay depth kind tag p d
      | .pragma _ => pure p) p) fun p' m' =>
        Adds aligned kind p p' (Places lay depth tag m members · m')
          (∀ d, .field d ∈ members → d.IsField) := by
  -- Soundness is kept by failures too, since a layout that was made on the way is kept as well.
  induction members generalizing p m with
  | nil => exact .pure sound (.nothing .nil (fun _ placed => placed) fun _ _ packed => packed)
  | cons member members ih =>
    rw [foldlM_cons]
    cases member with
    | pragma text =>
      refine .done rfl fun r m' run => ?_
      obtain ⟨sound', rest⟩ := ih sound good r m' run
      refine ⟨sound', fun p' same parts placed => ?_⟩
      obtain ⟨ps, places, placed', packing⟩ := rest p' same parts placed
      exact ⟨ps, .pragma places, placed', fun fields => packing fun d mem => fields d (.tail _ mem)⟩
    | field d =>
      rw [membersSeen] at good
      refine .bind (placeMember_sound lays sound fun o mem => good o (mem_append_left _ mem))
        fun p1 m1 head sound1 puts r m' run => ?_
      rw [head] at good
      obtain ⟨sound', rest⟩ := ih sound1 (fun o mem => good o (mem_append_right _ mem)) r m' run
      refine ⟨sound', fun p' same parts placed => ?_⟩
      obtain ⟨ps, put, placed1, packing1⟩ := puts parts placed
      obtain ⟨ps', places, placed', packing⟩ := rest p' same (parts ++ ps) placed1
      rw [append_assoc] at placed' packing
      exact ⟨ps ++ ps', .field put places, placed', fun fields packed =>
        packing (fun d mem => fields d (.tail _ mem)) (packing1 (fields d (.head _)) packed)⟩

end

lemma TypeMap.Sound.addLayout {tag id l} (h : m.Sound aligned) (sound : l.Sound aligned) :
    (m.addLayout tag id l).Sound aligned := by
  intro tag' id' l' found
  have other := h tag' id' l'
  cases tag with
  | some name =>
    cases tag' with
    | none => exact other found
    | some name' =>
      rw [layout?, TypeMap.addLayout, Table.get?_insert] at found
      split at found
      · cases found
        exact sound
      · exact other found
  | none =>
    cases tag' with
    | some name' => exact other found
    | none =>
      rw [layout?, TypeMap.addLayout, Table.get?_insert] at found
      split at found
      · cases found
        exact sound
      · exact other found

/-- A layout that was made of the members of an aggregate, and what is known then. -/
inductive Made (aligned : CType → Int → Prop) (depth : Nat) (kind : AggregateKind)
    (tag : Option String) (id : Nat) (members : List Member) (m : TypeMap) : Layout → TypeMap → Prop
  | intro {m1 p parts} :
    Places (layOut depth) (depth + 1) tag m members parts m1 →
    Placed aligned kind p parts →
    ((∀ d, .field d ∈ members → d.IsField) → Packing kind p parts) →
    Made aligned depth kind tag id members m (p.finish kind) (m1.addLayout tag id (p.finish kind))

lemma layOut_new {depth id kind tag members} (lays : Lays aligned (layOut depth) (layOutSeen depth))
    (sound : m.Sound aligned) (new : m.layout? tag id = none)
    (good : ∀ o ∈ layOutSeen (depth + 1) kind tag id (some members) m, o.Good aligned) :
    Lawful aligned m (layOut (depth + 1) kind tag id (some members))
      (Made aligned depth kind tag id members m) := by
  unfold layOutSeen at good
  rw [new] at good
  refine .done rfl ?_
  rw [new]
  cases members with
  | nil => exact .failed sound rfl
  | cons member members =>
    refine .done rfl (.bind (members_sound lays sound good) fun p m1 _ sound1 rest => ?_)
    obtain ⟨parts, places, placed, packing⟩ := rest [] (.empty kind)
    exact .pure (sound1.addLayout placed.finish.1)
      (.intro places placed fun fields => packing fields fun _ => .nil)

/-- Laying out an aggregate keeps all layouts sound. -/
lemma layOut_lays (depth : Nat) : Lays aligned (layOut depth) (layOutSeen depth) := by
  induction depth with
  | zero => exact fun _ _ _ _ _ sound _ => .failed sound rfl
  | succ depth ih =>
    intro kind tag id members m sound good
    cases known : m.layout? tag id with
    | some l =>
      refine .done rfl ?_
      rw [known]
      exact .pure sound (sound tag id l known)
    | none =>
      cases members with
      | none =>
        refine .done rfl ?_
        rw [known]
        exact .failed sound rfl
      | some members =>
        intro r m' run
        obtain ⟨sound', rest⟩ := layOut_new ih sound known good r m' run
        refine ⟨sound', fun l same => ?_⟩
        obtain ⟨-, placed, -⟩ := rest l same
        exact placed.finish.1

/-- What aggregates have been laid out and what members have been placed, perhaps without success,
with all that was found out. In between other things may become known than layouts. -/
inductive History : List Observation → TypeMap → Prop
  | start {m : TypeMap} :
    (∀ tag id, m.layout? tag id = none) →
    History [] m
  | other {seen m m'} :
    History seen m →
    (∀ tag id, m'.layout? tag id = m.layout? tag id) →
    History seen m'
  | layOut {seen m m' depth id kind tag members r} :
    History seen m →
    (C.layOut depth kind tag id members).run m = (r, m') →
    History (seen ++ layOutSeen depth kind tag id members m) m'
  | place {seen m m' depth kind tag p d r} :
    History seen m →
    (placeMember (C.layOut depth) (depth + 1) kind tag p d).run m = (r, m') →
    History (seen ++ memberSeen (C.layOut depth) (layOutSeen depth) (depth + 1) tag d m) m'

/-- All layouts that have been made are sound. -/
lemma History.sound (h : History seen m) (good : ∀ o ∈ seen, o.Good aligned) : m.Sound aligned := by
  induction h with
  | start none => exact fun tag id l found => nomatch (none tag id).symm.trans found
  | other _ same ih => exact fun tag id l found => ih good tag id l ((same tag id).symm.trans found)
  | layOut _ run ih =>
    obtain ⟨before, here⟩ := forall_mem_append.1 good
    exact (layOut_lays _ (ih before) here _ _ run).1
  | place _ run ih =>
    obtain ⟨before, here⟩ := forall_mem_append.1 good
    exact (placeMember_sound (layOut_lays _) (ih before) here _ _ run).1

/-- Where the parts of an aggregate and the fields that they give it are. -/
structure Arranged (seen : List Observation) (kind : AggregateKind) (parts : List Part)
    (l : Layout) : Prop where
  align : ∃ k : Nat, l.align = 2 ^ k
  multiple : l.align ∣ l.size
  /-- The fields are the members with names, the fields of their layouts and those of aggregates
  without names, at offsets that are counted from where these start. -/
  records : ∀ o f, Holds l.fields o f ↔ ∃ part ∈ parts, part.Records o f
  aligned : ∀ o f, Holds l.fields o f → ∃ a, .alignment f.type a ∈ seen ∧ a ∣ o
  inside : ∀ o f, Holds l.fields o f → 0 ≤ o ∧ o + f.size ≤ l.size
  partsAligned : ∀ part ∈ parts, part.IsAligned
  partsInside : ∀ part ∈ parts, 0 ≤ part.first ∧ part.first ≤ part.last ∧ part.last ≤ 8 * l.size
  /-- In a structure no two parts share a bit, and they are in the order of their declarations. -/
  ordered : kind = .struct → parts.Pairwise fun a b => a.last ≤ b.first
  start : kind = .union → ∀ part ∈ parts, part.first = 0

lemma Placed.arranged (h : Placed (fun t a => .alignment t a ∈ seen) kind p parts) :
    Arranged seen kind parts (p.finish kind) := by
  obtain ⟨whole, records, bounds, ordered, start⟩ := h.finish
  refine ⟨whole.align, whole.multiple, records, ?_, ?_, ?_, ?_, ordered, start⟩
  · intro o f holds
    obtain ⟨-, -, a, type, multiple, -⟩ := whole.inside o f holds
    exact ⟨a, type, multiple⟩
  · intro o f holds
    obtain ⟨nonneg, inside, -⟩ := whole.inside o f holds
    exact ⟨nonneg, inside⟩
  · exact fun part mem => (h.fits part mem).isAligned
  · intro part mem
    obtain ⟨nonneg, inside⟩ := bounds part mem
    exact ⟨nonneg, (h.fits part mem).first_le_last, inside⟩

lemma good_of_nonneg {seen : List Observation} (dimensions : ∀ n, .dimension n ∈ seen → 0 ≤ n)
    (widths : ∀ n, .width n ∈ seen → 0 ≤ n) :
    ∀ o ∈ seen, o.Good fun t a => .alignment t a ∈ seen := by
  intro o mem
  cases o with
  | dimension n => exact dimensions n mem
  | width n => exact widths n mem
  | alignment t a => exact mem

lemma History.made {id l} (past : History seen m) (new : m.layout? tag id = none)
    (run : (C.layOut (depth + 1) kind tag id (some members)).run m = (.ok l, m'))
    (all : seen ++ layOutSeen (depth + 1) kind tag id (some members) m = seen')
    (dimensions : ∀ n, .dimension n ∈ seen' → 0 ≤ n) (widths : ∀ n, .width n ∈ seen' → 0 ≤ n) :
    Made (fun t a => .alignment t a ∈ seen') depth kind tag id members m l m' := by
  have good := good_of_nonneg dimensions widths
  subst all
  obtain ⟨before, here⟩ := forall_mem_append.1 good
  exact (layOut_new (layOut_lays depth) (past.sound before) new here _ _ run).2 l rfl

/-- Whatever has been laid out before, the parts of an aggregate are arranged in its layout as they
should be, if no array has a negative dimension and no bit-field a negative width. -/
theorem layOut_arranged {seen : List Observation} {depth id : Nat} {kind : AggregateKind}
    {tag : Option String} {members : List Member} {l : Layout} (past : History seen m)
    (new : m.layout? tag id = none)
    (run : (layOut (depth + 1) kind tag id (some members)).run m = (.ok l, m'))
    (dimensions : ∀ n, .dimension n ∈ seen ++ layOutSeen (depth + 1) kind tag id (some members) m →
      0 ≤ n)
    (widths : ∀ n, .width n ∈ seen ++ layOutSeen (depth + 1) kind tag id (some members) m →
      0 ≤ n) :
    ∃ parts m₁, Places (layOut depth) (depth + 1) tag m members parts m₁ ∧
      m' = m₁.addLayout tag id l ∧
      Arranged (seen ++ layOutSeen (depth + 1) kind tag id (some members) m) kind parts l := by
  obtain ⟨places, placed, -⟩ := past.made new run rfl dimensions widths
  exact ⟨_, _, places, rfl, placed.arranged⟩

def namedMember (name : String) (type : CType) (bits : Option Expr := none) : Member :=
  .field (.mk (some name) [] [] type bits)

/-- A structure with a bit-field, another structure with an array, and a union without a name. -/
def mixedMembers : List Member :=
  [namedMember "a" (.ofKeyword "char"),
   namedMember "b" (.ofKeyword "int") (some (.constant "3")),
   namedMember "c" (.named 1 none [] (.aggregate .struct none 1 (some
     [namedMember "d" (.ofKeyword "short"),
      namedMember "e" (.array (.ofKeyword "int") (some (.constant "2")) [])]))),
   .field (.mk none [] [] (.bare (.aggregate .union none 2 (some
     [namedMember "f" (.ofKeyword "char"), namedMember "g" (.ofKeyword "double")]))) none)]

/-- The array is in the structure at its offset there, and the members of the union are both at its
beginning. -/
theorem layOut_arranged_mixed : ∃ l m',
    (layOut 3 .struct (some "S") 0 (some mixedMembers)).run {} = (.ok l, m') ∧
      (∃ f, Holds l.fields 8 f ∧ f.name = "c.e" ∧ f.size = 8) ∧
      (∃ f g, Holds l.fields 16 f ∧ Holds l.fields 16 g ∧ f.name = "f" ∧ g.name = "g") ∧
      ∃ parts m₁, Places (layOut 2) 3 (some "S") {} mixedMembers parts m₁ ∧
        Arranged (layOutSeen 3 .struct (some "S") 0 (some mixedMembers) {}) .struct parts l := by
  have seen : ([] ++ layOutSeen 3 .struct (some "S") 0 (some mixedMembers) {}) =
    [.alignment (.ofKeyword "char") 1, .width 3, .alignment (.ofKeyword "short") 2, .dimension 2,
     .alignment (.array (.ofKeyword "int") (some (.constant "2")) []) 4, .alignment _ 4,
     .alignment (.ofKeyword "char") 1, .alignment (.ofKeyword "double") 8] := rfl
  have run : (layOut 3 .struct (some "S") 0 (some mixedMembers)).run {} = (.ok _, _) := rfl
  obtain ⟨parts, m₁, places, -, arranged⟩ := layOut_arranged
    (.start fun tag id => by cases tag <;> rfl) rfl run (by simp [seen]) (by simp [seen])
  exact ⟨_, _, run, ⟨_, ⟨_, rfl, .head _⟩, rfl, rfl⟩,
    ⟨_, _, ⟨_, rfl, .head _⟩, ⟨_, rfl, .tail _ (.head _)⟩, rfl, rfl⟩, parts, m₁, places, arranged⟩

def negativeBits : List Member :=
  [namedMember "a" (.ofKeyword "int"),
   namedMember "b" (.ofKeyword "int") (some (.unary "-" (.constant "64"))),
   namedMember "c" (.ofKeyword "int")]

/-- A negative width is not rejected, and what stands behind the bit-field is placed on what stands
before it. -/
theorem layOut_overlaps : ∃ l m',
    (layOut 1 .struct (some "S") 0 (some negativeBits)).run {} = (.ok l, m') ∧
      Holds l.fields 0 ⟨.ofKeyword "int", 4, "a"⟩ ∧ Holds l.fields 0 ⟨.ofKeyword "int", 4, "c"⟩ ∧
      ∀ n, .dimension n ∉ layOutSeen 1 .struct (some "S") 0 (some negativeBits) {} := by
  refine ⟨_, _, rfl, ⟨_, rfl, .head _⟩, ⟨_, rfl, .tail _ (.head _)⟩, fun n => ?_⟩
  have seen : layOutSeen 1 .struct (some "S") 0 (some negativeBits) {} =
    [.alignment (.ofKeyword "int") 4, .width (-64), .alignment (.ofKeyword "int") 4] := rfl
  simp [seen]

/-- Where the parts of a structure are: as close to each other as they can be, up to the end of the
structure, which has the fields that they give it. -/
structure Packs (parts : List Part) (l : Layout) : Prop where
  packed : ∃ e, Part.Packed parts e ∧ IsLeast {n | e ≤ 8 * n ∧ l.align ∣ n} l.size
  records : ∀ o f, Holds l.fields o f ↔ ∃ part ∈ parts, part.Records o f
  bits : ∀ start width size, .bits start width size ∈ parts →
    size ≤ l.align ∧ start + width ≤ 8 * l.size

/-- Whatever has been laid out before, each bit-field of a structure starts at the first bit behind
the member before it from which on it lies in one unit of its type. The structure is aligned at
least as this type is, and contains all the bits. -/
theorem layOut_packed {seen : List Observation} {depth id : Nat} {tag : Option String}
    {members : List Member} {l : Layout} (past : History seen m) (new : m.layout? tag id = none)
    (run : (layOut (depth + 1) .struct tag id (some members)).run m = (.ok l, m'))
    (dimensions : ∀ n, .dimension n ∈
      seen ++ layOutSeen (depth + 1) .struct tag id (some members) m → 0 ≤ n)
    (widths : ∀ n, .width n ∈ seen ++ layOutSeen (depth + 1) .struct tag id (some members) m →
      0 ≤ n)
    (fields : ∀ d, .field d ∈ members → d.IsField) :
    ∃ parts m₁, Places (layOut depth) (depth + 1) tag m members parts m₁ ∧
      m' = m₁.addLayout tag id l ∧ Packs parts l := by
  obtain ⟨places, placed, packing⟩ := past.made new run rfl dimensions widths
  obtain ⟨-, records, bounds, -⟩ := placed.finish
  refine ⟨_, _, places, rfl, ⟨_, packing fields rfl, placed.size_least rfl⟩, records, ?_⟩
  intro start width size mem
  refine ⟨?_, (bounds _ mem).2⟩
  cases placed.closeBits.1.fits _ mem with
  | bits _ _ _ dvd => exact Int.le_of_dvd placed.closeBits.1.align.pos dvd

def straddlingBits : List Member :=
  [namedMember "a" (.ofKeyword "char") (some (.constant "6")),
   namedMember "b" (.ofKeyword "char") (some (.constant "4")),
   namedMember "c" (.ofKeyword "short") (some (.constant "9")),
   namedMember "d" (.ofKeyword "int")]

theorem layOut_packed_straddling : ∃ l m',
    (layOut 1 .struct (some "S") 0 (some straddlingBits)).run {} = (.ok l, m') ∧
      l.size = 8 ∧ l.align = 4 ∧ Holds l.fields 4 ⟨.ofKeyword "int", 4, "d"⟩ ∧
      ∃ parts m₁, Places (layOut 0) 1 (some "S") {} straddlingBits parts m₁ ∧
        m' = m₁.addLayout (some "S") 0 l ∧ Packs parts l := by
  have seen : ([] ++ layOutSeen 1 .struct (some "S") 0 (some straddlingBits) {}) =
    [.width 6, .width 4, .width 9, .alignment (.ofKeyword "int") 4] := rfl
  have run : (layOut 1 .struct (some "S") 0 (some straddlingBits)).run {} = (.ok _, _) := rfl
  refine ⟨_, _, run, rfl, rfl, ⟨_, rfl, .head _⟩, layOut_packed
    (.start fun tag id => by cases tag <;> rfl) rfl run (by simp [seen]) (by simp [seen]) ?_⟩
  simp [straddlingBits, namedMember, Decl.IsField, Decl.name]

end C

end Decompiler
