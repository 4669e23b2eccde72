import Decompiler.C.Layout
import Decompiler.Proofs.Tables

/-!
# Placing the members of an aggregate

The arithmetic of layouts: what it means that members are placed one after the other.
-/

namespace Decompiler

open List Table

namespace C

def IsAlignment (a : Int) : Prop :=
  ∃ k : Nat, a = 2 ^ k

namespace IsAlignment

lemma pos (h : IsAlignment a) : 0 < a := by
  obtain ⟨k, rfl⟩ := h
  positivity

section

variable (ha : IsAlignment a)

include ha

lemma dvd_of_le (hb : IsAlignment b) (le : a ≤ b) : a ∣ b := by
  obtain ⟨k, rfl⟩ := ha
  obtain ⟨l, rfl⟩ := hb
  apply pow_dvd_pow
  by_contra lt
  have := pow_lt_pow_right₀ (a := (2 : Int)) (by decide) (Nat.lt_of_not_le lt)
  omega

lemma max (hb : IsAlignment b) : IsAlignment (max a b) := by
  rcases max_choice a b with same | same
  · rwa [same]
  · rwa [same]

lemma dvd_max_left (hb : IsAlignment b) : a ∣ Max.max a b :=
  ha.dvd_of_le (ha.max hb) (le_max_left a b)

lemma dvd_max_right (hb : IsAlignment b) : b ∣ Max.max a b :=
  hb.dvd_of_le (ha.max hb) (le_max_right a b)

end

end IsAlignment

lemma xor_and_mask (n k : Nat) : n ^^^ (n &&& (2 ^ k - 1)) = 2 ^ k * (n / 2 ^ k) := by
  apply Nat.eq_of_testBit_eq
  intro i
  rw [Nat.testBit_two_pow_mul,
    Nat.testBit_div_two_pow]
  by_cases high : k ≤ i
  · simp [high, not_lt.2 high]
  · simp [high, Nat.lt_of_not_le high]

section

variable (h : IsAlignment a)

include h

lemma land_neg (nonneg : 0 ≤ x) : Integer.land x (-a) = a * (x / a) := by
  obtain ⟨k, rfl⟩ := h
  obtain ⟨n, rfl⟩ := Int.eq_ofNat_of_zero_le nonneg
  have mask : -2 ^ k = Int.negSucc (2 ^ k - 1) := by
    rw [Int.negSucc_eq]
    push_cast [Nat.one_le_two_pow]
    rw [sub_add_cancel]
  rw [mask]
  change Int.ofNat (n ^^^ (n &&& (2 ^ k - 1))) = _
  rw [xor_and_mask]
  simp

lemma alignUp_spec (nonneg : 0 ≤ x) : a ∣ alignUp x a ∧ x ≤ alignUp x a ∧ alignUp x a < x + a := by
  have pos := h.pos
  rw [alignUp, land_neg h (by omega)]
  have lower := Int.mul_ediv_self_le (x := x + a - 1) pos.ne'
  have upper := Int.lt_mul_ediv_self_add (x := x + a - 1) pos
  exact ⟨dvd_mul_right _ _, by omega, by omega⟩

lemma alignUp_zero : alignUp 0 a = 0 := by
  obtain ⟨multiple, le, lt⟩ := alignUp_spec h (le_refl 0)
  exact Int.eq_zero_of_dvd_of_nonneg_of_lt le (by omega) multiple

lemma alignUp_least (nonneg : 0 ≤ x) (near : e ≤ 8 * x ∧ 8 * x < e + 8) :
    IsLeast {o | e ≤ 8 * o ∧ a ∣ o} (alignUp x a) := by
  obtain ⟨multiple, le, lt⟩ := alignUp_spec h nonneg
  refine ⟨⟨by omega, multiple⟩, ?_⟩
  rintro o ⟨behind, divides⟩
  by_contra above
  have apart := Int.le_of_dvd (by omega) (Int.dvd_sub multiple divides)
  omega

lemma nextWord_eq (nonneg : 0 ≤ x) : Integer.land (x + a) (-a) = a * (x / a + 1) := by
  have pos := h.pos
  rw [land_neg h (by omega), Int.add_ediv_of_dvd_right dvd_rfl, Int.ediv_self pos.ne']

end

def Holds (fields : Table Int (List Field)) (offset : Int) (f : Field) : Prop :=
  ∃ fs, fields.get? offset = some fs ∧ f ∈ fs

namespace Placement

variable {p : Placement} {fields : Table Int (List Field)} {offset o : Int} {f g : Field}
  {rename : String → String}

lemma holds_addField : Holds (p.addField offset g).fields o f ↔
    Holds p.fields o f ∨ o = offset ∧ f = g := by
  rw [Holds, addField, get?_insert]
  by_cases here : o = offset
  · subst here
    cases found : p.fields.get? o with
    | none | some fs => simp [Holds, found]
  · simp [Holds, here]

lemma keys_addField (distinct : p.fields.keys.Nodup) : (p.addField offset g).fields.keys.Nodup :=
  nodup_insert distinct

def position (p : Placement) : Int :=
  8 * p.offset + p.bitOffset

def addAll (p : Placement) (placed : List (Int × Field)) : Placement :=
  placed.foldl (fun p (o, f) => p.addField o f) p

lemma addFields_eq : p.addFields offset fields rename = p.addAll (fields.entries.flatMap
    fun (o, fs) => fs.map fun f => (offset + o, { f with name := rename f.name })) := by
  rw [addFields, addAll, foldl_flatMap]
  congr 1
  funext p ⟨o, fs⟩
  rw [foldl_map]

lemma addAll_spec (placed : List (Int × Field)) (p : Placement) :
    (∀ o f, Holds (p.addAll placed).fields o f ↔ Holds p.fields o f ∨ (o, f) ∈ placed) ∧
      (p.fields.keys.Nodup → (p.addAll placed).fields.keys.Nodup) ∧
      p.addAll placed = { p with fields := (p.addAll placed).fields } := by
  induction placed generalizing p with
  | nil => exact ⟨by simp [addAll], id, rfl⟩
  | cons entry placed ih =>
    obtain ⟨offset, g⟩ := entry
    obtain ⟨holds, keys, rest⟩ := ih (p.addField offset g)
    refine ⟨fun o f => ?_, fun distinct => keys (keys_addField distinct), rest⟩
    refine (holds o f).trans ?_
    rw [holds_addField, mem_cons, Prod.mk.injEq, or_assoc]

lemma addFields_keeps : p.addFields offset fields rename =
    { p with fields := (p.addFields offset fields rename).fields } := by
  rw [addFields_eq]
  exact (addAll_spec _ p).2.2

lemma keys_addFields (distinct : p.fields.keys.Nodup) :
    (p.addFields offset fields rename).fields.keys.Nodup := by
  rw [addFields_eq]
  exact (addAll_spec _ p).2.1 distinct

lemma holds_addFields (distinct : fields.keys.Nodup) :
    Holds (p.addFields offset fields rename).fields o f ↔ Holds p.fields o f ∨
      ∃ o' g, Holds fields o' g ∧ o = offset + o' ∧ f = { g with name := rename g.name } := by
  rw [addFields_eq, (addAll_spec _ p).1]
  refine or_congr_right ⟨?_, ?_⟩
  · intro mem
    obtain ⟨⟨o', fs⟩, entry, mem⟩ := mem_flatMap.1 mem
    obtain ⟨g, here, same⟩ := mem_map.1 mem
    cases same
    exact ⟨o', g, ⟨fs, (mem_entries_iff distinct).1 entry, here⟩, rfl, rfl⟩
  · rintro ⟨o', g, ⟨fs, found, mem⟩, rfl, rfl⟩
    exact mem_flatMap.2 ⟨(o', fs), (mem_entries_iff distinct).2 found,
      mem_map_of_mem mem⟩

end Placement

inductive Part where
  | member (offset : Int) (f : Field) (x : Extent)
  | nested (offset : Int) (l : Layout)
  | bits (start width size : Int)

namespace Part

def first : Part → Int
  | .member offset _ _ | .nested offset _ => 8 * offset
  | .bits start _ _ => start

def last : Part → Int
  | .member offset _ x => 8 * (offset + x.size)
  | .nested offset l => 8 * (offset + l.size)
  | .bits start width _ => start + width

def IsAligned : Part → Prop
  | .member offset _ x => x.align ∣ offset
  | .nested offset l => l.align ∣ offset
  | .bits start width size => start / (8 * size) = (start + width - 1) / (8 * size)

/-- Parts that follow each other as closely as they can, and the bit at which the last one ends. A
bit-field starts at the first bit from which on it lies in one unit of its type, and everything else
at the first byte that is a multiple of its alignment. -/
inductive Packed : List Part → Int → Prop
  | nil :
    Packed [] 0
  | bits {parts e start width size} :
    Packed parts e →
    IsLeast {n | e ≤ n ∧ (Part.bits n width size).IsAligned} start →
    Packed (parts ++ [.bits start width size]) (start + width)
  | member {parts e offset f x} :
    Packed parts e →
    IsLeast {o | e ≤ 8 * o ∧ x.align ∣ o} offset →
    Packed (parts ++ [.member offset f x]) (8 * (offset + x.size))
  | nested {parts e offset l} :
    Packed parts e →
    IsLeast {o | e ≤ 8 * o ∧ l.align ∣ o} offset →
    Packed (parts ++ [.nested offset l]) (8 * (offset + l.size))

inductive Records : Part → Int → Field → Prop
  | direct :
    Records (.member offset f x) offset f
  | named {offset o f g x l} :
    x.layout = some l →
    Holds l.fields o g →
    Records (.member offset f x) (offset + o) { g with name := f.name ++ "." ++ g.name }
  | anonymous {offset o g l} :
    Holds l.fields o g →
    Records (.nested offset l) (offset + o) g

end Part

section

variable (aligned : CType → Int → Prop)

structure Layout.Sound (l : Layout) : Prop where
  align : IsAlignment l.align
  size : 0 ≤ l.size
  multiple : l.align ∣ l.size
  keys : l.fields.keys.Nodup
  inside : ∀ o f, Holds l.fields o f →
    0 ≤ o ∧ o + f.size ≤ l.size ∧ ∃ a, aligned f.type a ∧ a ∣ o ∧ a ∣ l.align

structure Extent.Sound (x : Extent) : Prop where
  align : IsAlignment x.align
  size : 0 ≤ x.size
  layout : ∀ l, x.layout = some l → l.Sound aligned ∧ l.size = x.size ∧ l.align = x.align

/-- A part in the right place of an aggregate with the given alignment. -/
inductive Part.Fits (align : Int) : Part → Prop
  | member :
    0 ≤ offset →
    x.Sound aligned →
    f.size = x.size →
    aligned f.type x.align →
    x.align ∣ offset →
    x.align ∣ align →
    Fits align (.member offset f x)
  | nested :
    0 ≤ offset →
    l.Sound aligned →
    l.align ∣ offset →
    l.align ∣ align →
    Fits align (.nested offset l)
  | bits :
    0 ≤ start →
    0 ≤ width →
    (Part.bits start width size).IsAligned →
    size ∣ align →
    Fits align (.bits start width size)

variable {aligned}

namespace Part.Fits

variable {part : Part} {f : Field}

section

variable (h : part.Fits aligned align)

include h

lemma mono (dvd : align ∣ align') : part.Fits aligned align' := by
  cases h with
  | member nonneg sound size type offset here =>
    exact .member nonneg sound size type offset (here.trans dvd)
  | nested nonneg sound offset here => exact .nested nonneg sound offset (here.trans dvd)
  | bits nonneg width word here => exact .bits nonneg width word (here.trans dvd)

lemma isAligned : part.IsAligned := by
  cases h with
  | member _ _ _ _ offset _ | nested _ _ offset _ => exact offset
  | bits _ _ word _ => exact word

lemma first_le_last : part.first ≤ part.last := by
  cases h with
  | member _ sound _ _ _ _ | nested _ sound _ _ =>
    have := sound.size
    simp only [first, last]
    omega
  | bits _ width _ _ =>
    simp only [first, last]
    omega

lemma records (records : part.Records o f) :
    0 ≤ o ∧ 8 * (o + f.size) ≤ part.last ∧ ∃ a, aligned f.type a ∧ a ∣ o ∧ a ∣ align := by
  cases records with
  | direct =>
    cases h with
    | member nonneg sound size type offset here =>
      exact ⟨nonneg, by simp [last, size], _, type, offset, here⟩
  | @named offset o f g x l layout holds =>
    cases h with
    | member nonneg sound size type multiple here =>
      obtain ⟨sound', size', align'⟩ := sound.layout l layout
      obtain ⟨nonneg', inside, a, type', multiple', below⟩ := sound'.inside o g holds
      rw [align'] at below
      refine ⟨by omega, ?_, a, type', ?_, below.trans here⟩
      · simp only [last]
        omega
      · exact Int.dvd_add (below.trans multiple) multiple'
  | @anonymous offset o g l holds =>
    cases h with
    | nested nonneg sound multiple here =>
      obtain ⟨nonneg', inside, a, type', multiple', below⟩ := sound.inside o f holds
      refine ⟨by omega, ?_, a, type', ?_, below.trans here⟩
      · simp only [last]
        omega
      · exact Int.dvd_add (below.trans multiple) multiple'

end

end Part.Fits

def Shape (p : Placement) (parts : List Part) : AggregateKind → Prop
  | .struct => 0 ≤ p.offset ∧ 0 ≤ p.bitOffset ∧ p.bitOffset < 8 ∧
    parts.Pairwise (fun a b => a.last ≤ b.first) ∧
    ∀ part ∈ parts, part.last ≤ 8 * p.offset + p.bitOffset
  | .union => p.offset = 0 ∧ 0 ≤ p.unionSize ∧
    ∀ part ∈ parts, part.first = 0 ∧ part.last ≤ 8 * p.unionSize

variable (aligned) in
structure Placed (kind : AggregateKind) (p : Placement) (parts : List Part) : Prop where
  align : IsAlignment p.align
  keys : p.fields.keys.Nodup
  records : ∀ o f, Holds p.fields o f ↔ ∃ part ∈ parts, part.Records o f
  fits : ∀ part ∈ parts, part.Fits aligned p.align
  shape : Shape p parts kind

def Packing (kind : AggregateKind) (p : Placement) (parts : List Part) : Prop :=
  kind = .struct → Part.Packed parts p.position

namespace Placed

variable {p : Placement} {parts : List Part}

lemma offset_nonneg (h : Placed aligned kind p parts) : 0 ≤ p.offset := by
  cases kind with
  | struct => exact h.shape.1
  | union => exact h.shape.1.ge

lemma empty (kind : AggregateKind) : Placed aligned kind {} [] := by
  refine ⟨⟨0, rfl⟩, nodup_nil, fun o f => ?_, nofun, ?_⟩
  · simp [Holds, get?, Table.empty]
  · cases kind with
    | struct => exact ⟨le_rfl, le_rfl, by decide, .nil, nofun⟩
    | union => exact ⟨rfl, le_rfl, nofun⟩

/-- A position at the beginning of a byte that bits may have been closed to reach. -/
def Closed (kind : AggregateKind) (p p' : Placement) : Prop :=
  kind = .struct →
    p'.bitOffset = 0 ∧ p.position ≤ 8 * p'.offset ∧ 8 * p'.offset < p.position + 8

lemma closeBits (h : Placed aligned kind p parts) :
    Placed aligned kind (p.closeBits kind) parts ∧ Closed kind p (p.closeBits kind) := by
  unfold Placement.closeBits
  cases kind with
  | union => exact ⟨by simpa using h, nofun⟩
  | struct =>
    obtain ⟨nonneg, bits, below, ordered, inside⟩ := h.shape
    split
    case isTrue opened =>
      have opened : p.bitOffset ≠ 0 := by simpa using opened
      refine ⟨⟨h.align, h.keys, h.records, h.fits, ?_⟩, fun _ => ⟨rfl, ?_⟩⟩
      · refine ⟨by dsimp only; omega, le_rfl, by dsimp only; omega, ordered, fun part mem => ?_⟩
        have := inside part mem
        dsimp only
        omega
      · rw [Placement.position]
        dsimp only
        omega
    case isFalse closed =>
      have closed : p.bitOffset = 0 := by simpa using closed
      refine ⟨h, fun _ => ⟨closed, ?_⟩⟩
      rw [Placement.position]
      omega

lemma widen (h : Placed aligned kind p parts) (ha : IsAlignment a) :
    Placed aligned kind { p with align := max p.align a } parts := by
  refine ⟨h.align.max ha, h.keys, h.records, fun part mem => ?_, ?_⟩
  · exact (h.fits part mem).mono (h.align.dvd_max_left ha)
  · cases kind with
    | struct | union => exact h.shape

lemma pairwise_append {part : Part} (ordered : parts.Pairwise fun a b => a.last ≤ b.first)
    (behind : ∀ a ∈ parts, a.last ≤ part.first) :
    (parts ++ [part]).Pairwise fun a b => a.last ≤ b.first := by
  rw [List.pairwise_append]
  refine ⟨ordered, pairwise_singleton _ _, fun a mem b mem' => ?_⟩
  cases mem_singleton.1 mem'
  exact behind a mem

lemma forall_append {P : Part → Prop} (old : ∀ a ∈ parts, P a) (new : P part) :
    ∀ a ∈ parts ++ [part], P a := by
  intro a mem
  rcases mem_append.1 mem with mem | mem
  · exact old a mem
  · cases mem_singleton.1 mem
    exact new

section

variable (h : Placed aligned kind p parts)

include h

/-- A part is put behind the others, at the next aligned place. -/
lemma occupy (closed : Closed kind p0 p) {q : Placement} (ha : IsAlignment a) (nonneg : 0 ≤ size)
    (first : part.first = 8 * alignUp p.offset a) (last : part.last = 8 * (alignUp p.offset a + size))
    (fits : part.Fits aligned a) (packed : ∀ {e}, Part.Packed parts e →
      IsLeast {o | e ≤ 8 * o ∧ a ∣ o} (alignUp p.offset a) →
      Part.Packed (parts ++ [part]) (8 * (alignUp p.offset a + size)))
    (same : q = { p with align := max p.align a, offset := alignUp p.offset a, fields := q.fields })
    (keys : q.fields.keys.Nodup)
    (records : ∀ o f, Holds q.fields o f ↔ Holds p.fields o f ∨ part.Records o f) :
    Placed aligned kind (q.advance kind size) (parts ++ [part]) ∧
      (Packing kind p0 parts → Packing kind (q.advance kind size) (parts ++ [part])) := by
  generalize q.fields = fields at same keys records
  subst same
  have records' (o : Int) (f : Field) :
      Holds fields o f ↔ ∃ q ∈ parts ++ [part], q.Records o f := by
    rw [records, h.records]
    simp [or_and_right, exists_or]
  have fits' : ∀ q ∈ parts ++ [part], q.Fits aligned (max p.align a) :=
    forall_append (fun q mem => (h.fits q mem).mono (h.align.dvd_max_left ha))
      (fits.mono (h.align.dvd_max_right ha))
  refine ⟨⟨?_, ?_, ?_, ?_, ?_⟩, ?_⟩
  · cases kind <;> exact h.align.max ha
  · cases kind <;> exact keys
  · cases kind <;> exact records'
  · cases kind <;> exact fits'
  · cases kind with
    | struct =>
      obtain ⟨nonneg', bits, -, ordered, inside⟩ := h.shape
      obtain ⟨-, le, -⟩ := alignUp_spec ha nonneg'
      have flat := (closed rfl).1
      have behind (q : Part) (mem : q ∈ parts) : q.last ≤ part.first := by
        have := inside q mem
        omega
      refine ⟨?_, bits, by simp [Placement.advance, flat], pairwise_append ordered behind, ?_⟩
      · simp only [Placement.advance]
        omega
      · refine forall_append (fun q mem => ?_) ?_
        · have := behind q mem
          simp only [Placement.advance]
          omega
        · simp only [Placement.advance]
          omega
    | union =>
      obtain ⟨start, nonneg', inside⟩ := h.shape
      rw [start, alignUp_zero ha] at first last
      refine ⟨by simp [Placement.advance, start, alignUp_zero ha], ?_, forall_append ?_ ?_⟩
      · exact le_max_of_le_left nonneg'
      · intro q mem
        obtain ⟨here, fits⟩ := inside q mem
        refine ⟨here, fits.trans ?_⟩
        simp only [Placement.advance]
        omega
      · refine ⟨by omega, ?_⟩
        simp only [Placement.advance]
        omega
  · rintro before rfl
    obtain ⟨flat, near⟩ := closed rfl
    have packed' := packed (before rfl) (alignUp_least ha h.shape.1 near)
    rwa [← add_zero (8 * _), ← flat] at packed'

lemma records_bits {start width size} (o : Int) (f : Field) :
    Holds p.fields o f ↔ ∃ q ∈ parts ++ [.bits start width size], q.Records o f := by
  rw [h.records]
  have none : ¬ Part.Records (.bits start width size) o f := nofun
  simp [or_and_right, exists_or, none]

/-- A bit field goes on in its unit, or starts a new one if it does not fit. -/
lemma addBits (hs : IsAlignment size) (pos : 0 < width) (le : width ≤ size * 8)
    (dvd : size ∣ p.align) : ∃ start,
      Placed aligned kind (p.addBits kind width size) (parts ++ [.bits start width size]) ∧
        (Packing kind p parts →
          Packing kind (p.addBits kind width size) (parts ++ [.bits start width size])) := by
  have spos := hs.pos
  cases kind with
  | union =>
    obtain ⟨start, nonneg, inside⟩ := h.shape
    have word : 0 / (8 * size) = (0 + width - 1) / (8 * size) := by
      rw [Int.zero_ediv, Int.ediv_eq_zero_of_lt (by omega) (by omega)]
    refine ⟨0, ⟨h.align, h.keys, h.records_bits,
      forall_append h.fits (.bits le_rfl pos.le word dvd), start, ?_, forall_append ?_ ?_⟩, fun _ => nofun⟩
    · exact le_max_of_le_left nonneg
    · intro q mem
      obtain ⟨here, fits⟩ := inside q mem
      refine ⟨here, fits.trans ?_⟩
      simp only [Placement.addBits]
      omega
    · refine ⟨rfl, ?_⟩
      simp only [Placement.addBits, Part.last]
      omega
  | struct =>
    obtain ⟨nonneg, bits, below, ordered, inside⟩ := h.shape
    -- Where the bits go, given the byte and the bit in it that they start with.
    have put (offset bitOffset : Int) (nonneg : 0 ≤ offset) (bits : 0 ≤ bitOffset)
        (least : IsLeast {n | p.position ≤ n ∧ (Part.bits n width size).IsAligned}
          (8 * offset + bitOffset)) {q} (result : q = { p with
            offset := offset + Int.fdiv (bitOffset + width) 8
            bitOffset := (bitOffset + width) % 8 }) : ∃ start,
        Placed aligned .struct q (parts ++ [.bits start width size]) ∧
          (Packing .struct p parts → Packing .struct q (parts ++ [.bits start width size])) := by
      subst result
      have after := Int.fdiv_eq_ediv_of_nonneg (bitOffset + width) (by decide : (0 : Int) ≤ 8)
      obtain ⟨behind, word⟩ := least.1
      rw [Placement.position] at behind
      refine ⟨8 * offset + bitOffset, ⟨h.align, h.keys, h.records_bits,
        forall_append h.fits (.bits (by omega) pos.le word dvd),
        ?_, ?_, ?_, pairwise_append ordered ?_, forall_append ?_ ?_⟩, fun packed _ => ?_⟩
      · dsimp only
        omega
      · dsimp only
        omega
      · dsimp only
        omega
      · intro q mem
        have := inside q mem
        simp only [Part.first]
        omega
      · intro q mem
        have := inside q mem
        dsimp only
        omega
      · simp only [Part.last]
        omega
      · have last : 8 * (offset + Int.fdiv (bitOffset + width) 8) + (bitOffset + width) % 8 =
            8 * offset + bitOffset + width := by omega
        have packed' := (packed rfl).bits least
        rwa [← last] at packed'
    unfold Placement.addBits
    dsimp only
    rw [Int.fdiv_eq_ediv_of_nonneg _ spos.le, Int.fdiv_eq_ediv_of_nonneg _ spos.le,
      Int.fdiv_eq_ediv_of_nonneg _ (by decide)]
    have first : p.offset / size = p.position / (8 * size) := by
      rw [← Int.ediv_ediv_of_nonneg (by decide), Placement.position]
      congr 1
      omega
    have last : (p.offset + (p.bitOffset + width - 1) / 8) / size =
        (p.position + width - 1) / (8 * size) := by
      rw [← Int.ediv_ediv_of_nonneg (by decide), Placement.position]
      congr 1
      omega
    rw [last, first]
    split
    case isTrue apart =>
      rw [bne_iff_ne] at apart
      have unit : 0 < 8 * size := by omega
      have before := Int.lt_mul_ediv_self_add (x := p.position) unit
      have next : 8 * Integer.land (p.offset + size) (-size) + 0 =
          8 * size * (p.position / (8 * size) + 1) := by
        rw [nextWord_eq hs nonneg, first]
        ring
      have behind : p.position < 8 * size * (p.position / (8 * size) + 1) := by
        rw [mul_add]
        omega
      have within : (width - 1) / (8 * size) = 0 := Int.ediv_eq_zero_of_lt (by omega) (by omega)
      refine put (Integer.land (p.offset + size) (-size)) 0 ?_ le_rfl ?_ rfl
      · rw [Placement.position] at *
        omega
      rw [next]
      refine ⟨⟨behind.le, ?_⟩, fun n ⟨after, word⟩ => le_of_not_gt fun lt => apart ?_⟩
      · rw [Part.IsAligned, add_sub_assoc, Int.add_ediv_of_dvd_left (dvd_mul_right _ _), within, add_zero]
      -- A start in the unit of the position leaves no room for bits that did not fit before.
      · have high : n / (8 * size) < p.position / (8 * size) + 1 :=
          Int.ediv_lt_of_lt_mul unit (by rwa [mul_comm])
        have ends := Int.ediv_le_ediv unit (show p.position + width - 1 ≤ n + width - 1 by omega)
        have starts := Int.ediv_le_ediv unit (show p.position ≤ p.position + width - 1 by omega)
        rw [Part.IsAligned] at word
        omega
    case isFalse same =>
      rw [bne_iff_ne, not_not] at same
      exact put p.offset p.bitOffset nonneg bits ⟨⟨le_rfl, same⟩, fun n mem => mem.1⟩ rfl

lemma first_nonneg (mem : part ∈ parts) : 0 ≤ part.first := by
  cases h.fits part mem with
  | member nonneg _ _ _ _ _ | nested nonneg _ _ _ => exact mul_nonneg (by decide) nonneg
  | bits nonneg _ _ _ => exact nonneg

lemma sound (nonneg : 0 ≤ n) (inside : ∀ part ∈ parts, part.last ≤ 8 * n) :
    Layout.Sound aligned ⟨p.fields, alignUp n p.align, p.align⟩ := by
  obtain ⟨multiple, le, -⟩ := alignUp_spec h.align nonneg
  refine ⟨h.align, nonneg.trans le, multiple, h.keys, fun o f holds => ?_⟩
  obtain ⟨part, mem, records⟩ := (h.records o f).1 holds
  obtain ⟨nonneg', below, a, type, here⟩ := (h.fits part mem).records records
  have := inside part mem
  refine ⟨nonneg', ?_, a, type, here⟩
  dsimp only
  omega

/-- A finished aggregate has all its parts inside, in order or on top of each other. -/
lemma finish : (p.finish kind).Sound aligned ∧
    (∀ o f, Holds (p.finish kind).fields o f ↔ ∃ part ∈ parts, part.Records o f) ∧
    (∀ part ∈ parts, 0 ≤ part.first ∧ part.last ≤ 8 * (p.finish kind).size) ∧
    (kind = .struct → parts.Pairwise fun a b => a.last ≤ b.first) ∧
    (kind = .union → ∀ part ∈ parts, part.first = 0) := by
  obtain ⟨closed, flat⟩ := h.closeBits
  cases kind with
  | struct =>
    obtain ⟨nonneg, -, -, ordered, inside⟩ := closed.shape
    rw [(flat rfl).1] at inside
    obtain ⟨-, le, -⟩ := alignUp_spec closed.align nonneg
    refine ⟨closed.sound nonneg (by simpa using inside), closed.records, fun part mem => ?_,
      fun _ => ordered, nofun⟩
    have := inside part mem
    refine ⟨h.first_nonneg mem, ?_⟩
    simp only [Placement.finish]
    omega
  | union =>
    obtain ⟨-, nonneg, inside⟩ := closed.shape
    obtain ⟨-, le, -⟩ := alignUp_spec closed.align nonneg
    refine ⟨closed.sound nonneg fun part mem => (inside part mem).2, closed.records,
      fun part mem => ?_, nofun, fun _ part mem => (inside part mem).1⟩
    have := (inside part mem).2
    refine ⟨h.first_nonneg mem, ?_⟩
    simp only [Placement.finish]
    omega

lemma size_least (struct : kind = .struct) :
    IsLeast {n | p.position ≤ 8 * n ∧ (p.finish kind).align ∣ n} (p.finish kind).size := by
  obtain ⟨closed, near⟩ := h.closeBits
  have least := alignUp_least closed.align closed.offset_nonneg (near struct).2
  subst struct
  exact least

end

end Placed

end

end C

end Decompiler
