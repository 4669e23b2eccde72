import Decompiler.Proofs.CExpressions
import Decompiler.Proofs.Counting
import Decompiler.Proofs.Writing

/-!
# The texts of integer expressions

How an expression of integers and variables is written. Writing may give names to temporaries, which
keep them from then on.
-/

namespace Decompiler.Eval

open Asm Code Infer BinOp Eval Expr Integer String

structure Session.Named (s s' : Session) : Prop where
  types : s'.types = s.types
  joins : s'.joins = s.joins
  argumentNames : s'.argumentNames = s.argumentNames
  temps : ∀ id, (s'.temp id).unnamed = (s.temp id).unnamed
  names : ∀ id name, (s.temp id).name = some name → (s'.temp id).name = some name

namespace Session.Named

variable {s s' s'' : Session}

lemma refl : s.Named s :=
  ⟨rfl, rfl, rfl, fun _ => rfl, fun _ _ => id⟩

lemma trans (h : s.Named s') (h' : s'.Named s'') : s.Named s'' where
  types := h'.types.trans h.types
  joins := h'.joins.trans h.joins
  argumentNames := h'.argumentNames.trans h.argumentNames
  temps := fun id => (h'.temps id).trans (h.temps id)
  names := fun id name known => h'.names id name (h.names id name known)

lemma isVariable (h : s.Named s') (id : TempId) :
    (s'.temp id).isVariable = (s.temp id).isVariable := by
  have same := congrArg Temp.isVariable (h.temps id)
  exact same

end Session.Named

def IsLeaf (s : Session) : Expr → Prop
  | .stackVar _ _ | .outgoing _ _ | .symbol _ _ => True
  | .argument place _ _ => place % 4 = 0
  | .temp id _ => (s.temp id).isVariable = true
  | .join id _ => (s.join id).replacement = none
  | _ => False

def leafName (s : Session) : Expr → String
  | .stackVar place _ => "sp" ++ Integer.upperHex place
  | .argument place _ _ =>
    (s.argumentNames.get? place).getD ("arg" ++ Integer.upperHex (place / 4))
  | .outgoing place _ => "subroutine_arg" ++ Integer.upperHex (place / 4)
  | .symbol name _ => name
  | .temp id _ => (s.temp id).name.getD ""
  | .join id _ => (s.join id).text
  | _ => ""

inductive IsInteger (s : Session) : Expr → Prop where
  | literal {n t} :
    s.types.store.isFloat t = false →
    s.types.store.isPointer t = false →
    IsInteger s (.literal n t)
  | unary {op e t} :
    IsInteger s e →
    IsInteger s (.unary op e t)
  | binary {l op r t floating} :
    IsInteger s l →
    IsInteger s r →
    IsInteger s (.binary l op r t floating)
  | leaf {e} :
    IsLeaf s e →
    IsInteger s e

def leaves : Expr → List Expr
  | .literal _ _ => []
  | .unary _ e _ => leaves e
  | .binary l _ r _ _ => leaves l ++ leaves r
  | e => [e]

def integerForm (n : Int) (unsigned : Bool) : C.Form :=
  if n < 0 then .signed .neg (.number n.natAbs unsigned) else .number n.natAbs unsigned

def literalForm (skipCasts : Bool) (store : TypeStore) (n : Int) (t : TypeId) : C.Form :=
  if skipCasts then integerForm n false
  else if store.sizeBits t == 8 then .narrowed "u8" 8 (integerForm n (store.isUnsigned t))
  else if store.sizeBits t == 16 then .narrowed "u16" 16 (integerForm n (store.isUnsigned t))
  else integerForm n (store.isUnsigned t)

lemma run_get_bind {s f} : (get >>= f : Evaluation α).run s = (f s).run s :=
  rfl

section

variable {s : Session} {n : Int} {t : TypeId} {skipCasts : Bool}

lemma digits_toList (n : Int) : (if n.natAbs < 10 then toString n else markedHex n).toList =
      (if n < 0 then ['-'] else []) ++ C.Source.numeral n.natAbs false := by
  by_cases small : n.natAbs < 10
  · have low : -10 < n := by omega
    have high : n < 10 := by omega
    interval_cases n <;> decide +kernel
  · rw [if_neg small, C.Source.numeral, markedHex, hexNat]
    split <;> simp

lemma numeral_append (m : Nat) (unsigned : Bool) :
    C.Source.numeral m unsigned = C.Source.numeral m false ++ if unsigned then ['U'] else [] := by
  simp [C.Source.numeral]

/-- A literal is written as a number, with a cast if its type asks for one. -/
lemma literalText_run (float : s.types.store.isFloat t = false)
    (pointer : s.types.store.isPointer t = false) :
    ∃ text, (literalText skipCasts n t).run s = (.ok text, s) ∧
      text.toList = (literalForm skipCasts s.types.store n t).written true := by
  let digits := if n.natAbs < 10 then toString n else markedHex n
  let cast := if s.types.store.sizeBits t == 8 then "(u8)"
    else if s.types.store.sizeBits t == 16 then "(u16)" else ""
  let suffix := if s.types.store.isUnsigned t then "U" else ""
  refine ⟨if skipCasts then digits else cast ++ digits ++ suffix, ?_, ?_⟩
  · rw [literalText, run_get_bind]
    cases skipCasts <;> simp only [float, pointer, Bool.false_eq_true, if_false] <;> rfl
  · have integer (unsigned : Bool) : digits.toList ++ (if unsigned then ['U'] else []) =
        (integerForm n unsigned).written true := by
      rw [digits_toList, List.append_assoc, ← numeral_append, integerForm]
      split <;> rfl
    cases skipCasts with
    | true => simpa [literalForm] using integer false
    | false =>
      have marked : (digits ++ suffix).toList =
          digits.toList ++ if s.types.store.isUnsigned t then ['U'] else [] := by
        rw [toList_append]
        simp only [suffix, apply_ite toList]
        rfl
      rw [if_neg nofun, append_assoc, toList_append, marked, integer, literalForm]
      simp only [Bool.false_eq_true, if_false, cast]
      split
      · rfl
      · split
        · rfl
        · rfl

end

def isBare (op : BinOp) : Expr → Bool
  | .binary _ op' _ _ _ => op' == op && op.isAssociative
  | _ => false

/-- How an expression is written. A comparison has its literal on the right, a negative number is
subtracted, and a bitwise operation with one has its complement. -/
def form (skipCasts : Bool) (s : Session) : Expr → C.Form
  | .literal n t => literalForm skipCasts s.types.store n t
  | .unary op e _ => .signed op (form skipCasts s e)
  | .binary l op r _ floating =>
    if op.isComparison && l.isLiteral && !r.isLiteral then
      .group false (form skipCasts s r) op.flipped (form skipCasts s l)
    else
      match r with
      | .literal n t =>
        let literal := literalForm skipCasts s.types.store
        if !floating && n < 0 then
          if op == .add then .group false (form skipCasts s l) .sub (literal (-n) t)
          else if op == .bitAnd || op == .bitOr then
            .group (isBare op l) (form skipCasts s l) op
              (.signed .complement (literal (Integer.lnot n) t))
          else .group (isBare op l) (form skipCasts s l) op (literal n t)
        else .group (isBare op l) (form skipCasts s l) op (literal n t)
      | r => .group (isBare op l) (form skipCasts s l) op (form skipCasts s r)
  | e => .name (leafName s e)

def Writes (s : Session) (x : Evaluation String) (form : Session → C.Form) : Prop :=
  ∃ text s', x.run s = (.ok text, s') ∧ s.Named s' ∧
    ∀ s'', s'.Named s'' → text.toList = (form s'').written true

section

variable {s : Session} {skipCasts : Bool} {depth : Nat} {e l r : Expr} {op : BinOp} {t : TypeId}

lemma tempName_run {id} (isVariable : (s.temp id).isVariable) :
    ∃ name s', (tempName id).run s = (.ok name, s') ∧ s.Named s' ∧ (s'.temp id).name = some name := by
  rw [tempName, run_get_bind]
  dsimp only
  rcases known : (s.temp id).name with _ | name
  · let count := (s.stems.get? (s.temp id).stem).getD 0 + 1
    let name := (s.temp id).stem ++ if count > 1 then "_" ++ toString count else ""
    let s1 : Session := { s with stems := s.stems.insert (s.temp id).stem count }
    let s' : Session := { s1 with temps := s.temps.modify id fun t => { t with name := some name } }
    have lt : id < s.temps.size := by
      by_contra out
      rw [Session.temp, Array.getD_eq_getD_getElem?, Array.getElem?_eq_none (Nat.le_of_not_lt out)]
        at isVariable
      cases isVariable
    have self : s'.temp id = { s.temp id with name := some name } := temp_modify_self lt
    have others {k : TempId} (ne : k ≠ id) : s'.temp k = s.temp k := temp_modify_of_ne ne
    refine ⟨name, s', rfl, ⟨rfl, rfl, rfl, fun k => ?_, fun k name named => ?_⟩, by rw [self]⟩
    · by_cases same : k = id
      · rw [same, self]
        rfl
      · rw [others same]
    · by_cases same : k = id
      · rw [same, known] at named
        cases named
      · rwa [others same]
  · exact ⟨name, s, rfl, .refl, known⟩

/-- A variable is written as its name. -/
lemma leaf_writes (leaf : IsLeaf s e) :
    Writes s (exprTextFrom skipCasts (depth + 1) e) fun s => .name (leafName s e) := by
  cases e with
  | stackVar | outgoing | symbol => exact ⟨_, s, rfl, .refl, fun _ _ => rfl⟩
  | argument place copied t =>
    refine ⟨leafName s (.argument place copied t), s, ?_, .refl, fun s'' named => ?_⟩
    · rw [exprTextFrom, leaf]
      rfl
    · change _ = (leafName s'' _).toList
      rw [leafName, leafName, named.argumentNames]
  | temp id t =>
    obtain ⟨name, s', run, named, known⟩ := tempName_run leaf
    refine ⟨name, s', ?_, named, fun s'' named => ?_⟩
    · rw [exprTextFrom, run_get_bind]
      dsimp only
      rw [leaf, if_pos rfl, run]
    · change _ = (leafName s'' _).toList
      rw [leafName, named.names id name known]
      rfl
  | join id t =>
    refine ⟨(s.join id).text, s, ?_, .refl, fun s'' named => ?_⟩
    · rw [exprTextFrom, run_get_bind]
      dsimp only
      rw [leaf]
      rfl
    · change _ = (leafName s'' _).toList
      rw [leafName, Session.join, Session.join, named.joins]
  | _ => cases leaf

lemma depth_pos (e : Expr) : 0 < e.depth := by
  cases e <;> simp [depth]

section

variable (leaf : IsLeaf s e)

include leaf

lemma form_leaf (s' : Session) : form skipCasts s' e = .name (leafName s' e) := by
  cases e with
  | stackVar | outgoing | symbol | argument | temp | join => rfl
  | _ => cases leaf

lemma leaves_leaf : leaves e = [e] := by
  cases e with
  | stackVar | outgoing | symbol | argument | temp | join => rfl
  | _ => cases leaf

lemma valueIn_leaf (a : Arithmetic) (σ : Expr → a.Value) : e.valueIn a σ = σ e := by
  cases e with
  | stackVar | outgoing | symbol | argument | temp | join => rfl
  | _ => cases leaf

lemma IsLeaf.named (named : s.Named s') : IsLeaf s' e := by
  cases e with
  | temp id t => exact (named.isVariable id).trans leaf
  | join id t =>
    change (s'.join id).replacement = none
    rw [Session.join, named.joins]
    exact leaf
  | _ => exact leaf

end

lemma IsInteger.named (integer : IsInteger s e) (named : s.Named s') : IsInteger s' e := by
  induction integer with
  | literal float pointer => exact .literal (named.types ▸ float) (named.types ▸ pointer)
  | unary _ ih => exact .unary ih
  | binary _ _ ihl ihr => exact .binary ihl ihr
  | leaf leaf => exact .leaf (leaf.named named)

lemma IsInteger.written (integer : IsInteger s e) : s.written e = e := by
  have from_ (depth : Nat) : s.writtenFrom depth e = e := by
    cases depth with
    | zero => rfl
    | succ depth =>
      cases integer with
      | literal | unary | binary => rfl
      | leaf leaf =>
        cases e with
        | temp id t =>
          rw [Session.writtenFrom, leaf, if_pos rfl]
        | join id t =>
          rw [Session.writtenFrom, leaf]
        | stackVar | outgoing | symbol | argument => rfl
        | _ => cases leaf
  exact from_ s.reach

lemma literal_writes (float : s.types.store.isFloat t = false)
    (pointer : s.types.store.isPointer t = false) :
    Writes s (exprTextFrom skipCasts (depth + 1) (.literal n t))
      fun s => literalForm skipCasts s.types.store n t := by
  obtain ⟨text, run, written⟩ := @literalText_run s n t skipCasts float pointer
  refine ⟨text, s, ?_, .refl, fun s'' named => ?_⟩
  · rw [exprTextFrom, run]
  · dsimp only
    rw [written, named.types]

lemma unary_writes {op operand} (writes : Writes s (exprTextFrom skipCasts depth e) operand) :
    Writes s (exprTextFrom skipCasts (depth + 1) (.unary op e t)) fun s => .signed op (operand s) := by
  obtain ⟨text, s', run, named, written⟩ := writes
  refine ⟨op.text ++ text, s', ?_, named, fun s'' named => ?_⟩
  · rw [exprTextFrom, run_bind_of_ok run]
    rfl
  · rw [toList_append, written s'' named]
    rfl

def operationText (skipCasts : Bool) (depth : Nat) (left : Expr) (op : BinOp) (right : Expr) :
    Evaluation String := do
  let left := (← get).written left
  let l ← exprTextFrom skipCasts depth left
  let r ← exprTextFrom skipCasts depth right
  return "(" ++ (if isBare op left then inner l else l) ++ " " ++ op.text ++ " " ++ r ++ ")"

lemma operation_writes (integer : IsInteger s l)
    (isGroup : isBare op l → ∀ s, (left s).operator?.isSome)
    (writesLeft : Writes s (exprTextFrom skipCasts depth l) left)
    (writesRight : ∀ s', s.Named s' → Writes s' (exprTextFrom skipCasts depth r) right) :
    Writes s (operationText skipCasts depth l op r)
      fun s => .group (isBare op l) (left s) op (right s) := by
  obtain ⟨lt, s1, run, named1, writtenLeft⟩ := writesLeft
  obtain ⟨rt, s2, run', named2, writtenRight⟩ := writesRight s1 named1
  let lt' := if isBare op l then inner lt else lt
  refine ⟨"(" ++ lt' ++ " " ++ op.text ++ " " ++ rt ++ ")", s2, ?_, named1.trans named2,
    fun s'' named => ?_⟩
  · rw [operationText, run_get_bind]
    rw [integer.written, run_bind_of_ok run, run_bind_of_ok run']
    rfl
  · have left' : lt'.toList = (left s'').written !isBare op l := by
      have writtenLeft := writtenLeft s'' (named2.trans named)
      rcases bare : isBare op l with _ | _
      · simpa [lt', bare] using writtenLeft
      · obtain ⟨op', group⟩ := Option.isSome_iff_exists.1 (isGroup bare s'')
        simp [lt', bare, inner, writtenLeft, C.Form.written_true group]
    simp [toList_append, left', writtenRight s'' named, C.Form.written]

section

variable {floating : Bool} {n : Int} {u : TypeId}

lemma exprTextFrom_flipped (flips : (op.isComparison && l.isLiteral && !r.isLiteral)) :
    exprTextFrom skipCasts (depth + 1) (.binary l op r t floating) =
      exprTextFrom skipCasts depth (.binary r op.flipped l t false) := by
  rw [exprTextFrom]
  simp only [flips, if_true]

lemma operationText_eq (l : Expr) (op : BinOp) (r : Expr) :
    operationText skipCasts depth l op r = (do
      let left := (← get).written l
      let l ← exprTextFrom skipCasts depth left
      let l := match left with
        | .binary _ op' _ _ _ => if op' == op && op.isAssociative then inner l else l
        | _ => l
      return "(" ++ l ++ " " ++ op.text ++ " " ++ (← exprTextFrom skipCasts depth r) ++ ")") := by
  refine bind_congr fun s => bind_congr fun lt => bind_congr fun rt => ?_
  cases s.written l <;> rfl

lemma exprTextFrom_same (flips : (op.isComparison && l.isLiteral && !r.isLiteral) = false)
    (keeps : ∀ n u, r = .literal n u →
      (!floating && n < 0) = false ∨ op ≠ .add ∧ op ≠ .bitAnd ∧ op ≠ .bitOr) :
    exprTextFrom skipCasts (depth + 1) (.binary l op r t floating) =
      operationText skipCasts depth l op r := by
  rw [exprTextFrom, flips]
  cases r with
  | literal n u =>
    rcases keeps n u rfl with sign | ⟨add, bitAnd, bitOr⟩
    · simp only [sign, Bool.false_eq_true, if_false]
      exact (operationText_eq _ _ _).symm
    · simp only [beq_eq_false_iff_ne.2 add, beq_eq_false_iff_ne.2 bitAnd, beq_eq_false_iff_ne.2 bitOr,
        Bool.or_self, Bool.false_eq_true, if_false, ite_self]
      exact (operationText_eq _ _ _).symm
  | _ => exact (operationText_eq _ _ _).symm

lemma exprTextFrom_subtracted (negative : n < 0) :
    exprTextFrom skipCasts (depth + 1) (.binary l .add (.literal n u) t false) =
      exprTextFrom skipCasts depth (.binary l .sub (.literal (-n) u) t false) := by
  rw [exprTextFrom]
  simp [isComparison, negative]

lemma exprTextFrom_complemented (negative : n < 0) (bitwise : op = .bitAnd ∨ op = .bitOr) :
    exprTextFrom skipCasts (depth + 1) (.binary l op (.literal n u) t false) =
      exprTextFrom skipCasts depth
        (.binary l op (.unary .complement (.literal (lnot n) u) u) t false) := by
  rw [exprTextFrom]
  rcases bitwise with rfl | rfl <;> simp [isComparison, negative]

end

end

/-- The sides and the operator that are written for an operation. -/
inductive Turned : Expr → BinOp → Expr → Bool → Expr → BinOp → Expr → Prop where
  | same {l op r floating} :
    (op.isComparison && l.isLiteral && !r.isLiteral) = false →
    (∀ n u, r = .literal n u →
      (!floating && n < 0) = false ∨ op ≠ .add ∧ op ≠ .bitAnd ∧ op ≠ .bitOr) →
    Turned l op r floating l op r
  | flipped :
    (op.isComparison && l.isLiteral && !r.isLiteral) = true →
    Turned l op r floating r op.flipped l
  | subtracted {l n u} :
    n < 0 →
    Turned l .add (.literal n u) false l .sub (.literal (-n) u)
  | complemented {l op n u} :
    n < 0 →
    op = .bitAnd ∨ op = .bitOr →
    Turned l op (.literal n u) false l op (.unary .complement (.literal (Integer.lnot n) u) u)

section

variable {s : Session} {skipCasts floating : Bool} {depth : Nat} {e l r l' r' : Expr} {op op' : BinOp}
  {t : TypeId}

lemma exists_turned (l : Expr) (op : BinOp) (r : Expr) (floating : Bool) :
    ∃ l' op' r', Turned l op r floating l' op' r' := by
  rcases flips : (op.isComparison && l.isLiteral && !r.isLiteral) with _ | _
  · by_cases turns : ∃ n u, r = .literal n u ∧ floating = false ∧ n < 0 ∧
        (op = .add ∨ op = .bitAnd ∨ op = .bitOr)
    · obtain ⟨n, u, rfl, rfl, negative, rfl | bitwise⟩ := turns
      · exact ⟨_, _, _, .subtracted negative⟩
      · exact ⟨_, _, _, .complemented negative bitwise⟩
    · refine ⟨_, _, _, .same flips fun n u literal => ?_⟩
      by_contra neither
      refine turns ⟨n, u, literal, ?_⟩
      cases floating <;> simp_all
  · exact ⟨_, _, _, .flipped flips⟩

namespace Turned

section

variable (turned : Turned l op r floating l' op' r')

include turned

lemma both {p : Expr → Prop} (left : p l) (right : p r) (literals : ∀ n u, r = .literal n u →
      p (.literal (-n) u) ∧ p (.unary .complement (.literal (lnot n) u) u)) :
    p l' ∧ p r' := by
  cases turned with
  | same => exact ⟨left, right⟩
  | flipped => exact ⟨right, left⟩
  | subtracted => exact ⟨left, (literals _ _ rfl).1⟩
  | complemented => exact ⟨left, (literals _ _ rfl).2⟩

lemma level : C.level op' = C.level op := by
  cases turned with
  | same | subtracted | complemented => rfl
  | flipped => cases op <;> rfl

lemma mem_leaves : ∀ leaf ∈ leaves l' ++ leaves r', leaf ∈ leaves l ++ leaves r := by
  cases turned with
  | same | subtracted | complemented => exact fun _ => id
  | flipped => exact fun _ mem => List.mem_append.2 (List.mem_append.1 mem).symm

lemma integer (left : IsInteger s l) (right : IsInteger s r) : IsInteger s l' ∧ IsInteger s r' := by
  refine turned.both left right fun n u literal => ?_
  subst literal
  cases right with
  | literal float pointer => exact ⟨.literal float pointer, .unary (.literal float pointer)⟩
  | leaf leaf => cases leaf

lemma value (a : Arithmetic) (σ : Expr → a.Value) : a.binary op' (l'.valueIn a σ) (r'.valueIn a σ) =
      a.binary op (l.valueIn a σ) (r.valueIn a σ) := by
  cases turned with
  | same => rfl
  | flipped flips =>
    simp only [Bool.and_eq_true] at flips
    exact a.binary_flipped _ _ _ flips.1.1
  | subtracted =>
    simp only [valueIn]
    rw [a.binary_sub, neg_neg]
  | @complemented _ _ n u =>
    simp only [valueIn]
    rw [a.unary_complement, lnot, lnot]
    congr
    omega

end

lemma isBare_of_isComparison (comparison : op.isComparison) (e : Expr) : isBare op e = false := by
  cases e with
  | binary =>
    cases op with
    | eq | ne | lt | le | gt | ge => exact Bool.and_false _
    | _ => cases comparison
  | _ => rfl

lemma isComparison_flipped (op : BinOp) : op.flipped.isComparison = op.isComparison := by
  cases op <;> rfl

lemma form (turned : Turned l op r floating l' op' r') (s : Session) :
    form skipCasts s (.binary l op r t floating) =
      .group (isBare op' l') (form skipCasts s l') op' (form skipCasts s r') := by
  cases turned with
  | same flips keeps =>
    by_cases literal : ∃ n u, r = .literal n u
    · obtain ⟨n, u, rfl⟩ := literal
      rcases keeps n u rfl with sign | ⟨add, bitAnd, bitOr⟩
      · simp only [form, flips, sign, Bool.false_eq_true, if_false]
      · simp [form, flips, add, bitAnd, bitOr]
    · rw [form, flips, if_neg nofun]
      exact fun n u same => literal ⟨n, u, same⟩
  | flipped flips =>
    have comparison : op.flipped.isComparison := by
      simp only [Bool.and_eq_true] at flips
      rw [isComparison_flipped, flips.1.1]
    rw [form, if_pos flips, isBare_of_isComparison comparison]
    rintro n u rfl
    simp [isLiteral, literal?] at flips
  | subtracted negative =>
    have bare : isBare .sub l = false := by cases l <;> simp [isBare, isAssociative]
    simp [form, isComparison, negative, bare]
  | complemented negative bitwise =>
    rcases bitwise with rfl | rfl <;> simp [form, isComparison, negative]

lemma text (turned : Turned l op r floating l' op' r') (skipCasts : Bool) (depth : Nat) :
    ∃ depth' ≥ depth, exprTextFrom skipCasts (depth + 2) (.binary l op r t floating) =
      operationText skipCasts depth' l' op' r' := by
  cases turned with
  | same flips keeps => exact ⟨depth + 1, Nat.le_succ _, exprTextFrom_same flips keeps⟩
  | flipped flips =>
    refine ⟨depth, le_refl _, (exprTextFrom_flipped flips).trans ?_⟩
    simp only [Bool.and_eq_true, Bool.not_eq_true'] at flips
    obtain ⟨⟨comparison, left⟩, right⟩ := flips
    rw [← isComparison_flipped] at comparison
    refine exprTextFrom_same (by rw [right, Bool.and_false, Bool.false_and]) fun _ _ _ => .inr ?_
    refine ⟨?_, ?_, ?_⟩ <;> intro same <;> rw [same] at comparison <;> cases comparison
  | subtracted negative =>
    refine ⟨depth, le_refl _, (exprTextFrom_subtracted negative).trans ?_⟩
    exact exprTextFrom_same (by simp [isComparison]) fun _ _ _ => .inr (by simp)
  | complemented negative bitwise =>
    refine ⟨depth, le_refl _, (exprTextFrom_complemented negative bitwise).trans ?_⟩
    refine exprTextFrom_same ?_ (by simp)
    rcases bitwise with rfl | rfl <;> rfl

end Turned

lemma operator?_form (bare : isBare op e) (s : Session) :
    ∃ op', (form skipCasts s e).operator? = some op' ∧ C.level op' = C.level op := by
  cases e with
  | binary l op1 r t floating =>
    obtain ⟨l', op', r', turned⟩ := exists_turned l op1 r floating
    simp only [isBare, Bool.and_eq_true, beq_iff_eq] at bare
    refine ⟨op', ?_, by rw [turned.level, bare.1]⟩
    rw [turned.form]
    rfl
  | _ => cases bare

/-- An expression of integers is written as its form, and nothing but names changes. -/
lemma exprTextFrom_writes (integer : IsInteger s e) (enough : e.depth ≤ depth) (named : s.Named s') :
    Writes s' (exprTextFrom skipCasts depth e) fun s => form skipCasts s e := by
  induction integer generalizing depth s' with
  | @literal n t float pointer =>
    cases depth with
    | zero => cases enough
    | succ depth => exact literal_writes (named.types ▸ float) (named.types ▸ pointer)
  | unary _ ih =>
    cases depth with
    | zero => cases enough
    | succ depth => exact unary_writes (ih (Nat.le_of_succ_le_succ enough) named)
  | @binary l op r t floating left right ihl ihr =>
    rw [Expr.depth] at enough
    obtain ⟨d, rfl⟩ : ∃ d, depth = d + 2 := ⟨depth - 2, by omega⟩
    obtain ⟨l', op', r', turned⟩ := exists_turned l op r floating
    obtain ⟨depth', le, text⟩ := turned.text (t := t) skipCasts d
    obtain ⟨left', right'⟩ := turned.integer left right
    let Written (e : Expr) : Prop := ∀ s', s.Named s' →
      Writes s' (exprTextFrom skipCasts depth' e) fun s => form skipCasts s e
    have writes : Written l' ∧ Written r' := by
      refine turned.both (fun _ => ihl (by omega)) (fun _ => ihr (by omega)) ?_
      intro n u literal
      subst literal
      obtain ⟨d', rfl⟩ : ∃ d', depth' = d' + 2 := by
        simp only [depth] at enough
        exact ⟨depth' - 2, by omega⟩
      cases right with
      | literal float pointer =>
        refine ⟨fun s' named => ?_, fun s' named => ?_⟩
        · exact literal_writes (named.types ▸ float) (named.types ▸ pointer)
        · exact unary_writes (literal_writes (named.types ▸ float) (named.types ▸ pointer))
      | leaf leaf => cases leaf
    simp only [turned.form, text]
    refine operation_writes (left'.named named) (fun bare s => ?_) (writes.1 s' named)
      fun s'' named' => writes.2 s'' (named.trans named')
    obtain ⟨op', group, -⟩ := operator?_form bare s
    rw [group]
    rfl
  | @leaf e leaf =>
    cases depth with
    | zero => exact absurd enough (Nat.not_le_of_lt (depth_pos e))
    | succ depth =>
      simp only [form_leaf leaf]
      exact leaf_writes (leaf.named named)

end

end Decompiler.Eval
