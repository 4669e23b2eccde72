import Decompiler.Proofs.StandardForm

/-!
# Reading what instructions are written as

An instruction that has been read is written as a text that is read as the same instruction, except
that a position in a section is read as a symbol.

Main statement: `read_written`.
-/

namespace Decompiler.Asm

open Text List

namespace Operand

variable {o left : Operand} {base : Register}

lemma tidy_char (solid : Solid c) : Tidy [c] :=
  tidy_of_solid nofun (by simpa using solid)

lemma tidy_close : Tidy [')'] :=
  tidy_char ⟨rfl, by decide⟩

lemma tidy_marked (solid : Solid c) (word : ∀ d ∈ w, isWordChar d) : Tidy (c :: w) := by
  apply tidy_of_solid (cons_ne_nil c w)
  exact forall_mem_cons.2 ⟨solid, fun d mem => solid_of_isWordChar (word d mem)⟩

lemma tidy_name (h : IsName name) : Tidy name.toList := by
  obtain ⟨c, cs, same, -⟩ := h.start
  have word := h.word
  rw [same] at word ⊢
  obtain ⟨first, others⟩ := forall_mem_cons.1 word
  exact tidy_marked (solid_of_isWordChar first) others

lemma tidy_hex (k : Int) : Tidy (Integer.hex k).toList :=
  (Integer.denotes_hex k).tidy

lemma tidy_register (h : base.Legible) : Tidy base.text.toList := by
  have tidy : Tidy ('$' :: base.name.toList) := tidy_marked ⟨rfl, by decide⟩ h.word
  simpa [Register.text] using tidy

lemma tidy_half (h : Half) (ho : Tidy o.text.toList) : Tidy (half h o).text.toList := by
  have commas : ',' ∉ h.text.toList ++ '(' :: o.text.toList := by
    cases h with
    | _ => simp [Half.text, ho.commas]
  have tidy : Tidy (['%'] ++ (_ ++ [')'])) :=
    (tidy_char ⟨rfl, by decide⟩).between tidy_close commas
  simpa [text] using tidy

lemma tidy_memoryAt (ho : Tidy o.text.toList) (hb : base.Legible) :
    Tidy (memoryAt o base).text.toList := by
  have commas : ',' ∉ '(' :: base.text.toList := by simp [(tidy_register hb).commas]
  simpa [text] using ho.between tidy_close commas

lemma tidy_binary (op : Operator) (k : Int) (hl : Tidy left.text.toList) :
    Tidy (binary op left (.literal k)).text.toList := by
  have commas : ',' ∉ ' ' :: (op.text.toList ++ [' ']) := by
    cases op with
    | _ => decide
  simpa [text] using hl.between (tidy_hex k) commas

lemma text_tidy (h : Legible o) : Tidy o.text.toList := by
  induction h with
  | register h => exact tidy_register h
  | symbol h => exact tidy_name h
  | inSection known => exact tidy_name (isName_sectionSymbol known _)
  | half _ ih => exact tidy_half _ ih
  | literal => exact tidy_hex _
  | @memory base h =>
    have tidy : Tidy (['('] ++ (base.text.toList ++ [')'])) :=
      (tidy_char ⟨rfl, by decide⟩).between tidy_close (tidy_register h).commas
    simpa [text] using tidy
  | atLiteral h => exact tidy_memoryAt (tidy_hex _) h
  | atHalf _ h ih => exact tidy_memoryAt (tidy_half _ ih) h
  | onLiteral => exact tidy_binary _ _ (tidy_hex _)
  | onSymbol h => exact tidy_binary _ _ (tidy_name h)
  | @target label word =>
    have tidy : Tidy ('.' :: label.toList) := tidy_marked ⟨rfl, by decide⟩ word
    simpa [text] using tidy

end Operand

namespace Instruction

variable {i j : Instruction} {line : List Char} {origin : Origin}

structure Legible (i : Instruction) : Prop where
  solid : ∀ c ∈ i.mnemonic.toList, isBlank c = false
  bare : i.mnemonic = "" → i.args = []
  args : ∀ a ∈ i.args, a.Legible

lemma trim_eq_nil (none : (trim line).takeWhile (· != ' ') = []) : trim line = [] := by
  cases start : trim line with
  | nil => rfl
  | cons c cs =>
    have first : c ∈ (trim line).head? := by
      rw [start]
      rfl
    have other := isBlank_head?_trim first
    rw [start, takeWhile_cons_of_pos] at none
    · cases none
    · rw [bne_iff_ne]
      rintro rfl
      cases other

lemma exists_legible_of_read (blanks : ∀ c ∈ line, isBlank c → c = ' ')
    (run : read line origin = .ok i) : ∃ j, Legible j ∧ normalize j = .ok i := by
  rw [read, readTrimmed, span_eq_takeWhile_dropWhile] at run
  obtain ⟨args, operands, run⟩ := bind_ok run
  refine ⟨_, ⟨?_, ?_, ?_⟩, run⟩
  · intro c mem
    rw [String.toList_ofList] at mem
    -- The mnemonic ends at the first space, and there are no other blanks.
    have other := all_eq_true.1 all_takeWhile c mem
    have inLine := mem_of_mem_trim ((takeWhile_sublist _).mem mem)
    by_contra blank
    simp [blanks c inLine (by simpa using blank)] at other
  · intro empty
    have none := congrArg String.toList empty
    rw [String.toList_ofList] at none
    rw [trim_eq_nil none] at operands
    cases operands
    rfl
  · intro a mem
    obtain ⟨_, mem, same⟩ := mem_filterMap.1 mem
    obtain ⟨part, -, run⟩ := exists_of_mem_mapM operands mem
    cases same
    exact Operand.read_legible run

/-- What is brought into its usual form can still be read. -/
lemma Legible.normalize (h : Legible i) (run : i.normalize = .ok j) : Legible j := by
  -- Without a mnemonic there are no operands, and so nothing changes.
  by_cases empty : i.mnemonic = ""
  · obtain ⟨mnemonic, args, origin⟩ := i
    cases h.bare empty
    cases run
    exact h
  have standard := normalize_standard run
  have known : ∀ m ∈ standardMnemonics, m.toList.all (!isBlank ·) ∧ m ≠ "" := by decide
  constructor
  · rcases standard.mnemonic with same | mem
    · rw [same]
      exact h.solid
    · simpa using (known _ mem).1
  · intro none
    rcases standard.mnemonic with same | mem
    · exact absurd (same.symm.trans none) empty
    · exact absurd none (known _ mem).2
  · intro a mem
    rcases standard.args a mem with mem | ⟨n, rfl⟩
    · exact h.args a mem
    · exact .literal

def operandsText (args : List Operand) : List Char :=
  List.intercalate [',', ' '] (args.map fun a => a.text.toList)

lemma text_toList (mnemonic : String) (args : List Operand) :
    (text ⟨mnemonic, args, origin⟩).toList = mnemonic.toList ++ ' ' :: operandsText args := by
  simp [text, operandsText, String.toList_intercalate, Function.comp_def]

lemma trimmed_operandsText {args} (some : args ≠ []) (h : ∀ a ∈ args, a.Legible) :
    Trimmed (operandsText args) := by
  apply Trimmed.intercalate (by simpa using some)
  rw [forall_mem_map]
  exact fun a mem => (Operand.text_tidy (h a mem)).toTrimmed

lemma mapM_read_operandsText (h : ∀ a' ∈ a :: as, a'.Legible) :
    (split ',' (operandsText (a :: as))).mapM (fun part => Operand.read (trim part)) =
      .ok ((a :: as).map fun a => some a.plain) := by
  obtain ⟨first, others⟩ := forall_mem_cons.1 h
  have commas : ∀ t ∈ (a :: as).map fun a => a.text.toList, ',' ∉ t := by
    rw [forall_mem_map]
    exact fun a' mem => (Operand.text_tidy (h a' mem)).commas
  rw [operandsText, map_cons, split_intercalate commas, map_map, mapM_cons,
    (Operand.text_tidy first).trim, Operand.read_text first, mapM_map, mapM_of_ok]
  · rfl
  · intro a' mem
    exact (congrArg Operand.read (Operand.text_tidy (others a' mem)).trim_cons).trans
      (Operand.read_text (others a' mem))

lemma readTrimmed_append {mnemonic rest operands} (word : ∀ c ∈ mnemonic.toList, (c != ' '))
    (ends : Ends (· != ' ') rest)
    (run : (split ',' (rest.drop 1)).mapM (fun part => Operand.read (trim part)) = .ok operands) :
    readTrimmed (mnemonic.toList ++ rest) origin =
      normalize ⟨mnemonic, operands.filterMap id, origin⟩ := by
  rw [readTrimmed, span_append word ends]
  change (mapM _ _ >>= _) = _
  rw [run, String.ofList_toList]
  rfl

/-- What is written is read and brought into its usual form again. -/
lemma read_text (h : Legible i) (origin : Origin) :
    read i.text.toList origin = normalize (i.plain origin) := by
  obtain ⟨mnemonic, args, place⟩ := i
  have word : ∀ c ∈ mnemonic.toList, (c != ' ') := by
    intro c mem
    rw [bne_iff_ne]
    rintro rfl
    cases h.solid ' ' mem
  rw [read, text_toList]
  cases args with
  | nil =>
    -- The space behind the mnemonic is at the end of the text.
    have whole : trim (mnemonic.toList ++ [' ']) = mnemonic.toList ++ [] := by
      rw [append_nil]
      by_cases empty : mnemonic.toList = []
      · rw [empty]
        rfl
      · exact (trimmed_of_no_blanks empty h.solid).trim_concat
    change readTrimmed (trim (mnemonic.toList ++ [' '])) origin = _
    rw [whole, readTrimmed_append word ends_nil rfl]
    rfl
  | cons a as =>
    have some : mnemonic.toList ≠ [] := by
      intro empty
      cases h.bare (String.toList_eq_nil_iff.1 empty)
    have operands := trimmed_operandsText (cons_ne_nil a as) h.args
    have whole := (trimmed_of_no_blanks some h.solid).between operands [' ']
    have ends : Ends (· != ' ') ([' '] ++ operandsText (a :: as)) := ends_cons rfl
    rw [← singleton_append, whole.trim,
      readTrimmed_append word ends (mapM_read_operandsText h.args), plain]
    simp

lemma text_plain (i : Instruction) (origin : Origin) : (i.plain origin).text = i.text := by
  simp [text, plain, Function.comp_def, Operand.text_plain]

lemma read_text_of_read (blanks : ∀ c ∈ line, isBlank c → c = ' ')
    (run : read line origin = .ok i) (place : Origin) :
    read i.text.toList place = .ok (i.plain place) := by
  obtain ⟨j, legible, run⟩ := exists_legible_of_read blanks run
  rw [read_text (legible.normalize run), normalize_plain, (normalize_standard run).stable]
  rfl

lemma map_plain_eq_self {args : List Operand} (none : ∀ a ∈ args, a.namesSection = false) :
    args.map Operand.plain = args := by
  rw [map_congr_left fun a mem => Operand.plain_eq_self (none a mem), map_id']

/-- An instruction that has been read is written as a text that is read as the same instruction, but
for positions in sections, which are read as symbols. So a standard form is its own standard form,
the text of what is read from a text is this text, and two instructions without positions in
sections that are written alike have the same mnemonic and operands. -/
theorem read_written (blanks : ∀ c ∈ line, isBlank c = true → c = ' ')
    (run : read line origin = .ok i) :
    (∀ place, read i.text.toList place = .ok ⟨i.mnemonic, i.args.map Operand.plain, place⟩) ∧
    (∀ place j, read i.text.toList place = .ok j → j.text = i.text) ∧
    (∀ j j', normalize j = .ok j' → normalize j' = .ok j') ∧
    ∀ line' origin' i', (∀ c ∈ line', isBlank c = true → c = ' ') →
      read line' origin' = .ok i' → i.text = i'.text →
      (∀ a ∈ i.args ++ i'.args, a.namesSection = false) →
      i.mnemonic = i'.mnemonic ∧ i.args = i'.args := by
  refine ⟨read_text_of_read blanks run, ?_, fun j j' run => (normalize_standard run).stable, ?_⟩
  · intro place j run'
    rw [read_text_of_read blanks run place] at run'
    cases run'
    exact text_plain i place
  · intro line' origin' i' blanks' run' same none
    obtain ⟨none, none'⟩ := List.forall_mem_append.1 none
    have one := read_text_of_read blanks run origin
    rw [same, read_text_of_read blanks' run' origin, Except.ok.injEq, plain, plain,
      map_plain_eq_self none, map_plain_eq_self none', mk.injEq] at one
    exact ⟨one.1.symm, one.2.1.symm⟩

def sectionLoad : Instruction :=
  ⟨"lw", [.register ⟨"t0"⟩, .memoryAt (.half .low (.inSection "data" 4)) ⟨"fp"⟩], .unknown⟩

theorem read_written_sectionLoad :
    read "lw $t0,  %lo(.data+4)($s8)".toList .unknown = .ok sectionLoad ∧
    read "lw $t0, %lo(__data4)($fp)".toList .unknown =
      .ok ⟨"lw", [.register ⟨"t0"⟩, .memoryAt (.half .low (.symbol "__data4")) ⟨"fp"⟩],
        .unknown⟩ := by
  have run : read "lw $t0,  %lo(.data+4)($s8)".toList .unknown = .ok sectionLoad := by
    decide +kernel
  have blanks : ∀ c ∈ "lw $t0,  %lo(.data+4)($s8)".toList, isBlank c = true → c = ' ' := by
    have all : "lw $t0,  %lo(.data+4)($s8)".toList.all (fun c => isBlank c → c = ' ') = true := by
      decide +kernel
    exact fun c mem => of_decide_eq_true (List.all_eq_true.1 all c mem)
  have text : sectionLoad.text = "lw $t0, %lo(__data4)($fp)" := by decide +kernel
  have again := (read_written blanks run).1 .unknown
  rw [text] at again
  exact ⟨run, again⟩

end Instruction

end Decompiler.Asm
