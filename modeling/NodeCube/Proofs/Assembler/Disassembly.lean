import Mathlib.Data.List.Basic
import Mathlib.Data.List.TakeWhile
import NodeCube.Proofs.Assembler.Diagnostics
import NodeCube.Proofs.Assembler.Maps
import NodeCube.Proofs.Text.Lines
import NodeCube.Proofs.Text.Numerals

/-!
# Instructions as source lines

The text of an instruction of an assembled program is a line that is assembled to this instruction
again. The line is made of plain words (`Language.Plain`), with blanks and at most one comma between
them, so its words can be read off (`Language.Spells`).

* `Language.Reads.operandText`: the operand that is printed stands for what the one in the source
  stood for, although numbers are printed in base ten and names without their tails.
* `Language.Translates.spelled`: so the words of the text have the same translation.
* `Assembler.plain_label`: the label of a jump is a plain word, since it is a word of one line and
  stands before the colon of another. Both lines have room for the texts that are printed.
-/

namespace NodeCube

namespace Text

/-! ## Trimming -/

theorem trim_sublist (s : Bytes) : (trim s).Sublist s := by
  have hright : (trimRight s).Sublist s := by
    simpa [trimRight] using (List.dropWhile_sublist (l := s.reverse) isBlank).reverse
  exact (List.dropWhile_sublist _).trans hright

theorem trim_eq_self {s : Bytes} (h : ∀ b ∈ s, isBlank b = false) : trim s = s := by
  have hleft : ∀ t : Bytes, (∀ b ∈ t, isBlank b = false) →
      t.dropWhile isBlank = t := by
    intro t ht
    cases t with
    | nil => rfl
    | cons b t => rw [List.dropWhile_cons, ht b List.mem_cons_self, if_neg Bool.false_ne_true]
  have hright : trimRight s = s := by
    rw [trimRight, hleft _ fun b hb => h b (List.mem_reverse.mp hb), List.reverse_reverse]
  rw [trim, hright]
  exact hleft s h

end Text

namespace Language

open SourceLine (isSeparator opensWord words_cons words_cons_of_separator)

/-! ## Words and what separates them -/

theorem words_ne_nil {s : Bytes} (h : opensWord s = true) : words s ≠ [] := by
  induction s with
  | nil => cases h
  | cons b s ih =>
    have hb : isSeparator b = false := by simpa [opensWord] using h
    rw [words_cons hb]
    split
    · rename_i hs
      obtain ⟨w, ws, hw⟩ := List.exists_cons_of_ne_nil (ih hs)
      simp [hw]
    · simp

/-- A separator cuts a text in two. -/
theorem words_append {b : UInt8} (hb : isSeparator b = true) (s t : Bytes) :
    words (s ++ b :: t) = words s ++ words t := by
  induction s with
  | nil => exact words_cons_of_separator hb
  | cons x s ih =>
    cases hx : isSeparator x with
    | true => rw [List.cons_append, words_cons_of_separator hx, words_cons_of_separator hx, ih]
    | false =>
      have hopens : opensWord (s ++ b :: t) = opensWord s := by
        cases s with
        | nil => simp [opensWord, hb]
        | cons => rfl
      rw [List.cons_append, words_cons hx, words_cons hx, ih, hopens]
      split
      · rename_i hs
        obtain ⟨w, ws, hw⟩ := List.exists_cons_of_ne_nil (words_ne_nil hs)
        rw [hw]
        rfl
      · rfl

theorem not_separator_of_mem_words {s w : Bytes} (h : w ∈ words s) :
    w ≠ [] ∧ ∀ b ∈ w, isSeparator b = false := by
  induction s generalizing w with
  | nil => cases h
  | cons x s ih =>
    cases hx : isSeparator x with
    | true => exact ih (words_cons_of_separator hx ▸ h)
    | false =>
      rw [words_cons hx] at h
      split at h
      · rename_i hs
        obtain ⟨v, ws, hv⟩ := List.exists_cons_of_ne_nil (words_ne_nil hs)
        rw [hv] at h
        rcases List.mem_cons.mp h with rfl | h
        · have hrest := (ih (hv ▸ List.mem_cons_self)).2
          exact ⟨by simp, List.forall_mem_cons.mpr ⟨hx, hrest⟩⟩
        · exact ih (hv ▸ List.mem_cons_of_mem _ h)
      · rcases List.mem_cons.mp h with rfl | h
        · exact ⟨by simp, by simpa using hx⟩
        · exact ih h

/-- Words have room in their text, with a separator between them. -/
theorem length_words_le (s : Bytes) :
    (words s).flatten.length + (words s).length + (if opensWord s then 0 else 1) ≤
      s.length + 1 := by
  induction s with
  | nil => exact Nat.le_refl 1
  | cons x s ih =>
    cases hx : isSeparator x with
    | true =>
      have hopens : opensWord (x :: s) = false := by simp [opensWord, hx]
      rw [words_cons_of_separator hx, hopens, List.length_cons]
      simp only [Bool.false_eq_true, if_false]
      omega
    | false =>
      have hopens : opensWord (x :: s) = true := by simp [opensWord, hx]
      rw [words_cons hx, hopens, List.length_cons]
      cases hs : opensWord s with
      | true =>
        obtain ⟨w, ws, hw⟩ := List.exists_cons_of_ne_nil (words_ne_nil hs)
        simp only [hw, hs, if_true, List.modifyHead_cons, List.flatten_cons, List.length_append,
          List.length_cons] at ih ⊢
        omega
      | false =>
        simp only [hs, Bool.false_eq_true, if_false, if_true, List.flatten_cons, List.length_append,
          List.length_cons, List.length_nil] at ih ⊢
        omega

/-! ## Plain words -/

/-- A byte that neither separates words nor ends the code of a line, and that is no small letter. -/
def isPlain (b : UInt8) : Bool :=
  !isSeparator b && b != '#'.toUInt8 && b != ':'.toUInt8 && Text.upperByte b == b

/-- A word that is read as it is written. -/
structure Plain (w : Bytes) : Prop where
  ne_nil : w ≠ []
  bytes : ∀ b ∈ w, isPlain b = true

theorem isPlain_iff {b : UInt8} : isPlain b = true ↔
    isSeparator b = false ∧ b ≠ '#'.toUInt8 ∧ b ≠ ':'.toUInt8 ∧ Text.upperByte b = b := by
  simp [isPlain, and_assoc]

theorem words_of_plain {w : Bytes} (h : Plain w) : words w = [w] := by
  obtain ⟨hne, hbytes⟩ := h
  induction w with
  | nil => exact absurd rfl hne
  | cons b w ih =>
    obtain ⟨hb, hw⟩ := List.forall_mem_cons.mp hbytes
    rw [words_cons (isPlain_iff.mp hb).1]
    cases w with
    | nil => rfl
    | cons c w =>
      have hc := (isPlain_iff.mp (hw c List.mem_cons_self)).1
      have hopens : opensWord (c :: w) = true := by simp [opensWord, hc]
      rw [hopens, if_pos rfl, ih (by simp) hw]
      rfl

theorem plain_iff {w : Bytes} : Plain w ↔ (!w.isEmpty && w.all isPlain) = true := by
  rw [Bool.and_eq_true, List.all_eq_true, Bool.not_eq_true', List.isEmpty_eq_false_iff]
  exact ⟨fun h => ⟨h.ne_nil, h.bytes⟩, fun h => ⟨h.1, h.2⟩⟩

theorem plain_operation (m : Mnemonic) (mode : Mode) : Plain (m.operation mode).name := by
  have hall : (Mnemonic.all.all fun m => !m.name.isEmpty && m.name.all isPlain) = true := by decide
  rw [m.name_operation]
  exact plain_iff.mpr (List.all_eq_true.mp hall m (Mnemonic.mem_all m))

theorem plain_target (t : Target) : Plain t.name := by
  have hall : (Target.all.all fun t => !t.name.isEmpty && t.name.all isPlain) = true := by decide
  exact plain_iff.mpr (List.all_eq_true.mp hall t (Target.mem_all t))

theorem isPlain_of_isDigit {b : UInt8} (h : Text.isDigit b = true) : isPlain b = true := by
  have hrange := Text.toNat_of_isDigit h
  have hcomma : b ≠ ','.toUInt8 := Text.ne_of_isDigit h (by decide)
  have hupper : Text.upperByte b = b := (Text.upperByte_eq_iff (by omega)).mpr rfl
  refine isPlain_iff.mpr ⟨?_, Text.ne_of_isDigit h (by decide), Text.ne_of_isDigit h (by decide),
    hupper⟩
  simp [isSeparator, hcomma, Text.isBlank_of_isDigit h]

theorem plain_word (w : Word) : Plain w.text := by
  refine ⟨fun h => ?_, fun b hb => ?_⟩
  · have := Word.looksLiteral_text w
    rw [h] at this
    cases this
  · rcases Word.digit_or_minus_of_mem_text hb with hb | rfl
    · exact isPlain_of_isDigit hb
    · decide

/-! ## Lines of plain words -/

/-- The line has exactly the given words, with blanks and commas between them. -/
structure Spells (s : Bytes) (ws : List Bytes) : Prop where
  bytes : ∀ b ∈ s, isPlain b = true ∨ b = 32 ∨ b = ','.toUInt8
  words : words s = ws
  commas : CommasFollowWords s

theorem commas_of_not_mem {s : Bytes} (h : ','.toUInt8 ∉ s) : CommasFollowWords s := by
  rintro before after rfl
  exact absurd (by simp) h

theorem Plain.comma_not_mem {w : Bytes} (h : Plain w) : ','.toUInt8 ∉ w := fun hmem =>
  absurd (h.bytes _ hmem) (by decide)

theorem Plain.spells {w : Bytes} (h : Plain w) : Spells w [w] :=
  ⟨fun b hb => .inl (h.bytes b hb), words_of_plain h, commas_of_not_mem h.comma_not_mem⟩

/-- Two words with a blank between them. -/
theorem Plain.spells_pair {v w : Bytes} (hv : Plain v) (hw : Plain w) :
    Spells (v ++ ascii " " ++ w) [v, w] := by
  refine ⟨fun b hb => ?_, ?_, commas_of_not_mem ?_⟩
  · rcases List.mem_append.mp hb with hb | hb
    · rcases List.mem_append.mp hb with hb | hb
      · exact .inl (hv.bytes b hb)
      · exact .inr (.inl (List.mem_singleton.mp hb))
    · exact .inl (hw.bytes b hb)
  · have hsplit : v ++ ascii " " ++ w = v ++ 32 :: w := (List.append_cons v 32 w).symm
    rw [hsplit, words_append (by decide), words_of_plain hv, words_of_plain hw]
    rfl
  · have hblank : ','.toUInt8 ∉ ascii " " := by decide
    simp [hv.comma_not_mem, hw.comma_not_mem, hblank]

/-- Three words, with a comma in front of the last one. -/
theorem Plain.spells_triple {u v w : Bytes} (hu : Plain u) (hv : Plain v) (hw : Plain w) :
    Spells (u ++ ascii " " ++ v ++ ascii ", " ++ w) [u, v, w] := by
  obtain ⟨hbytes, hwords, -⟩ := hu.spells_pair hv
  have hsplit : u ++ ascii " " ++ v ++ ascii ", " ++ w =
      (u ++ ascii " " ++ v) ++ ','.toUInt8 :: (32 :: w) := List.append_assoc ..
  refine ⟨fun b hb => ?_, ?_, ?_⟩
  · rcases List.mem_append.mp hb with hb | hb
    · rcases List.mem_append.mp hb with hb | hb
      · exact hbytes b hb
      · rcases List.mem_pair.mp hb with rfl | rfl
        · exact .inr (.inr rfl)
        · exact .inr (.inl rfl)
    · exact .inl (hw.bytes b hb)
  · rw [hsplit, words_append (by decide), words_cons_of_separator (by decide), hwords,
      words_of_plain hw]
    rfl
  · -- the only comma follows the second word
    have hblank : ','.toUInt8 ∉ ascii " " := by decide
    have hleft : ','.toUInt8 ∉ u ++ ascii " " ++ v := by
      simp [hu.comma_not_mem, hv.comma_not_mem, hblank]
    have hright : ','.toUInt8 ∉ 32 :: w := by
      have hne : ','.toUInt8 ≠ 32 := by decide
      simp [hw.comma_not_mem, hne]
    intro before after h
    obtain ⟨rfl, -⟩ := (List.append_cons_inj_of_notMem hleft hright).mp (hsplit.symm.trans h)
    obtain ⟨b, rest, rfl⟩ := List.exists_cons_of_ne_nil hv.ne_nil
    have hb := (isPlain_iff.mp (hv.bytes b List.mem_cons_self)).1
    refine ⟨u ++ ascii " ", b, rest, rfl, ?_, hv.comma_not_mem⟩
    simp only [isSeparator, Bool.or_eq_false_iff] at hb
    exact hb.2

section Spelled

variable {s : Bytes} {ws : List Bytes} (h : Spells s ws)
include h

theorem Spells.not_mem {b : UInt8} (hb : isPlain b = false) (hblank : b ≠ 32)
    (hcomma : b ≠ ','.toUInt8) : b ∉ s := by
  intro hmem
  rcases h.bytes b hmem with hplain | rfl | rfl
  · rw [hb] at hplain
    cases hplain
  · exact hblank rfl
  · exact hcomma rfl

theorem Spells.beforeComment_eq : Text.beforeComment s = s := by
  have hsign : '#'.toUInt8 ∉ s := h.not_mem (by decide) (by decide) (by decide)
  exact List.takeWhile_eq_self_iff.mpr fun b hb => by
    simpa using fun e : b = '#'.toUInt8 => hsign (e ▸ hb)

theorem Spells.colon_not_mem : ':'.toUInt8 ∉ Text.beforeComment s := by
  rw [h.beforeComment_eq]
  exact h.not_mem (by decide) (by decide) (by decide)

theorem Spells.label?_eq : label? s = none := if_neg h.colon_not_mem

theorem Spells.body_eq : body s = s := (if_neg h.colon_not_mem).trans h.beforeComment_eq

theorem Spells.upper_eq : Text.upper s = s := by
  refine Text.upper_eq_self fun b hb => ?_
  rcases h.bytes b hb with hb | rfl | rfl
  · exact (isPlain_iff.mp hb).2.2.2
  · decide
  · decide

theorem Spells.lines_eq (hws : ws ≠ []) : Text.lines s = [s] := by
  refine Text.lines_of_not_mem ?_ (h.not_mem (by decide) (by decide) (by decide))
    (h.not_mem (by decide) (by decide) (by decide))
  rintro rfl
  exact hws h.words.symm

theorem Spells.line {labels : Bytes → Prop} (hlen : s.length ≤ 18) (hws : Statement labels ws) :
    Line labels s := by
  refine ⟨hlen, fun l hl => ?_, ?_, ?_⟩
  · rw [h.label?_eq] at hl
    cases hl
  · rw [h.body_eq]
    exact h.commas
  · rw [h.body_eq, h.words]
    exact hws

end Spelled

/-! ## The words of an instruction -/

/-- The words that an instruction is written with. -/
def spelling (i : Instruction) : List Bytes :=
  i.op.name :: match i.op with
    | .missing | .simple _ => []
    | .arith _ mode | .jumpBy mode => [i.operandText mode]
    | .move mode => [i.operandText mode, i.destination.name]
    | .jump _ => [i.label]

theorem Names.name {y : Bytes} {t : Target} (h : Names y t) : Names t.name t := by
  have hall : ∀ t ∈ Target.all, t.name = Text.untilNul t.name := by decide
  exact names_iff.mpr ⟨(names_iff.mp h).1, hall t (Target.mem_all t)⟩

/-- The operand that is printed stands for what was read. -/
theorem Reads.operandText {x : Bytes} {mode : Mode} {source : Target} {value : Word}
    (h : Reads x mode source value) {i : Instruction} (hs : i.source = source)
    (hv : i.value = value) : Reads (i.operandText mode) mode source value := by
  cases h with
  | number =>
    subst hv
    exact .number (Word.looksLiteral_text _) (Word.ofLiteral?_text _)
  | name hx ht =>
    subst hs
    have hall : ∀ t ∈ Target.all, Word.looksLiteral t.name = false := by decide
    exact .name (hall _ (Target.mem_all i.source)) ht.name

/-- The words of an instruction have the translation that the words in the source had. -/
theorem Translates.spelled {ws : List Bytes} {i : Instruction} (h : Translates ws i) :
    Translates (spelling i) i := by
  cases h with
  | simple => exact .simple (mem_simpleWords.mpr rfl)
  | @arith _ _ op mode _ _ _ hx =>
    exact .arith (mem_arithWords.mpr (Mnemonic.name_operation (.arith op) mode).symm)
      (hx.operandText rfl rfl)
  | jumpBy hx => exact .jumpBy (hx.operandText rfl rfl)
  | move hx hy => exact .move (hx.operandText rfl rfl) hy.name
  | jump _ label => exact .jump (mem_jumpWords.mpr rfl) label

theorem plain_operandText (i : Instruction) (mode : Mode) : Plain (i.operandText mode) := by
  cases mode with
  | target => exact plain_target i.source
  | immediate => exact plain_word i.value

theorem Reads.isOperand {x : Bytes} {mode : Mode} {source : Target} {value : Word}
    (h : Reads x mode source value) : IsOperand x := by
  obtain ⟨y, hy, -⟩ := @Assembler.operand_of_reads ⟨x, 0⟩ mode source value h
  exact Assembler.operand_ok_iff.mp ⟨y, hy⟩

theorem Names.isTarget {y : Bytes} {t : Target} (h : Names y t) : IsTarget y :=
  Assembler.target_ok_iff.mp ⟨t, (@Assembler.target_eq_ok_iff ⟨y, 0⟩ t).mpr h⟩

/-- What has a translation is a statement, if its label is there. -/
theorem Translates.statement {labels : Bytes → Prop} {ws : List Bytes} {i : Instruction}
    (h : Translates ws i) (hl : i.op.isJump = true → labels i.label) : Statement labels ws := by
  cases h with
  | simple hop =>
    rw [← mem_simpleWords.mp hop]
    exact .plain (name_mem_plain.mpr ⟨_, rfl⟩)
  | arith hop hx =>
    rw [← mem_arithWords.mp hop]
    exact .operand (name_mem_operand.mpr (.inl ⟨_, rfl⟩)) hx.isOperand
  | jumpBy hx => exact .operand (@name_mem_operand .jumpBy |>.mpr (.inr rfl)) hx.isOperand
  | move hx hy => exact .move hx.isOperand hy.isTarget
  | jump hcond label =>
    rw [← mem_jumpWords.mp hcond]
    exact .jump (name_mem_jump.mpr ⟨_, rfl⟩) (hl rfl)

/-- The text of an instruction spells its words. -/
theorem spells_text {i : Instruction} (hop : i.op ≠ .missing)
    (hlabel : i.op.isJump = true → Plain i.label) : Spells i.text (spelling i) := by
  obtain ⟨op, source, destination, value, label⟩ := i
  cases op with
  | missing => exact absurd rfl hop
  | simple op => exact (plain_operation (.simple op) .target).spells
  | arith op mode => exact (plain_operation (.arith op) mode).spells_pair (plain_operandText _ mode)
  | jumpBy mode => exact (plain_operation .jumpBy mode).spells_pair (plain_operandText _ mode)
  | move mode =>
    exact (plain_operation .move mode).spells_triple (plain_operandText _ mode)
      (plain_target destination)
  | jump cond => exact (plain_operation (.jump cond) .target).spells_pair (hlabel rfl)

/-- Without a label the text of an instruction always fits on a line. -/
theorem length_text_le {i : Instruction} (h : i.op.isJump = false) : i.text.length ≤ 18 := by
  have hname : ∀ op : Operation, op.name.length ≤ 3 := by
    intro op
    unfold Operation.name
    split <;> decide
  have htarget : ∀ t : Target, t.name.length ≤ 5 := by
    intro t
    have hall : ∀ t ∈ Target.all, t.name.length ≤ 5 := by decide
    exact hall t (Target.mem_all t)
  have hoperand : ∀ mode, (i.operandText mode).length ≤ 6 := by
    intro mode
    cases mode with
    | target => exact Nat.le_succ_of_le (htarget i.source)
    | immediate => exact Word.length_text_le i.value
  have hblank : (ascii " ").length = 1 := by decide
  have hcomma : (ascii ", ").length = 2 := by decide
  obtain ⟨op, source, destination, value, label⟩ := i
  have hop := hname op
  have hdestination := htarget destination
  cases op with
  | missing | simple => exact Nat.le_trans hop (by decide)
  | arith _ mode | jumpBy mode | move mode =>
    have := hoperand mode
    simp only [Instruction.text, List.length_append]
    omega
  | jump => cases h

/-! ## Labels -/

theorem length_body_le (line : Bytes) : (body line).length ≤ line.length := by
  have hcode : (Text.beforeComment line).Sublist line := List.takeWhile_sublist _
  simp only [body]
  split
  · have htail := List.tail_sublist ((Text.beforeComment line).dropWhile (· != ':'.toUInt8))
    exact (htail.trans ((List.dropWhile_sublist _).trans hcode)).length_le
  · exact hcode.length_le

/-- A label is a part of its line, in front of a colon. -/
theorem mem_of_label? {line l : Bytes} (h : label? line = some l) : l.length + 1 ≤ line.length ∧
    ∀ b ∈ l, b ∈ line ∧ b ≠ '#'.toUInt8 ∧ b ≠ ':'.toUInt8 := by
  simp only [label?, Option.ite_none_right_eq_some, Option.some.injEq] at h
  obtain ⟨hcolon, rfl⟩ := h
  have hcode : (Text.beforeComment line).Sublist line := List.takeWhile_sublist _
  have hbefore := List.takeWhile_sublist (l := Text.beforeComment line) (· != ':'.toUInt8)
  have htrim := Text.trim_sublist ((Text.beforeComment line).takeWhile (· != ':'.toUInt8))
  refine ⟨?_, fun b hb => ?_⟩
  · -- the colon itself is not part of what stands before it
    have hlt : ((Text.beforeComment line).takeWhile (· != ':'.toUInt8)).length <
        (Text.beforeComment line).length := by
      refine Nat.lt_of_le_of_ne hbefore.length_le fun e => ?_
      have hself := hbefore.eq_of_length e
      have := List.takeWhile_eq_self_iff.mp hself _ hcolon
      simp at this
    have := htrim.length_le
    have := hcode.length_le
    omega
  · have hb := htrim.subset hb
    have hmem := hbefore.subset hb
    refine ⟨hcode.subset hmem, ?_, ?_⟩
    · simpa using List.mem_takeWhile_imp hmem
    · simpa using List.mem_takeWhile_imp hb

section LabelLine

variable {l : Bytes} (h : Plain l)
include h

theorem Plain.not_blank : ∀ b ∈ l, Text.isBlank b = false := by
  intro b hb
  have := (isPlain_iff.mp (h.bytes b hb)).1
  simp only [isSeparator, Bool.or_eq_false_iff] at this
  exact this.2

theorem Plain.beforeComment_colon :
    Text.beforeComment (l ++ [':'.toUInt8]) = l ++ [':'.toUInt8] := by
  refine List.takeWhile_eq_self_iff.mpr fun b hb => ?_
  rcases List.mem_append.mp hb with hb | hb
  · simpa using (isPlain_iff.mp (h.bytes b hb)).2.1
  · rw [List.mem_singleton.mp hb]
    decide

/-- A line with a label and nothing else. -/
theorem Plain.label_line :
    label? (l ++ [':'.toUInt8]) = some l ∧ body (l ++ [':'.toUInt8]) = [] := by
  have hl : ∀ b ∈ l, (b != ':'.toUInt8) = true := fun b hb => by
    simpa using (isPlain_iff.mp (h.bytes b hb)).2.2.1
  have hmem : ':'.toUInt8 ∈ l ++ [':'.toUInt8] := by simp
  unfold label? body
  simp only [h.beforeComment_colon, if_pos hmem]
  rw [List.takeWhile_append_of_pos hl, List.dropWhile_append_of_pos hl]
  simp [Text.trim_eq_self h.not_blank]

/-- Such a line is right by itself. -/
theorem Plain.source_label_line (hlen : l.length + 1 ≤ 18) :
    Language.Source [l ++ [':'.toUInt8]] := by
  obtain ⟨hname, hbody⟩ := h.label_line
  refine ⟨by simp, by simp [hname], fun line hline => ?_⟩
  obtain rfl := List.mem_singleton.mp hline
  refine ⟨by simpa using hlen, fun l' hl' => ?_, ?_, ?_⟩
  · obtain rfl := Option.some.inj (hname.symm.trans hl')
    exact ⟨h.ne_nil, h.not_blank⟩
  · rw [hbody]
    exact commas_of_not_mem List.not_mem_nil
  · rw [hbody]
    exact .blank

theorem Plain.upper_label_line : Text.upper (l ++ [':'.toUInt8]) = l ++ [':'.toUInt8] := by
  refine Text.upper_eq_self fun b hb => ?_
  rcases List.mem_append.mp hb with hb | hb
  · exact (isPlain_iff.mp (h.bytes b hb)).2.2.2
  · rw [List.mem_singleton.mp hb]
    decide

theorem Plain.lines_label (s : Bytes) (hs : Text.lines s ≠ []) :
    Text.lines (l ++ ':'.toUInt8 :: 10 :: s) = (l ++ [':'.toUInt8]) :: Text.lines s := by
  have hnot : ∀ b, isPlain b = false → b ≠ ':'.toUInt8 → b ∉ l ++ [':'.toUInt8] := by
    intro b hb hcolon hmem
    rcases List.mem_append.mp hmem with hmem | hmem
    · rw [h.bytes b hmem] at hb
      cases hb
    · exact hcolon (List.mem_singleton.mp hmem)
  rw [List.append_cons, Text.lines_append_feed hs (hnot 10 (by decide) (by decide)),
    Text.dropReturn_of_not_mem (hnot 13 (by decide) (by decide))]

end LabelLine

theorem map_text_jumpTokens (line : Bytes) :
    (jumpTokens line).map Token.text = jumpLabels (words (body line)) := by
  obtain ⟨column, -, hwords, -⟩ := SourceLine.parse_parts line
  rw [jumpTokens, ← SourceLine.text_tokens column, ← hwords]
  cases (SourceLine.parse line).words with
  | nil => rfl
  | cons word params =>
    simp only [jumpParams, jumpLabels, List.head?_cons, Option.any_some,
      List.contains_iff_mem, List.tail_cons, List.map_cons]
    split
    · rfl
    · rfl

end Language

namespace Assembler

open NodeCube.Language

/-! ## Sources of one command -/

/-- A source of the language is assembled. -/
theorem assemble_of_source {source : Bytes} (h : Language.Source (sourceLines source)) :
    ∃ program, assemble source = .ok program := by
  have hparses : Parses (sourceLines source) :=
    ⟨fun line hline => (line_iff.mp (h.each line hline)).1, h.distinct⟩
  cases hresult : assemble source with
  | ok program => exact ⟨program, rfl⟩
  | error e =>
    cases assemble_eq_error_iff.mp hresult with
    | tooManyLines hlen => exact absurd h.length_le (Nat.not_le.mpr hlen)
    | @line before after text d _ _ hlines hbefore herror =>
      obtain ⟨d', hd'⟩ := parses_iff.mpr hparses
      have hrefused : Draft.addLines {} 0 (sourceLines source) = .error e :=
        Draft.addLines_eq_error_iff.mpr
          ⟨before, text, after, d, hlines, hbefore, by rwa [Nat.zero_add]⟩
      rw [hd'] at hrefused
      cases hrefused
    | @undefinedLabel d r _ _ hr =>
      obtain ⟨before, after, hjumps, -, hundefined⟩ := hr
      have hmem : r ∈ Language.jumps (sourceLines source) := by rw [hjumps]; simp
      obtain ⟨k, line, -, hline, hlabel⟩ := getElem?_of_mem_jumpsFrom hmem
      have hdefined := (line_iff.mp (h.each line (List.mem_of_getElem? hline))).2
      rw [← map_text_jumpTokens] at hdefined
      exact absurd (hdefined _ (List.mem_map.mpr ⟨r.label, hlabel, rfl⟩)) hundefined

/-- If the lines carry one command, the program has its translation and nothing else. -/
theorem instructions_of_command {source line : Bytes} {program : Program} {k : Nat}
    {i : Instruction} (h : assemble source = .ok program)
    (hcommands : commands (sourceLines source) = [(line, k)])
    (hi : Translates (words (body line)) i) : program.instructions = [i] := by
  obtain ⟨-, d, hd, hinstructions, -⟩ := laid_of_assemble h
  have hlaid := hd.instructions
  rw [hcommands] at hlaid
  obtain ⟨j, js, hj, hjs, heq⟩ := List.forall₂_cons_left_iff.mp hlaid
  rw [hinstructions, heq, List.forall₂_nil_left_iff.mp hjs, translates_unique hj hi]

/-! ## Where an instruction comes from -/

section Origin

variable {source : Bytes} {program : Program} (h : assemble source = .ok program)
include h

theorem parses_of_assemble : Parses (sourceLines source) := by
  obtain ⟨-, d, hd, -⟩ := assemble_parts h
  exact parses_iff.mp ⟨d, hd⟩

variable {i : Instruction} (hi : i ∈ program.instructions)
include hi

/-- Each instruction is the translation of a line. -/
theorem translates_of_mem :
    ∃ line ∈ sourceLines source, Translates (words (body line)) i := by
  obtain ⟨-, d, hd, hinstructions, -⟩ := laid_of_assemble h
  rw [hinstructions] at hi
  obtain ⟨n, hn⟩ := List.getElem?_of_mem hi
  have hlt : n < (commands (sourceLines source)).length :=
    hd.length_eq ▸ (List.getElem?_eq_some_iff.mp hn).1
  have hc := List.getElem?_eq_getElem hlt
  obtain ⟨hline, -⟩ := mem_commands.mp (List.mem_of_getElem? hc)
  exact ⟨_, List.mem_of_getElem? hline, (hd.getElem?_eq_some_iff hc).mp hn⟩

variable (hjump : i.op.isJump = true)
include hjump

theorem exists_label_of_jump : ∃ line ∈ sourceLines source, label? line = some i.label := by
  obtain ⟨hsound, -⟩ := assemble_sound h
  obtain ⟨index, hindex⟩ := Option.isSome_iff_exists.mp ((hsound.instructions i hi).label hjump)
  obtain ⟨-, d, hd, -, -, hlabels⟩ := laid_of_assemble h
  rw [hlabels] at hindex
  obtain ⟨k, line, hline, hlabel, -⟩ := (hd.labels _ _).mp ((hd.find _ _).mp hindex)
  exact ⟨line, List.mem_of_getElem? hline, hlabel⟩

/-- The label of a jump is a word of one line and stands before the colon of another. -/
theorem plain_label : Plain i.label ∧ i.label.length + 1 ≤ 18 ∧ i.text.length ≤ 18 := by
  have hparses := parses_of_assemble h
  obtain ⟨line, hline, ht⟩ := translates_of_mem h hi
  obtain ⟨line', hline', hlabel⟩ := exists_label_of_jump h hi hjump
  obtain ⟨hlen', hbytes⟩ := mem_of_label? hlabel
  have hle := (hparses.each line hline).length_le
  have hle' := (hparses.each line' hline').length_le
  obtain ⟨cond, hop⟩ : ∃ cond, i.op = .jump cond := by
    cases hop : i.op with
    | jump cond => exact ⟨cond, rfl⟩
    | missing | simple | arith | move | jumpBy => rw [hop] at hjump; cases hjump
  have hwords : words (body line) = [(Mnemonic.jump cond).name, i.label] := by
    generalize words (body line) = ws at ht
    cases ht with
    | jump hcond label =>
      cases hop
      rw [mem_jumpWords.mp hcond]
    | simple | arith | jumpBy | move => cases hop
  obtain ⟨hne, hword⟩ := not_separator_of_mem_words (s := body line) (w := i.label) (by simp [hwords])
  refine ⟨⟨hne, fun b hb => ?_⟩, Nat.le_trans hlen' hle', ?_⟩
  · obtain ⟨hmem, hsign, hcolon⟩ := hbytes b hb
    obtain ⟨raw, -, rfl⟩ := List.mem_map.mp hline'
    obtain ⟨c, -, rfl⟩ := List.mem_map.mp hmem
    exact isPlain_iff.mpr ⟨hword _ hb, hsign, hcolon, Text.upperByte_upperByte c⟩
  · -- the line of the jump has room for its words and a separator
    have hroom := length_words_le (body line)
    have hbody := length_body_le line
    simp only [hwords, List.flatten_cons, List.flatten_nil, List.length_append, List.length_cons,
      List.length_nil] at hroom
    have htext : i.text.length = (Mnemonic.jump cond).name.length + 1 + i.label.length := by
      simp only [Instruction.text, hop, List.length_append]
      rfl
    omega

end Origin

/-! ## Texts are assembled again -/

theorem spells_of_translates {i : Instruction} {ws : List Bytes} (hi : Translates ws i)
    (hlabel : i.op.isJump = true → Plain i.label) : Spells i.text (spelling i) := by
  refine spells_text ?_ hlabel
  cases hi with
  | simple | arith | jumpBy | move | jump => simp

/-- The text of an instruction is assembled to it, behind lines without a command that define its
label if it has one. -/
theorem assemble_spelled {source : Bytes} {before ws : List Bytes} {i : Instruction}
    (hi : Translates ws i) (hspells : Spells i.text (spelling i)) (htext : i.text.length ≤ 18)
    (hlines : sourceLines source = before ++ [i.text]) (hbefore : Language.Source before)
    (hlen : before.length < 20) (hnone : ∀ line ∈ before, hasCommand line = false)
    (hlabel : i.op.isJump = true → i.label ∈ before.filterMap label?) :
    ∃ program, assemble source = .ok program ∧ program.instructions = [i] := by
  have hwords : Translates (words (body i.text)) i := by
    rw [hspells.body_eq, hspells.words]
    exact hi.spelled
  have hlabels : (before ++ [i.text]).filterMap label? = before.filterMap label? := by
    simp [hspells.label?_eq]
  have hsource : Language.Source (sourceLines source) := by
    rw [hlines]
    refine ⟨by rwa [List.length_append], hlabels ▸ hbefore.distinct, fun line hline => ?_⟩
    rw [hlabels]
    rcases List.mem_append.mp hline with hline | hline
    · exact hbefore.each line hline
    · rw [List.mem_singleton.mp hline]
      exact hspells.line htext (hi.spelled.statement hlabel)
  have hempty : commands before = [] := by
    refine List.filter_eq_nil_iff.mpr fun c hc => ?_
    rw [hnone c.1 (List.fst_mem_of_mem_zipIdx hc)]
    exact Bool.false_ne_true
  have hcommands : commands (sourceLines source) = [(i.text, before.length)] := by
    rw [hlines, commands_concat, hwords.hasCommand, if_pos rfl, hempty]
    rfl
  obtain ⟨program, h⟩ := assemble_of_source hsource
  exact ⟨program, h, instructions_of_command h hcommands hwords⟩

/-- The text of an instruction that goes to no label is a source of its own. -/
theorem assemble_text {i : Instruction} {ws : List Bytes} (hi : Translates ws i)
    (hjump : i.op.isJump = false) :
    ∃ program, assemble i.text = .ok program ∧ program.instructions = [i] := by
  have hno : i.op.isJump ≠ true := by simp [hjump]
  have hspells : Spells i.text (spelling i) := spells_of_translates hi fun h => absurd h hno
  have hlines : sourceLines i.text = [] ++ [i.text] := by
    rw [sourceLines, hspells.lines_eq (by simp [spelling]), List.map_singleton, hspells.upper_eq]
    rfl
  exact assemble_spelled hi hspells (length_text_le hjump) hlines ⟨by simp, by simp, by simp⟩
    (by simp) (by simp) fun h => absurd h hno

/-- The text of a jump is assembled behind a line with its label. -/
theorem assemble_jump_text {i : Instruction} {ws : List Bytes} (hi : Translates ws i)
    (hlabel : Plain i.label) (hlen : i.label.length + 1 ≤ 18) (htext : i.text.length ≤ 18) :
    ∃ program, assemble (i.label ++ ascii ":\n" ++ i.text) = .ok program ∧
      program.instructions = [i] := by
  have hspells : Spells i.text (spelling i) := spells_of_translates hi fun _ => hlabel
  obtain ⟨hname, hbody⟩ := hlabel.label_line
  have hlines : sourceLines (i.label ++ ascii ":\n" ++ i.text) =
      [i.label ++ [':'.toUInt8]] ++ [i.text] := by
    have htexts := hspells.lines_eq (by simp [spelling])
    have hcut : i.label ++ ascii ":\n" ++ i.text = i.label ++ ':'.toUInt8 :: 10 :: i.text :=
      List.append_assoc ..
    rw [sourceLines, hcut, hlabel.lines_label _ (by simp [htexts]), htexts, List.map_cons,
      List.map_singleton, hlabel.upper_label_line, hspells.upper_eq]
    rfl
  refine assemble_spelled hi hspells htext hlines (hlabel.source_label_line hlen) (by simp) ?_ ?_
  · intro line hline
    rw [List.mem_singleton.mp hline, hasCommand, hbody]
    rfl
  · intro _
    simp [hname]

/-- The text of each instruction of a program fits on a line and is assembled to this instruction
alone; that of a jump is so behind a line with its label. -/
theorem text_reassembles {source : Bytes} {program : Program} (h : assemble source = .ok program)
    {i : Instruction} (hi : i ∈ program.instructions) :
    i.text.length ≤ 18 ∧
      (i.op.isJump = false → ∃ again, assemble i.text = .ok again ∧ again.instructions = [i]) ∧
      (i.op.isJump = true → ∃ again, assemble (i.label ++ ascii ":\n" ++ i.text) = .ok again ∧
        again.instructions = [i]) := by
  obtain ⟨line, -, ht⟩ := translates_of_mem h hi
  refine ⟨?_, assemble_text ht, fun hjump => ?_⟩
  · cases hjump : i.op.isJump with
    | false => exact length_text_le hjump
    | true => exact (plain_label h hi hjump).2.2
  · obtain ⟨hlabel, hlen, htext⟩ := plain_label h hi hjump
    exact assemble_jump_text ht hlabel hlen htext

/-- A source with a label of digits and a tail behind the name of a target. -/
def oddities : Bytes := ascii "0: mov 0xFFFF,any\njlz 0 # back\nadd acc" ++ [0, 65]

theorem text_reassembles_oddities : ∃ program, assemble oddities = .ok program ∧
    program.instructions = [{ op := .move .immediate, destination := .any, value := -1 },
      { op := .jump .negative, label := ascii "0" }, { op := .arith .add .target, source := .acc }] ∧
    (∃ again, assemble (ascii "MOV -1, ANY") = .ok again ∧
      again.instructions = [{ op := .move .immediate, destination := .any, value := -1 }]) ∧
    (∃ again, assemble (ascii "0:\nJLZ 0") = .ok again ∧
      again.instructions = [{ op := .jump .negative, label := ascii "0" }]) := by
  have hlist : (assemble oddities).toOption.map Program.instructions =
      some [{ op := .move .immediate, destination := .any, value := -1 },
        { op := .jump .negative, label := ascii "0" },
        { op := .arith .add .target, source := .acc }] := by decide +kernel
  cases h : assemble oddities with
  | error e =>
    rw [h] at hlist
    cases hlist
  | ok program =>
    rw [h] at hlist
    replace hlist := Option.some.inj hlist
    have hmove := text_reassembles h (hlist ▸ List.mem_cons_self)
    have hjump := text_reassembles h (hlist ▸ List.mem_cons_of_mem _ List.mem_cons_self)
    have htext : Instruction.text { op := .move .immediate, destination := .any, value := -1 } =
      ascii "MOV -1, ANY" := by decide +kernel
    exact ⟨program, rfl, hlist, htext ▸ hmove.2.1 rfl, hjump.2.2 rfl⟩

end Assembler

end NodeCube
