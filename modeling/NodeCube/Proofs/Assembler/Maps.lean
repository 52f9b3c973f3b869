import Mathlib.Data.List.Forall2
import NodeCube.Proofs.Assembler.Language

/-!
# The maps of an assembled program

Where the instructions of a program come from, and where its labels go, said without the assembler.
`Language.Translates` gives the instruction that the words of a line stand for, and
`Language.commands` the lines that carry a command, with their numbers. `Language.Maps` says that a
program has the translations of these commands in their order, the numbers of their lines, and for
each label the number of commands on the lines before its own.

The assembler builds all three in one pass, and binds a label before it adds the instruction on the
same line. `Assembler.Draft.Laid` is what holds of a draft after some lines of a source.
-/

namespace NodeCube

/-! ## Commands and what they stand for -/

namespace Language

/-- What the mnemonics without an operand stand for. -/
def simpleWords : List (Bytes × Simple) :=
  [(ascii "NEG", .negate), (ascii "NOT", .invert), (ascii "SAV", .save), (ascii "SWP", .swap),
    (ascii "NOP", .idle)]

/-- What the mnemonics stand for that combine the accumulator with an operand. -/
def arithWords : List (Bytes × Arith) :=
  [(ascii "ADD", .add), (ascii "SUB", .sub), (ascii "AND", .bitAnd), (ascii "OR", .bitOr),
    (ascii "XOR", .bitXor), (ascii "SHL", .shiftLeft), (ascii "SHR", .shiftRight)]

/-- What the mnemonics stand for that take a label. -/
def jumpWords : List (Bytes × Condition) :=
  [(ascii "JMP", .always), (ascii "JEZ", .zero), (ascii "JNZ", .nonzero), (ascii "JGZ", .positive),
    (ascii "JLZ", .negative)]

/-- What operands can name; nothing names `BAK`. -/
def targetWords : List (Bytes × Target) :=
  [(ascii "ACC", .acc), (ascii "NIL", .nil), (ascii "LEFT", .port .left),
    (ascii "RIGHT", .port .right), (ascii "UP", .port .up), (ascii "DOWN", .port .down),
    (ascii "ANY", .any), (ascii "LAST", .last)]

/-- The text names the target, up to its first NUL byte. -/
def Names (x : Bytes) (t : Target) : Prop := (Text.untilNul x, t) ∈ targetWords

/-- What an operand stands for: a mode, with the target to read or the word itself. -/
inductive Reads (x : Bytes) : Mode → Target → Word → Prop
  | number {w : Word} (hx : Word.looksLiteral x = true) (hw : Word.ofLiteral? x = some w) :
    Reads x .immediate .nil w
  | name {t : Target} (hx : Word.looksLiteral x = false) (ht : Names x t) : Reads x .target t 0

/-- The instruction that the words of a line stand for. -/
inductive Translates : List Bytes → Instruction → Prop
  | simple {w : Bytes} {op : Simple} (hw : (w, op) ∈ simpleWords) :
    Translates [w] { op := .simple op }
  | arith {w x : Bytes} {op : Arith} {mode : Mode} {source : Target} {value : Word}
      (hw : (w, op) ∈ arithWords) (hx : Reads x mode source value) :
    Translates [w, x] { op := .arith op mode, source, value }
  | jumpBy {x : Bytes} {mode : Mode} {source : Target} {value : Word}
      (hx : Reads x mode source value) :
    Translates [ascii "JRO", x] { op := .jumpBy mode, source, value }
  | move {x y : Bytes} {mode : Mode} {source destination : Target} {value : Word}
      (hx : Reads x mode source value) (hy : Names y destination) :
    Translates [ascii "MOV", x, y] { op := .move mode, source, destination, value }
  | jump {w : Bytes} {cond : Condition} (hw : (w, cond) ∈ jumpWords) (label : Bytes) :
    Translates [w, label] { op := .jump cond, label }

/-- Whether a line carries a command. -/
def hasCommand (line : Bytes) : Bool := !(words (body line)).isEmpty

/-- The lines that carry a command, with their numbers. -/
def commands (lines : List Bytes) : List (Bytes × Nat) :=
  lines.zipIdx.filter fun c => hasCommand c.1

/-- The number of commands on the lines before line `k`. -/
def commandsBefore (lines : List Bytes) (k : Nat) : Nat := (lines.take k).countP hasCommand

/-- Some line has the label, and `index` commands stand on the lines before it. -/
def Labelled (lines : List Bytes) (name : Bytes) (index : Int) : Prop :=
  ∃ k line, lines[k]? = some line ∧ label? line = some name ∧ index = commandsBefore lines k

/-- The instructions, the line numbers and the labels of a program are those of the lines. -/
structure Maps (lines : List Bytes) (p : Program) : Prop where
  length_le : p.instructions.length ≤ 20
  /-- Just the instructions have a line. -/
  lineOf_isSome : ∀ i : Int, (p.lineOf? i).isSome = true ↔ 0 ≤ i ∧ i < p.instructions.length
  increasing : ∀ (i j : Int) (k l : Nat),
    p.lineOf? i = some k → p.lineOf? j = some l → i < j → k < l
  /-- Their lines are just those that carry a command. -/
  lineOf_eq : ∀ k, (∃ i, p.lineOf? i = some k) ↔
    ∃ line, lines[k]? = some line ∧ hasCommand line = true
  /-- Each one is the translation of the command on its line. -/
  translation : ∀ (i : Nat) instruction, p.instructions[i]? = some instruction ↔
    ∃ k line, p.lineOf? i = some k ∧ lines[k]? = some line ∧
      Translates (words (body line)) instruction
  /-- A label stands for the number of commands before it, and there are no other labels. -/
  label : ∀ name index, (name, index) ∈ p.labels ↔ Labelled lines name index
  label_find : ∀ name index, p.labels.find? name = some index ↔ (name, index) ∈ p.labels
  /-- If a command stands on line `k` or behind it, the number of commands before line `k` is the
  index of the first such one. -/
  first : ∀ k l line, k ≤ l → lines[l]? = some line → hasCommand line = true →
    (∃ l', p.lineOf? (commandsBefore lines k) = some l' ∧ k ≤ l') ∧
      ∀ j l', p.lineOf? j = some l' → k ≤ l' → commandsBefore lines k ≤ j
  /-- If there is none, it is the end of the program. -/
  last : ∀ k, (∀ l line, k ≤ l → lines[l]? = some line → hasCommand line = false) →
    commandsBefore lines k = p.instructions.length

theorem Translates.hasCommand {line : Bytes} {i : Instruction}
    (h : Translates (words (body line)) i) : hasCommand line = true := by
  unfold Language.hasCommand
  cases hw : words (body line) with
  | nil =>
    rw [hw] at h
    cases h
  | cons => rfl

/-! ## Commands and their lines -/

section Commands

variable {lines : List Bytes} {line : Bytes} {k : Nat}

theorem commands_append (before after : List Bytes) : commands (before ++ after) =
    commands before ++ (after.zipIdx before.length).filter fun c => hasCommand c.1 := by
  rw [commands, List.zipIdx_append, List.filter_append, Nat.zero_add]
  rfl

theorem commands_concat (lines : List Bytes) (line : Bytes) : commands (lines ++ [line]) =
    if hasCommand line then commands lines ++ [(line, lines.length)] else commands lines := by
  rw [commands_append]
  cases h : hasCommand line <;> simp [h]

theorem mem_commands : (line, k) ∈ commands lines ↔
    lines[k]? = some line ∧ hasCommand line = true := by
  rw [commands, List.mem_filter, List.mk_mem_zipIdx_iff_getElem?]

theorem length_commands (lines : List Bytes) :
    (commands lines).length = lines.countP hasCommand := by
  have h := @List.countP_map _ _ hasCommand Prod.fst lines.zipIdx
  rw [List.zipIdx_map_fst] at h
  rw [h, commands, ← List.countP_eq_length_filter]
  rfl

theorem commands_increasing (lines : List Bytes) :
    ((commands lines).map Prod.snd).Pairwise (· < ·) := by
  rw [List.pairwise_map]
  refine List.Pairwise.filter _ (List.pairwise_map.mp ?_)
  rw [List.zipIdx_map_snd]
  exact List.pairwise_lt_range' 1

/-- The commands before line `k` are the first ones. -/
theorem lt_commandsBefore_iff {i l : Nat} (h : (commands lines)[i]? = some (line, l)) :
    i < commandsBefore lines k ↔ l < k := by
  have hl : l < lines.length :=
    (List.getElem?_eq_some_iff.mp (mem_commands.mp (List.mem_of_getElem? h)).1).1
  have hlen : (lines.take k).length = min k lines.length := List.length_take
  have hsplit := commands_append (lines.take k) (lines.drop k)
  rw [List.take_append_drop, hlen] at hsplit
  rw [commandsBefore, ← length_commands]
  by_cases hi : i < (commands (lines.take k)).length
  · rw [hsplit, List.getElem?_append_left hi] at h
    obtain ⟨hl, -⟩ := mem_commands.mp (List.mem_of_getElem? h)
    have : l < (lines.take k).length := (List.getElem?_eq_some_iff.mp hl).1
    omega
  · rw [hsplit, List.getElem?_append_right (by omega)] at h
    obtain ⟨hl, -⟩ := List.mem_filter.mp (List.mem_of_getElem? h)
    have : min k lines.length ≤ l := (List.mk_mem_zipIdx_iff_le_and_getElem?_sub.mp hl).1
    omega

/-- If no command follows, all of them come before. -/
theorem commandsBefore_of_last
    (h : ∀ l text, k ≤ l → lines[l]? = some text → hasCommand text = false) :
    commandsBefore lines k = (commands lines).length := by
  have hrest : (lines.drop k).countP hasCommand = 0 := by
    refine List.countP_eq_zero.mpr fun text ht => ?_
    obtain ⟨i, hi⟩ := List.mem_iff_getElem?.mp ht
    rw [List.getElem?_drop] at hi
    simp [h (k + i) text (Nat.le_add_right k i) hi]
  rw [length_commands]
  conv_rhs => rw [← List.take_append_drop k lines]
  rw [List.countP_append, hrest]
  rfl

theorem commandsBefore_append {before : List Bytes} (after : List Bytes)
    (hk : k ≤ before.length) : commandsBefore (before ++ after) k = commandsBefore before k := by
  rw [commandsBefore, List.take_append_of_le_length hk]
  rfl

theorem commandsBefore_length (lines : List Bytes) :
    commandsBefore lines lines.length = (commands lines).length := by
  rw [commandsBefore, List.take_length, length_commands]

/-- The label of a new last line stands for the command that comes next. -/
theorem labelled_concat {name : Bytes} {index : Int} : Labelled (lines ++ [line]) name index ↔
    Labelled lines name index ∨ label? line = some name ∧ index = (commands lines).length := by
  constructor
  · rintro ⟨k, text, hk, hl, rfl⟩
    by_cases hlt : k < lines.length
    · rw [List.getElem?_append_left hlt] at hk
      exact .inl ⟨k, text, hk, hl, by rw [commandsBefore_append _ (Nat.le_of_lt hlt)]⟩
    · obtain rfl : k = lines.length := by
        have := (List.getElem?_eq_some_iff.mp hk).1
        simp only [List.length_append, List.length_singleton] at this
        omega
      rw [List.getElem?_concat_length] at hk
      cases hk
      exact .inr ⟨hl, by rw [commandsBefore_append _ (Nat.le_refl _), commandsBefore_length]⟩
  · rintro (⟨k, text, hk, hl, rfl⟩ | ⟨hl, rfl⟩)
    · have hlt := (List.getElem?_eq_some_iff.mp hk).1
      refine ⟨k, text, by rw [List.getElem?_append_left hlt, hk], hl, ?_⟩
      rw [commandsBefore_append _ (Nat.le_of_lt hlt)]
    · refine ⟨lines.length, line, List.getElem?_concat_length, hl, ?_⟩
      rw [commandsBefore_append _ (Nat.le_refl _), commandsBefore_length]

end Commands

end Language

namespace Program

open NodeCube.Language

section Lines

-- the lines of the program are those that carry a command
variable {p : Program} {lines : List Bytes} (h : p.lines = (commands lines).map Prod.snd)
include h

theorem lineOf?_eq_some_iff {i : Int} {k : Nat} : p.lineOf? i = some k ↔
    ∃ n : Nat, i = n ∧ ∃ line, (commands lines)[n]? = some (line, k) := by
  unfold lineOf?
  rw [h]
  split
  · rename_i hi
    constructor
    · intro e
      cases e
    · rintro ⟨n, rfl, -⟩
      omega
  · rename_i hi
    obtain ⟨n, rfl⟩ := Int.eq_ofNat_of_zero_le (Int.not_lt.mp hi)
    simp only [Int.toNat_natCast, List.getElem?_map, Option.map_eq_some_iff, Prod.exists,
      exists_eq_right, Int.natCast_inj, exists_eq_left']

theorem lineOf?_isSome_iff {i : Int} :
    (p.lineOf? i).isSome = true ↔ 0 ≤ i ∧ i < (commands lines).length := by
  simp only [Option.isSome_iff_exists, lineOf?_eq_some_iff h]
  constructor
  · rintro ⟨k, n, rfl, line, hn⟩
    have := (List.getElem?_eq_some_iff.mp hn).1
    omega
  · rintro ⟨hi, hlt⟩
    obtain ⟨n, rfl⟩ := Int.eq_ofNat_of_zero_le hi
    have hn : n < (commands lines).length := by omega
    exact ⟨_, n, rfl, _, List.getElem?_eq_getElem hn⟩

theorem lineOf?_increasing {i j : Int} {k l : Nat} (hi : p.lineOf? i = some k)
    (hj : p.lineOf? j = some l) (hlt : i < j) : k < l := by
  obtain ⟨n, rfl, line, hn⟩ := (lineOf?_eq_some_iff h).mp hi
  obtain ⟨m, rfl, line', hm⟩ := (lineOf?_eq_some_iff h).mp hj
  obtain ⟨hn', hn⟩ := List.getElem?_eq_some_iff.mp hn
  obtain ⟨hm', hm⟩ := List.getElem?_eq_some_iff.mp hm
  have hnm : n < m := by omega
  have hsorted := List.pairwise_map.mp (commands_increasing lines)
  have := List.pairwise_iff_getElem.mp hsorted n m hn' hm' hnm
  rwa [hn, hm] at this

theorem exists_lineOf?_iff {k : Nat} : (∃ i, p.lineOf? i = some k) ↔
    ∃ line, lines[k]? = some line ∧ hasCommand line = true := by
  simp only [lineOf?_eq_some_iff h, ← mem_commands, List.mem_iff_getElem?]
  constructor
  · rintro ⟨_, n, rfl, line, hn⟩
    exact ⟨line, n, hn⟩
  · rintro ⟨line, n, hn⟩
    exact ⟨n, n, rfl, line, hn⟩

/-- An instruction stands before line `k` if its index is below the number of commands there. -/
theorem commandsBefore_le_iff {i : Int} {k l : Nat} (hi : p.lineOf? i = some l) :
    commandsBefore lines k ≤ i ↔ k ≤ l := by
  obtain ⟨n, rfl, line, hn⟩ := (lineOf?_eq_some_iff h).mp hi
  have := @lt_commandsBefore_iff _ _ k _ _ hn
  omega

/-- The first command on line `k` or behind it. -/
theorem lineOf?_commandsBefore {i : Int} {k l : Nat} (hi : p.lineOf? i = some l) (hk : k ≤ l) :
    ∃ l', p.lineOf? (commandsBefore lines k) = some l' ∧ k ≤ l' := by
  have hle := (commandsBefore_le_iff h hi).mpr hk
  have hlt := ((lineOf?_isSome_iff h).mp (Option.isSome_iff_exists.mpr ⟨l, hi⟩)).2
  obtain ⟨l', hl'⟩ := Option.isSome_iff_exists.mp
    ((lineOf?_isSome_iff h).mpr ⟨Int.natCast_nonneg (commandsBefore lines k), by omega⟩)
  exact ⟨l', hl', (commandsBefore_le_iff h hl').mp (Int.le_refl _)⟩

end Lines

end Program

/-! ## Translation -/

theorem Target.name_injective {t t' : Target} (h : t.name = t'.name) : t = t' := by
  have hall : ∀ x ∈ all, ∀ y ∈ all, x.name = y.name → x = y := by decide
  exact hall t (mem_all t) t' (mem_all t') h

theorem Target.ofName?_eq_some_iff {s : Bytes} {t : Target} :
    ofName? s = some t ↔ t.name = Text.untilNul s := by
  constructor
  · intro h
    simpa using List.find?_some h
  · intro hname
    cases h : ofName? s with
    | none => simpa [hname] using List.find?_eq_none.mp h t (mem_all t)
    | some t' =>
      have ht' : t'.name = Text.untilNul s := by simpa using List.find?_some h
      rw [name_injective (ht'.trans hname.symm)]

namespace Language

/-- A list of words with what they stand for tells the words apart if it has the name of each thing,
and no other words. -/
theorem mem_words_iff {α : Type} {list : List (Bytes × α)} (name : α → Bytes)
    (hnames : ∀ e ∈ list, name e.2 = e.1) (hall : ∀ a, (name a, a) ∈ list) {w : Bytes} {a : α} :
    (w, a) ∈ list ↔ name a = w := by
  constructor
  · exact hnames (w, a)
  · rintro rfl
    exact hall a

theorem mem_simpleWords {w : Bytes} {op : Simple} :
    (w, op) ∈ simpleWords ↔ (Mnemonic.simple op).name = w :=
  mem_words_iff (Mnemonic.simple · |>.name) (by decide) fun op => by cases op <;> decide

theorem mem_arithWords {w : Bytes} {op : Arith} :
    (w, op) ∈ arithWords ↔ (Mnemonic.arith op).name = w :=
  mem_words_iff (Mnemonic.arith · |>.name) (by decide) fun op => by cases op <;> decide

theorem mem_jumpWords {w : Bytes} {cond : Condition} :
    (w, cond) ∈ jumpWords ↔ (Mnemonic.jump cond).name = w :=
  mem_words_iff (Mnemonic.jump · |>.name) (by decide) fun cond => by cases cond <;> decide

theorem names_iff {x : Bytes} {t : Target} : Names x t ↔ t ≠ .bak ∧ t.name = Text.untilNul x := by
  constructor
  · have hall : ∀ e ∈ targetWords, e.2 ≠ .bak ∧ e.2.name = e.1 := by decide
    exact hall (Text.untilNul x, t)
  · rintro ⟨ht, hname⟩
    have hall : ∀ t ∈ Target.all, t ≠ .bak → (t.name, t) ∈ targetWords := by decide
    rw [Names, ← hname]
    exact hall t (Target.mem_all t) ht

end Language

/-- The translations of a mnemonic with its operands. -/
theorem Language.translates_iff {m : Mnemonic} {params : List Bytes} {i : Instruction} :
    Translates (m.name :: params) i ↔
      match m with
      | .simple op => params = [] ∧ i = { op := .simple op }
      | .arith op => ∃ x mode source value, params = [x] ∧ Reads x mode source value ∧
        i = { op := .arith op mode, source, value }
      | .jumpBy => ∃ x mode source value, params = [x] ∧ Reads x mode source value ∧
        i = { op := .jumpBy mode, source, value }
      | .move => ∃ x y mode source value destination, params = [x, y] ∧
        Reads x mode source value ∧ Names y destination ∧
        i = { op := .move mode, source, destination, value }
      | .jump cond => ∃ label, params = [label] ∧ i = { op := .jump cond, label } := by
  constructor
  · intro h
    generalize hw : m.name :: params = ws at h
    cases h with
    | simple hop =>
      obtain ⟨hm, rfl⟩ := List.cons.inj hw
      obtain rfl := Mnemonic.name_injective (hm.trans (mem_simpleWords.mp hop).symm)
      exact ⟨rfl, rfl⟩
    | arith hop hx =>
      obtain ⟨hm, rfl⟩ := List.cons.inj hw
      obtain rfl := Mnemonic.name_injective (hm.trans (mem_arithWords.mp hop).symm)
      exact ⟨_, _, _, _, rfl, hx, rfl⟩
    | jumpBy hx =>
      obtain ⟨hm, rfl⟩ := List.cons.inj hw
      obtain rfl : m = .jumpBy := Mnemonic.name_injective hm
      exact ⟨_, _, _, _, rfl, hx, rfl⟩
    | move hx hy =>
      obtain ⟨hm, rfl⟩ := List.cons.inj hw
      obtain rfl : m = .move := Mnemonic.name_injective hm
      exact ⟨_, _, _, _, _, _, rfl, hx, hy, rfl⟩
    | jump hcond label =>
      obtain ⟨hm, rfl⟩ := List.cons.inj hw
      obtain rfl := Mnemonic.name_injective (hm.trans (mem_jumpWords.mp hcond).symm)
      exact ⟨_, rfl, rfl⟩
  · intro h
    cases m with
    | simple op =>
      obtain ⟨rfl, rfl⟩ := h
      exact .simple (mem_simpleWords.mpr rfl)
    | arith op =>
      obtain ⟨x, mode, source, value, rfl, hx, rfl⟩ := h
      exact .arith (mem_arithWords.mpr rfl) hx
    | jumpBy =>
      obtain ⟨x, mode, source, value, rfl, hx, rfl⟩ := h
      exact .jumpBy hx
    | move =>
      obtain ⟨x, y, mode, source, value, destination, rfl, hx, hy, rfl⟩ := h
      exact .move hx hy
    | jump cond =>
      obtain ⟨label, rfl, rfl⟩ := h
      exact .jump (mem_jumpWords.mpr rfl) label

namespace Assembler

open NodeCube.Language

theorem target_eq_ok_iff {t : Token} {x : Target} : target t = .ok x ↔ Names t.text x := by
  rw [names_iff, ← Target.ofName?_eq_some_iff]
  unfold target
  split
  · rename_i h
    simp [h]
  · rename_i h
    simp only [h, reduceCtorEq, Option.some.injEq, false_iff, not_and]
    exact fun hne e => hne e.symm
  · rename_i y hy h
    simp only [h, Except.ok.injEq, Option.some.injEq]
    exact ⟨fun e => ⟨e ▸ hy, e⟩, fun e => e.2⟩

theorem reads_of_operand {t : Token} {x : Operand} (h : operand t = .ok x) :
    ∃ mode source value, Reads t.text mode source value ∧
      ∀ op : Mode → Operation, withOperand op x = { op := op mode, source, value } := by
  unfold operand at h
  split at h
  · rename_i hx
    split at h
    · cases h
    · rename_i w hw
      cases h
      exact ⟨_, _, _, .number hx hw, fun _ => rfl⟩
  · rename_i hx
    split at h
    · cases h
    · rename_i y hy
      cases h
      exact ⟨_, _, _, .name (Bool.eq_false_iff.mpr hx) (target_eq_ok_iff.mp hy), fun _ => rfl⟩

theorem operand_of_reads {t : Token} {mode : Mode} {source : Target} {value : Word}
    (h : Reads t.text mode source value) : ∃ x, operand t = .ok x ∧
      ∀ op : Mode → Operation, withOperand op x = { op := op mode, source, value } := by
  unfold operand
  cases h with
  | number hx hw =>
    rw [hx, if_pos rfl, hw]
    exact ⟨_, rfl, fun _ => rfl⟩
  | name hx ht =>
    rw [hx, if_neg Bool.false_ne_true, target_eq_ok_iff.mpr ht]
    exact ⟨_, rfl, fun _ => rfl⟩

variable {word : Token} {params : List Token} {i : Instruction}

/-- An operation that takes one operand. -/
theorem one_operand_eq_ok_iff {op : Mode → Operation} :
    (do let p ← one word params; let x ← operand p; return withOperand op x) = Except.ok i ↔
      ∃ x mode source value, params.map Token.text = [x] ∧ Reads x mode source value ∧
        i = { op := op mode, source, value } := by
  constructor
  · intro h
    obtain ⟨p, hp, h⟩ := bind_eq_ok h
    obtain ⟨x, hx, h⟩ := bind_eq_ok h
    obtain ⟨mode, source, value, hr, hop⟩ := reads_of_operand hx
    cases h
    exact ⟨p.text, mode, source, value, by rw [one_ok_iff.mp hp]; rfl, hr, hop op⟩
  · rintro ⟨x, mode, source, value, h, hr, rfl⟩
    obtain ⟨p, rfl, rfl⟩ := List.map_eq_singleton_iff.mp h
    obtain ⟨y, hy, hop⟩ := operand_of_reads hr
    rw [← hop op]
    show (operand p >>= fun x => pure (withOperand op x)) = _
    rw [hy]
    rfl

/-- What the assembler makes of a mnemonic with its operands is their translation. -/
theorem instruction_eq_ok_iff {m : Mnemonic} (word : Token) :
    instruction m word params = .ok i ↔ Translates (m.name :: params.map Token.text) i := by
  rw [translates_iff]
  cases m with
  | simple op =>
    cases params with
    | nil => simp [instruction, eq_comm]
    | cons p rest => simp [instruction]
  | arith op => exact one_operand_eq_ok_iff
  | jumpBy => exact one_operand_eq_ok_iff
  | move =>
    constructor
    · intro h
      obtain ⟨⟨p, q⟩, hpq, h⟩ := bind_eq_ok h
      obtain ⟨y, hy, h⟩ := bind_eq_ok h
      obtain ⟨x, hx, h⟩ := bind_eq_ok h
      obtain ⟨mode, source, value, hr, hop⟩ := reads_of_operand hx
      cases h
      refine ⟨p.text, q.text, mode, source, value, y, by rw [two_ok_iff.mp hpq]; rfl, hr,
        target_eq_ok_iff.mp hy, ?_⟩
      rw [hop]
    · rintro ⟨x, y, mode, source, value, destination, h, hr, hy, rfl⟩
      obtain ⟨p, rest, rfl, rfl, hrest⟩ := List.map_eq_cons_iff.mp h
      obtain ⟨q, rfl, rfl⟩ := List.map_eq_singleton_iff.mp hrest
      obtain ⟨x, hx, hop⟩ := operand_of_reads hr
      show (target q >>= fun d => operand p >>= fun x =>
        pure { withOperand .move x with destination := d }) = _
      rw [target_eq_ok_iff.mpr hy, hx]
      show Except.ok { withOperand .move x with destination := destination } = _
      rw [hop]
  | jump cond =>
    constructor
    · intro h
      obtain ⟨p, hp, h⟩ := bind_eq_ok h
      cases h
      exact ⟨p.text, by rw [one_ok_iff.mp hp]; rfl, rfl⟩
    · rintro ⟨l, h, rfl⟩
      obtain ⟨p, rfl, rfl⟩ := List.map_eq_singleton_iff.mp h
      rfl

/-- A line has at most one translation: the one that the assembler makes. -/
theorem translates_unique {ws : List Bytes} {j : Instruction} (hi : Translates ws i)
    (hj : Translates ws j) : i = j := by
  obtain ⟨m, params, rfl⟩ : ∃ (m : Mnemonic) (params : List Bytes), ws = m.name :: params := by
    cases hi with
    | simple hop => exact ⟨_, _, congrArg (· :: _) (mem_simpleWords.mp hop).symm⟩
    | arith hop => exact ⟨_, _, congrArg (· :: _) (mem_arithWords.mp hop).symm⟩
    | jumpBy => exact ⟨.jumpBy, _, rfl⟩
    | move => exact ⟨.move, _, rfl⟩
    | jump hcond => exact ⟨_, _, congrArg (· :: _) (mem_jumpWords.mp hcond).symm⟩
  have htokens : params = (params.map (Token.mk · 0)).map Token.text := by simp [Function.comp_def]
  rw [htokens, ← instruction_eq_ok_iff ⟨m.name, 0⟩] at hi hj
  exact Except.ok.inj (hi.symm.trans hj)

end Assembler

/-! ## Line by line -/

namespace Labels

/-- A new label is added to the others. -/
theorem mem_insert {name : Bytes} {index : Int} {labels : Labels} (h : labels.find? name = none)
    (e : Bytes × Int) : e ∈ labels.insert name index ↔ e = (name, index) ∨ e ∈ labels := by
  induction labels with
  | nil => simp [insert]
  | cons x rest ih =>
    obtain ⟨n, i⟩ := x
    obtain ⟨hne, hrest⟩ : name ≠ n ∧ find? name rest = none := by
      simpa [find?, List.lookup_eq_none_iff] using h
    rw [insert, if_neg hne]
    split
    · rw [List.mem_cons]
    · rw [List.mem_cons, ih hrest, List.mem_cons, or_left_comm]

end Labels

namespace Assembler

open NodeCube.Language

namespace Draft

variable {d d' : Draft} {line : Nat}

/-- A line adds the translation of its words, if it has any. -/
theorem addWords_translates {ws : List Token} (h : d.addWords line ws = .ok d') :
    d'.labels = d.labels ∧
      ((ws.map Token.text = [] ∧ d'.instructions = d.instructions ∧ d'.lines = d.lines) ∨
        ∃ i, Translates (ws.map Token.text) i ∧ d'.instructions = d.instructions ++ [i] ∧
          d'.lines = d.lines ++ [line]) := by
  obtain ⟨rfl, rfl⟩ | ⟨word, params, m, i, rfl, hm, hi, rfl⟩ := addWords_cases h
  · exact ⟨rfl, .inl ⟨rfl, rfl, rfl⟩⟩
  · have ht := (instruction_eq_ok_iff word).mp hi
    rw [Mnemonic.ofName?_eq_some_iff.mp hm] at ht
    exact ⟨rfl, .inr ⟨i, ht, rfl, rfl⟩⟩

/-- What holds of a draft after the given lines of a source. -/
structure Laid (d : Draft) (texts : List Bytes) : Prop where
  lines : d.lines = (commands texts).map Prod.snd
  instructions : List.Forall₂ (fun c i => Translates (words (body c.1)) i) (commands texts)
    d.instructions
  labels : ∀ name index, (name, index) ∈ d.labels ↔ Labelled texts name index
  find : ∀ name index, d.labels.find? name = some index ↔ (name, index) ∈ d.labels

theorem Laid.empty : Laid {} [] where
  lines := rfl
  instructions := .nil
  labels := by simp [Labelled]
  find := by simp

variable {texts : List Bytes} {text : Bytes}

theorem Laid.length_eq (hd : d.Laid texts) : (commands texts).length = d.instructions.length :=
  hd.instructions.length_eq

/-- The labels after the label of the next line was entered; all else is as it was. -/
theorem Laid.addLabel {l : Option Token} (hd : d.Laid texts) (hl : l.map Token.text = label? text)
    (h : d.addLabel l = .ok d') :
    (∀ name index, (name, index) ∈ d'.labels ↔ Labelled (texts ++ [text]) name index) ∧
      (∀ name index, d'.labels.find? name = some index ↔ (name, index) ∈ d'.labels) ∧
      d'.instructions = d.instructions ∧ d'.lines = d.lines := by
  simp only [labelled_concat, ← hd.labels, ← hl]
  obtain ⟨rfl, rfl⟩ | ⟨t, rfl, hnew, rfl⟩ := addLabel_cases h
  · exact ⟨by simp, hd.find, rfl, rfl⟩
  · have hmem := @Labels.mem_insert _ d.instructions.length _ hnew
    refine ⟨fun name index => ?_, fun name index => ?_, rfl, rfl⟩
    · rw [hmem, hd.length_eq, Option.map_some, Option.some.injEq, Prod.mk.injEq, or_comm,
        eq_comm (a := name)]
    · rw [hmem, Prod.mk.injEq]
      by_cases e : name = t.text
      · have hno : (t.text, index) ∉ d.labels := by rw [← hd.find, hnew]; simp
        rw [e, Labels.find?_insert_self]
        simp [hno, eq_comm]
      · rw [Labels.find?_insert_of_ne _ _ e, hd.find]
        simp [e]

/-- Each line keeps the draft laid. -/
theorem Laid.addLine (hd : d.Laid texts) (h : d.addLine texts.length text = .ok d') :
    d'.Laid (texts ++ [text]) := by
  obtain ⟨column, hl, hw, -⟩ := SourceLine.parse_parts text
  obtain ⟨d₁, h₁, h⟩ := addLine_parts h
  obtain ⟨hlabels, hfind, hi₁, hn₁⟩ := hd.addLabel hl h₁
  have hwords : (SourceLine.parse text).words.map Token.text = words (body text) := by
    rw [hw, SourceLine.text_tokens]
  obtain ⟨hsame, hcommand⟩ := addWords_translates h
  rw [← hsame] at hlabels hfind
  rw [hi₁, hn₁, hwords] at hcommand
  obtain ⟨hnone, hi, hn⟩ | ⟨i, ht, hi, hn⟩ := hcommand
  · have hc : hasCommand text = false := by simp [hasCommand, hnone]
    have hcommands : commands (texts ++ [text]) = commands texts := by
      rw [commands_concat, hc, if_neg Bool.false_ne_true]
    refine ⟨?_, ?_, hlabels, hfind⟩
    · rw [hn, hcommands, hd.lines]
    · rw [hi, hcommands]
      exact hd.instructions
  · have hc : hasCommand text = true := ht.hasCommand
    have hcommands :
        commands (texts ++ [text]) = commands texts ++ [(text, texts.length)] := by
      rw [commands_concat, hc, if_pos rfl]
    refine ⟨?_, ?_, hlabels, hfind⟩
    · rw [hn, hcommands, hd.lines, List.map_append]
      rfl
    · rw [hi, hcommands]
      exact List.rel_append hd.instructions (.cons ht .nil)

theorem Laid.addLines {rest : List Bytes} (hd : d.Laid texts)
    (h : d.addLines texts.length rest = .ok d') : d'.Laid (texts ++ rest) := by
  induction rest generalizing d texts with
  | nil =>
    cases h
    rwa [List.append_nil]
  | cons text rest ih =>
    unfold Draft.addLines at h
    split at h
    · cases h
    · rename_i h₁
      have hlen : (texts ++ [text]).length = texts.length + 1 := by simp
      rw [← hlen] at h
      have hall := ih (hd.addLine h₁) h
      rwa [List.append_assoc] at hall

/-- The instruction of a command is its translation. -/
theorem Laid.getElem?_eq_some_iff {i : Nat} {c : Bytes × Nat} {j : Instruction}
    (hd : d.Laid texts) (hc : (commands texts)[i]? = some c) :
    d.instructions[i]? = some j ↔ Translates (words (body c.1)) j := by
  obtain ⟨hi, rfl⟩ := List.getElem?_eq_some_iff.mp hc
  have hi' : i < d.instructions.length := hd.length_eq ▸ hi
  have ht := hd.instructions.get hi hi'
  rw [List.getElem?_eq_getElem hi', Option.some.injEq]
  exact ⟨fun e => e ▸ ht, translates_unique ht⟩

/-- Each instruction is the translation of the command on its line. -/
theorem Laid.translation {p : Program} (hd : d.Laid texts)
    (hp : p.lines = (commands texts).map Prod.snd) {i : Nat} {j : Instruction} :
    d.instructions[i]? = some j ↔ ∃ k text, p.lineOf? i = some k ∧ texts[k]? = some text ∧
      Translates (words (body text)) j := by
  have hi := @Program.lineOf?_eq_some_iff p texts hp i
  constructor
  · intro hj
    have hlt : i < (commands texts).length := hd.length_eq ▸ (List.getElem?_eq_some_iff.mp hj).1
    have hc := List.getElem?_eq_getElem hlt
    obtain ⟨hl, -⟩ := mem_commands.mp (List.mem_of_getElem? hc)
    exact ⟨_, _, hi.mpr ⟨i, rfl, _, hc⟩, hl, (hd.getElem?_eq_some_iff hc).mp hj⟩
  · rintro ⟨k, text, hk, hl, ht⟩
    obtain ⟨n, hn, text', hc⟩ := hi.mp hk
    obtain rfl : i = n := Int.ofNat_inj.mp hn
    cases hl.symm.trans (mem_commands.mp (List.mem_of_getElem? hc)).1
    exact (hd.getElem?_eq_some_iff hc).mpr ht

end Draft

/-! ## Whole sources -/

theorem laid_of_assemble {source : Bytes} {program : Program} (h : assemble source = .ok program) :
    (sourceLines source).length ≤ maxLines ∧ ∃ d : Draft, d.Laid (sourceLines source) ∧
      program.instructions = d.instructions ∧ program.lines = d.lines ∧
      program.labels = d.labels := by
  obtain ⟨hlen, d, hd, -, rfl⟩ := assemble_parts h
  exact ⟨hlen, d, Draft.Laid.empty.addLines hd, rfl, rfl, rfl⟩

/-- The instructions, lines and labels of a program are those of its source. -/
theorem assemble_maps {source : Bytes} {program : Program} (h : assemble source = .ok program) :
    Maps (sourceLines source) program := by
  obtain ⟨hlen, d, hd, hinstr, hlines, hlabels⟩ := laid_of_assemble h
  rw [hd.lines] at hlines
  have hcount : program.instructions.length = (commands (sourceLines source)).length := by
    rw [hinstr, hd.length_eq]
  constructor
  case length_le =>
    rw [hcount, length_commands]
    exact Nat.le_trans List.countP_le_length hlen
  case lineOf_isSome =>
    intro i
    rw [hcount]
    exact Program.lineOf?_isSome_iff hlines
  case increasing => exact fun i j k l => Program.lineOf?_increasing hlines
  case lineOf_eq => exact fun k => Program.exists_lineOf?_iff hlines
  case translation =>
    intro i j
    rw [hinstr]
    exact hd.translation hlines
  case label => exact hlabels ▸ hd.labels
  case label_find => exact hlabels ▸ hd.find
  case first =>
    intro k l line hk hl hc
    obtain ⟨i, hi⟩ := (Program.exists_lineOf?_iff hlines).mpr ⟨line, hl, hc⟩
    refine ⟨Program.lineOf?_commandsBefore hlines hi hk, fun j l' hj hk' => ?_⟩
    exact (Program.commandsBefore_le_iff hlines hj).mpr hk'
  case last =>
    intro k hk
    rw [commandsBefore_of_last hk, hcount]

/-- A source with a comment, a blank line and labels with and without a command. -/
def forward : Bytes :=
  ascii "# forward jump\nstart:\n  JEZ END\n  ADD 1 # count\n\nEND: JMP START\nTAIL:\n"

theorem assemble_maps_forward : ∃ program, assemble forward = .ok program ∧
    program.labels.find? (ascii "START") = some 0 ∧ program.labels.find? (ascii "END") = some 2 ∧
    program.labels.find? (ascii "TAIL") = some 3 ∧
    (∃ i, program.lineOf? i = some 5) ∧ ¬∃ i, program.lineOf? i = some 4 := by
  obtain ⟨program, h⟩ : ∃ program, assemble forward = .ok program := by
    have hok : (assemble forward).isOk = true := by decide +kernel
    cases h : assemble forward with
    | error e => rw [h] at hok; cases hok
    | ok program => exact ⟨program, rfl⟩
  have hlines : sourceLines forward = [ascii "# FORWARD JUMP", ascii "START:", ascii "  JEZ END",
      ascii "  ADD 1 # COUNT", [], ascii "END: JMP START", ascii "TAIL:"] := by
    decide +kernel
  have hmaps := assemble_maps h
  rw [hlines] at hmaps
  refine ⟨program, h, ?_⟩
  simp only [hmaps.label_find, hmaps.label, hmaps.lineOf_eq]
  refine ⟨⟨1, ascii "START:", ?_⟩, ⟨5, ascii "END: JMP START", ?_⟩,
    ⟨6, ascii "TAIL:", ?_⟩, ⟨ascii "END: JMP START", ?_⟩, ?_⟩
  · decide +kernel
  · decide +kernel
  · decide +kernel
  · decide +kernel
  · rintro ⟨line, hline, hc⟩
    cases hline
    cases hc

end Assembler

end NodeCube
