import NodeCube.Proofs.Assembler.Soundness

/-!
# The language of the assembler

Which sources the assembler accepts, said without it. A line is cut at its first number sign and
its first colon; what stands before the colon is its label, and what is left is a row of words
between commas and white space. `Language.Statement` lists the rows that a line may have, given the
labels of the whole source, and `Language.Source` says what else is asked of lines and labels.

`Assembler.assemble_ok_iff` shows that these are exactly the sources that are assembled. The
assembler reads a line from left to right and keeps its jumps until the end, so the two sides meet
in what a draft knows after some lines (`Assembler.Draft.Knows`).
-/

namespace NodeCube

/-! ## The grammar -/

namespace Language

/-- The label of a line: what stands before the first colon, without the white space around it. -/
def label? (line : Bytes) : Option Bytes :=
  let code := Text.beforeComment line
  if ':'.toUInt8 ∈ code then some (Text.trim (code.takeWhile (· != ':'.toUInt8))) else none

/-- What stands behind the first colon of a line, or all of it if there is none. -/
def body (line : Bytes) : Bytes :=
  let code := Text.beforeComment line
  if ':'.toUInt8 ∈ code then (code.dropWhile (· != ':'.toUInt8)).tail else code

/-- The maximal runs of bytes that are neither commas nor white space. -/
def words (s : Bytes) : List Bytes :=
  (s.splitOnP SourceLine.isSeparator).filter fun w => !w.isEmpty

/-- The text has a byte of a word, and no comma from there on. -/
def EndsInWord (s : Bytes) : Prop :=
  ∃ l b r, s = l ++ b :: r ∧ Text.isBlank b = false ∧ ','.toUInt8 ∉ b :: r

/-- Before each comma there is a word, with no other comma between them. -/
def CommasFollowWords (s : Bytes) : Prop :=
  ∀ before after, s = before ++ ','.toUInt8 :: after → EndsInWord before

/-- What an operand can name: all targets but `BAK`. -/
def targetNames : List Bytes :=
  ["ACC", "NIL", "LEFT", "RIGHT", "UP", "DOWN", "ANY", "LAST"].map ascii

/-- The mnemonics without an operand. -/
def plainNames : List Bytes := ["NEG", "NOT", "SAV", "SWP", "NOP"].map ascii

/-- The mnemonics that take a word or a target, `MOV` aside. -/
def operandNames : List Bytes :=
  ["ADD", "SUB", "AND", "OR", "XOR", "SHL", "SHR", "JRO"].map ascii

/-- The mnemonics that take a label. -/
def jumpNames : List Bytes := ["JMP", "JEZ", "JNZ", "JGZ", "JLZ"].map ascii

/-- Up to its first NUL byte the word is the name of a target. -/
def IsTarget (w : Bytes) : Prop := Text.untilNul w ∈ targetNames

/-- A word that begins like a number is a number, and any other one is a target. -/
def IsOperand (w : Bytes) : Prop :=
  if Word.looksLiteral w then (Word.ofLiteral? w).isSome = true else IsTarget w

/-- The words that a line may have, when jumps can go to the given labels. -/
inductive Statement (labels : Bytes → Prop) : List Bytes → Prop
  | blank : Statement labels []
  | plain {m : Bytes} (hm : m ∈ plainNames) : Statement labels [m]
  | operand {m x : Bytes} (hm : m ∈ operandNames) (hx : IsOperand x) : Statement labels [m, x]
  | move {x y : Bytes} (hx : IsOperand x) (hy : IsTarget y) :
    Statement labels [ascii "MOV", x, y]
  | jump {m l : Bytes} (hm : m ∈ jumpNames) (hl : labels l) : Statement labels [m, l]

/-- What is asked of a single line. -/
structure Line (labels : Bytes → Prop) (line : Bytes) : Prop where
  length_le : line.length ≤ 18
  label : ∀ l, label? line = some l → l ≠ [] ∧ ∀ b ∈ l, Text.isBlank b = false
  commas : CommasFollowWords (body line)
  statement : Statement labels (words (body line))

/-- What is asked of the lines of a source. -/
structure Source (lines : List Bytes) : Prop where
  length_le : lines.length ≤ 20
  distinct : (lines.filterMap label?).Nodup
  each : ∀ line ∈ lines, Line (· ∈ lines.filterMap label?) line

end Language

/-! ## Cutting a line -/

namespace Text

theorem takeWhile_of_cut {b : UInt8} {s l r : Bytes} (h : cut b s = some (l, r)) :
    s.takeWhile (· != b) = l ∧ (s.dropWhile (· != b)).tail = r ∧ b ∈ s := by
  obtain ⟨rfl, hn⟩ := eq_append_of_cut h
  have hl : ∀ x ∈ l, (x != b) = true := fun x hx => by
    simpa using fun e : x = b => hn (e ▸ hx)
  rw [List.takeWhile_append_of_pos hl, List.dropWhile_append_of_pos hl]
  simp

theorem takeWhile_of_cut_none {b : UInt8} {s : Bytes} (h : cut b s = none) :
    s.takeWhile (· != b) = s ∧ b ∉ s := by
  have hn := cut_eq_none_iff.mp h
  have hs : ∀ x ∈ s, (x != b) = true := fun x hx => by
    simpa using fun e : x = b => hn (e ▸ hx)
  have ht : (s ++ []).takeWhile (· != b) = s ++ _ := List.takeWhile_append_of_pos hs
  exact ⟨by simpa using ht, hn⟩

end Text

namespace SourceLine

/-- The parts of a line that count, read from the text without its comment. -/
theorem parse_eq (line : Bytes) :
    (parse line).label = (ofCode (Text.beforeComment line)).label ∧
      (parse line).words = (ofCode (Text.beforeComment line)).words ∧
      (parse line).strays = (ofCode (Text.beforeComment line)).strays := by
  unfold parse Text.beforeComment
  cases h : Text.cut '#'.toUInt8 line with
  | none => simp only [(Text.takeWhile_of_cut_none h).1, and_self]
  | some x => simp only [(Text.takeWhile_of_cut h).1, and_self]

/-- What the assembler sees of a line: its label, and its words from some column on. -/
theorem parse_parts (line : Bytes) : ∃ column,
    (parse line).label.map Token.text = Language.label? line ∧
      (parse line).words = tokens column (Language.body line) ∧
      (parse line).strays = strayCommas column false (Language.body line) := by
  obtain ⟨hl, hw, hs⟩ := parse_eq line
  rw [hl, hw, hs]
  unfold ofCode Language.label? Language.body
  cases h : Text.cut ':'.toUInt8 (Text.beforeComment line) with
  | none =>
    have hn := (Text.takeWhile_of_cut_none h).2
    exact ⟨0, by simp [ofWords, hn]⟩
  | some x =>
    obtain ⟨before, after⟩ := x
    obtain ⟨hb, ha, hm⟩ := Text.takeWhile_of_cut h
    have hdrop : (Text.beforeComment line).drop (before.length + 1) = after := by
      rw [(Text.eq_append_of_cut h).1]
      simp
    refine ⟨before.length + 1, ?_⟩
    simp only [ofWords, labelOf, hm, if_true, hb, ha, hdrop, Option.map_some, and_self]

/-! ## Words and commas -/

/-- Whether the text begins with a byte of a word. -/
def opensWord (s : Bytes) : Bool := s.head?.any fun b => !isSeparator b

/-- The first token is at the start of the text just when a word begins there. -/
theorem column_of_tokens (column : Nat) (s : Bytes) :
    (tokens column s).head?.any (fun t => t.column == column) = opensWord s ∧
      ∀ t ∈ (tokens column s).head?, column ≤ t.column := by
  induction s generalizing column with
  | nil => simp [tokens, opensWord]
  | cons b s ih =>
    unfold tokens
    cases hb : isSeparator b with
    | true =>
      obtain ⟨-, hle⟩ := ih (column + 1)
      simp only [if_true, opensWord, List.head?_cons, Option.any_some, hb, Bool.not_true]
      cases ht : (tokens (column + 1) s).head? with
      | none => simp
      | some t =>
        have hlt := hle t ht
        have hne : t.column ≠ column := by omega
        exact ⟨by simpa using hne, by rintro t ⟨rfl⟩; omega⟩
    | false =>
      have hg : ∀ l : List Token, ∃ text rest, glue b column l = ⟨text, column⟩ :: rest := by
        intro l
        unfold glue
        split
        · exact ⟨_, _, rfl⟩
        · split <;> exact ⟨_, _, rfl⟩
      obtain ⟨text, rest, hg⟩ := hg (tokens (column + 1) s)
      simp [hg, opensWord, hb]

theorem words_cons_of_separator {b : UInt8} {s : Bytes} (h : isSeparator b = true) :
    Language.words (b :: s) = Language.words s := by
  simp [Language.words, List.splitOnP_cons_eq_if_modifyHead, h]

/-- A byte of a word extends the word that begins behind it, or is one itself. -/
theorem words_cons {b : UInt8} {s : Bytes} (h : isSeparator b = false) :
    Language.words (b :: s) =
      if opensWord s then (Language.words s).modifyHead (b :: ·) else [b] :: Language.words s := by
  cases s with
  | nil => simp [Language.words, List.splitOnP_cons_eq_if_modifyHead, h, opensWord]
  | cons x s =>
    by_cases hx : isSeparator x = true
    · simp [Language.words, List.splitOnP_cons_eq_if_modifyHead, h, hx, opensWord]
    · obtain ⟨w, ws, hw⟩ := List.exists_cons_of_ne_nil (List.splitOnP_ne_nil isSeparator s)
      simp [Language.words, List.splitOnP_cons_eq_if_modifyHead, h, hx, hw, opensWord]

/-- The tokens of a text are its words. -/
theorem text_tokens (column : Nat) (s : Bytes) :
    (tokens column s).map Token.text = Language.words s := by
  induction s generalizing column with
  | nil => rfl
  | cons b s ih =>
    unfold tokens
    cases hb : isSeparator b with
    | true => rw [if_pos rfl, ih, words_cons_of_separator hb]
    | false =>
      have hc := (column_of_tokens (column + 1) s).1
      rw [if_neg Bool.false_ne_true, words_cons hb, ← ih (column + 1), ← hc]
      cases tokens (column + 1) s with
      | nil => rfl
      | cons t rest =>
        simp only [glue, List.head?_cons, Option.any_some, beq_iff_eq]
        split <;> rfl

/-- What holds before each occurrence of a byte, byte by byte. -/
theorem forall_before_cons {P : Bytes → Prop} {x b : UInt8} {s : Bytes} :
    (∀ before after, x :: s = before ++ b :: after → P before) ↔
      (x = b → P []) ∧ ∀ before after, s = before ++ b :: after → P (x :: before) := by
  constructor
  · intro h
    exact ⟨fun e => h [] s (by rw [e]; rfl), fun l r e => h (x :: l) r (by rw [e]; rfl)⟩
  · rintro ⟨h₀, h⟩ l r e
    cases l with
    | nil => exact h₀ (List.cons.inj e).1
    | cons y l =>
      obtain ⟨rfl, hs⟩ := List.cons.inj e
      exact h l r hs

theorem not_endsInWord_nil : ¬Language.EndsInWord [] := by
  rintro ⟨l, b, r, e, -⟩
  cases l <;> cases e

theorem endsInWord_cons {x : UInt8} {s : Bytes} : Language.EndsInWord (x :: s) ↔
    Language.EndsInWord s ∨ Text.isBlank x = false ∧ ','.toUInt8 ∉ x :: s := by
  constructor
  · rintro ⟨l, b, r, e, hb⟩
    cases l with
    | nil =>
      obtain ⟨rfl, rfl⟩ := List.cons.inj e
      exact .inr hb
    | cons y l => exact .inl ⟨l, b, r, (List.cons.inj e).2, hb⟩
  · rintro (⟨l, b, r, rfl, hb⟩ | hb)
    · exact ⟨x :: l, b, r, rfl, hb⟩
    · exact ⟨[], x, s, rfl, hb⟩

/-- There is no stray comma if each comma follows a word. The first one may follow a word that
stands before the text. -/
theorem strayCommas_eq_nil_iff {column : Nat} {fed : Bool} {s : Bytes} :
    strayCommas column fed s = [] ↔ ∀ before after, s = before ++ ','.toUInt8 :: after →
      Language.EndsInWord before ∨ fed = true ∧ ','.toUInt8 ∉ before := by
  induction s generalizing column fed with
  | nil => simp [strayCommas]
  | cons x s ih =>
    rw [forall_before_cons, strayCommas]
    simp only [endsInWord_cons]
    by_cases hx : x = ','.toUInt8
    · subst hx
      cases fed with
      | false => simp [not_endsInWord_nil]
      | true => simp [ih]
    · rw [if_neg hx, ih]
      have hmem : ∀ l : Bytes, ','.toUInt8 ∉ x :: l ↔ ','.toUInt8 ∉ l := fun l => by
        simp [Ne.symm hx]
      simp only [hx, false_implies, true_and, hmem, Bool.or_eq_true, Bool.not_eq_true']
      refine forall_congr' fun before => forall_congr' fun after => imp_congr_right fun _ => ?_
      rw [or_and_right, or_assoc]
      exact or_congr_right or_comm

theorem strayCommas_eq_nil (column : Nat) {s : Bytes} :
    strayCommas column false s = [] ↔ Language.CommasFollowWords s := by
  rw [strayCommas_eq_nil_iff]
  simp [Language.CommasFollowWords]

end SourceLine

/-! ## Mnemonics -/

/-- The operation of a mnemonic; the mode counts only if it takes an operand. -/
def Mnemonic.operation (mode : Mode) : Mnemonic → Operation
  | .simple op => .simple op
  | .arith op => .arith op mode
  | .move => .move mode
  | .jump cond => .jump cond
  | .jumpBy => .jumpBy mode

namespace Mnemonic

/-- The word that a mnemonic is printed with. -/
def name (m : Mnemonic) : Bytes := (m.operation .target).name

def all : List Mnemonic := table.map Prod.snd

theorem mem_all (m : Mnemonic) : m ∈ all := by
  rcases m with op | op | _ | cond | _
  case simple => cases op <;> decide
  case arith => cases op <;> decide
  case jump => cases cond <;> decide
  all_goals decide

theorem name_operation (m : Mnemonic) (mode : Mode) : (m.operation mode).name = m.name := by
  rcases m with op | op | _ | cond | _
  case arith => cases op <;> rfl
  all_goals rfl

/-- A word that is read as a mnemonic is the one that the mnemonic is printed with, and the other
way round: the assembler and the texts of instructions agree on the words. -/
theorem ofName?_eq_some_iff {w : Bytes} {m : Mnemonic} : ofName? w = some m ↔ m.name = w := by
  constructor
  · intro h
    have hall : ∀ e ∈ table, e.2.name = e.1 := by decide
    obtain ⟨before, after, htable, -⟩ := List.lookup_eq_some_iff.mp h
    exact hall (w, m) (by rw [htable]; simp)
  · rintro rfl
    have hall : ∀ m ∈ all, ofName? m.name = some m := by decide
    exact hall m (mem_all m)

theorem name_injective {m m' : Mnemonic} (h : m.name = m'.name) : m = m' :=
  Option.some.inj ((ofName?_eq_some_iff.mpr h).symm.trans (ofName?_eq_some_iff.mpr rfl))

end Mnemonic

/-! ## Statements -/

namespace Language

variable {labels : Bytes → Prop} {m : Mnemonic} {params : List Bytes}

/-- The labels that a line jumps to. -/
def jumpLabels : List Bytes → List Bytes
  | [] => []
  | m :: l => if m ∈ jumpNames then l else []

theorem name_mem_plain : m.name ∈ plainNames ↔ ∃ op, m = .simple op := by
  constructor
  · intro h
    cases m with
    | simple op => exact ⟨op, rfl⟩
    | arith op => cases op <;> exact absurd h (by decide)
    | jump cond => cases cond <;> exact absurd h (by decide)
    | move | jumpBy => exact absurd h (by decide)
  · rintro ⟨op, rfl⟩
    cases op <;> decide

theorem name_mem_operand : m.name ∈ operandNames ↔ (∃ op, m = .arith op) ∨ m = .jumpBy := by
  constructor
  · intro h
    cases m with
    | simple op => cases op <;> exact absurd h (by decide)
    | arith op => exact .inl ⟨op, rfl⟩
    | jump cond => cases cond <;> exact absurd h (by decide)
    | move => exact absurd h (by decide)
    | jumpBy => exact .inr rfl
  · rintro (⟨op, rfl⟩ | rfl)
    · cases op <;> decide
    · decide

theorem name_mem_jump : m.name ∈ jumpNames ↔ ∃ cond, m = .jump cond := by
  constructor
  · intro h
    cases m with
    | simple op => cases op <;> exact absurd h (by decide)
    | arith op => cases op <;> exact absurd h (by decide)
    | jump cond => exact ⟨cond, rfl⟩
    | move | jumpBy => exact absurd h (by decide)
  · rintro ⟨cond, rfl⟩
    cases cond <;> decide

/-- A statement begins with a mnemonic. -/
theorem exists_mnemonic {w : Bytes} (h : Statement labels (w :: params)) :
    ∃ m : Mnemonic, m.name = w := by
  have hplain : ∀ n ∈ plainNames, ∃ m ∈ Mnemonic.all, m.name = n := by decide
  have hoperand : ∀ n ∈ operandNames, ∃ m ∈ Mnemonic.all, m.name = n := by decide
  have hjump : ∀ n ∈ jumpNames, ∃ m ∈ Mnemonic.all, m.name = n := by decide
  cases h with
  | plain hm => exact (hplain w hm).imp fun _ h => h.2
  | operand hm => exact (hoperand w hm).imp fun _ h => h.2
  | move => exact ⟨.move, rfl⟩
  | jump hm => exact (hjump w hm).imp fun _ h => h.2

/-- The statements of a mnemonic. -/
theorem statement_iff : Statement labels (m.name :: params) ↔
    match m with
    | .simple _ => params = []
    | .arith _ | .jumpBy => ∃ x, params = [x] ∧ IsOperand x
    | .move => ∃ x y, params = [x, y] ∧ IsOperand x ∧ IsTarget y
    | .jump _ => ∃ l, params = [l] ∧ labels l := by
  constructor
  · intro h
    generalize hw : m.name :: params = ws at h
    cases h with
    | blank => cases hw
    | plain hm =>
      cases hw
      obtain ⟨op, rfl⟩ := name_mem_plain.mp hm
      rfl
    | operand hm hx =>
      cases hw
      obtain ⟨op, rfl⟩ | rfl := name_mem_operand.mp hm <;> exact ⟨_, rfl, hx⟩
    | move hx hy =>
      obtain ⟨hm, rfl⟩ := List.cons.inj hw
      obtain rfl : m = .move := Mnemonic.name_injective hm
      exact ⟨_, _, rfl, hx, hy⟩
    | jump hm hl =>
      cases hw
      obtain ⟨cond, rfl⟩ := name_mem_jump.mp hm
      exact ⟨_, rfl, hl⟩
  · intro h
    cases m with
    | simple op =>
      obtain rfl := h
      exact .plain (name_mem_plain.mpr ⟨op, rfl⟩)
    | arith op =>
      obtain ⟨x, rfl, hx⟩ := h
      exact .operand (name_mem_operand.mpr (.inl ⟨op, rfl⟩)) hx
    | jumpBy =>
      obtain ⟨x, rfl, hx⟩ := h
      exact .operand (name_mem_operand.mpr (.inr rfl)) hx
    | move =>
      obtain ⟨x, y, rfl, hx, hy⟩ := h
      exact .move hx hy
    | jump cond =>
      obtain ⟨l, rfl, hl⟩ := h
      exact .jump (name_mem_jump.mpr ⟨cond, rfl⟩) hl

/-- A statement can be read before the labels are known, if its jumps are checked later. -/
theorem statement_iff_jumpLabels {ws : List Bytes} : Statement labels ws ↔
    Statement (fun _ => True) ws ∧ ∀ l ∈ jumpLabels ws, labels l := by
  constructor
  · intro h
    cases h with
    | blank => exact ⟨.blank, nofun⟩
    | plain hm => exact ⟨.plain hm, by simp [jumpLabels]⟩
    | operand hm hx =>
      refine ⟨.operand hm hx, fun l hl => ?_⟩
      have hall : ∀ n ∈ operandNames, n ∉ jumpNames := by decide
      rw [jumpLabels, if_neg (hall _ hm)] at hl
      cases hl
    | move hx hy =>
      refine ⟨.move hx hy, fun l h => ?_⟩
      rw [jumpLabels, if_neg (by decide)] at h
      cases h
    | jump hm hl =>
      refine ⟨.jump hm trivial, fun l' h => ?_⟩
      rw [jumpLabels, if_pos hm] at h
      exact List.mem_singleton.mp h ▸ hl
  · rintro ⟨h, hl⟩
    cases h with
    | blank => exact .blank
    | plain hm => exact .plain hm
    | operand hm hx => exact .operand hm hx
    | move hx hy => exact .move hx hy
    | jump hm => exact .jump hm (hl _ (by rw [jumpLabels, if_pos hm]; exact List.mem_cons_self))

theorem line_iff {text : Bytes} : Line labels text ↔
    Line (fun _ => True) text ∧ ∀ l ∈ jumpLabels (words (body text)), labels l := by
  constructor
  · rintro ⟨hlen, hl, hc, hw⟩
    obtain ⟨hw, hj⟩ := statement_iff_jumpLabels.mp hw
    exact ⟨⟨hlen, hl, hc, hw⟩, hj⟩
  · rintro ⟨⟨hlen, hl, hc, hw⟩, hj⟩
    exact ⟨hlen, hl, hc, statement_iff_jumpLabels.mpr ⟨hw, hj⟩⟩

end Language

/-! ## What the assembler makes of a line -/

namespace Assembler

open NodeCube.Language

theorem bind_ok_iff {ε α β : Type} {x : Except ε α} {k : α → Except ε β} :
    (∃ b, x >>= k = .ok b) ↔ ∃ a, x = .ok a ∧ ∃ b, k a = .ok b := by
  constructor
  · rintro ⟨b, h⟩
    obtain ⟨a, ha, hb⟩ := bind_eq_ok h
    exact ⟨a, ha, b, hb⟩
  · rintro ⟨a, rfl, b, hb⟩
    exact ⟨b, hb⟩

theorem target_ok_iff {t : Token} : (∃ x, target t = .ok x) ↔ IsTarget t.text := by
  unfold target IsTarget
  cases h : Target.ofName? t.text with
  | none =>
    have hall : ∀ n ∈ targetNames, ∃ x ∈ Target.all, x.name = n := by decide
    refine ⟨fun ⟨_, e⟩ => (nomatch e), fun hn => ?_⟩
    obtain ⟨x, hx, e⟩ := hall _ hn
    exact absurd (beq_iff_eq.mpr e) (List.find?_eq_none.mp h x hx)
  | some x =>
    have hx : x.name = Text.untilNul t.text := by simpa using List.find?_some h
    rw [← hx]
    cases x with
    | bak => exact ⟨fun ⟨_, e⟩ => (nomatch e), fun hn => absurd hn (by decide)⟩
    | port p => exact ⟨fun _ => by cases p <;> decide, fun _ => ⟨_, rfl⟩⟩
    | acc | nil | any | last => exact ⟨fun _ => by decide, fun _ => ⟨_, rfl⟩⟩

theorem operand_ok_iff {t : Token} : (∃ x, operand t = .ok x) ↔ IsOperand t.text := by
  unfold operand IsOperand
  split
  · cases Word.ofLiteral? t.text with
    | none => exact ⟨fun ⟨_, e⟩ => (nomatch e), nofun⟩
    | some w => exact ⟨fun _ => rfl, fun _ => ⟨_, rfl⟩⟩
  · rw [← target_ok_iff]
    cases target t with
    | error e => exact ⟨fun ⟨_, e⟩ => (nomatch e), fun ⟨_, e⟩ => (nomatch e)⟩
    | ok x => exact ⟨fun _ => ⟨_, rfl⟩, fun _ => ⟨_, rfl⟩⟩

theorem one_ok_iff {word p : Token} {params : List Token} :
    one word params = .ok p ↔ params = [p] :=
  ⟨eq_of_one, fun h => by rw [h]; rfl⟩

theorem two_ok_iff {word p q : Token} {params : List Token} :
    two word params = .ok (p, q) ↔ params = [p, q] := by
  constructor
  · intro h
    unfold two at h
    split at h <;> cases h
    rfl
  · rintro rfl
    rfl

variable {word : Token} {m : Mnemonic} {params : List Token}

/-- An operation that takes one operand. -/
theorem one_operand_ok_iff {f : Operand → Instruction} :
    (∃ i, (do let p ← one word params; let x ← operand p; return f x) = Except.ok i) ↔
      ∃ x, params.map Token.text = [x] ∧ IsOperand x := by
  rw [bind_ok_iff]
  constructor
  · rintro ⟨p, hp, h⟩
    obtain ⟨x, hx, -⟩ := bind_ok_iff.mp h
    exact ⟨p.text, by rw [one_ok_iff.mp hp]; rfl, operand_ok_iff.mp ⟨x, hx⟩⟩
  · rintro ⟨x, h, hx⟩
    obtain ⟨p, rfl, rfl⟩ := List.map_eq_singleton_iff.mp h
    obtain ⟨y, hy⟩ := operand_ok_iff.mpr hx
    exact ⟨p, rfl, bind_ok_iff.mpr ⟨y, hy, _, rfl⟩⟩

/-- A mnemonic with its operands makes an instruction just if this is a statement, labels aside. -/
theorem instruction_ok_iff (word : Token) : (∃ i, instruction m word params = .ok i) ↔
    Statement (fun _ => True) (m.name :: params.map Token.text) := by
  rw [statement_iff]
  cases m with
  | simple op =>
    cases params with
    | nil => exact ⟨fun _ => rfl, fun _ => ⟨_, rfl⟩⟩
    | cons => exact ⟨fun ⟨_, e⟩ => (nomatch e), nofun⟩
  | arith op => exact one_operand_ok_iff
  | jumpBy => exact one_operand_ok_iff
  | move =>
    refine bind_ok_iff.trans ⟨?_, ?_⟩
    · rintro ⟨⟨p, q⟩, hpq, h⟩
      obtain ⟨y, hy, h⟩ := bind_ok_iff.mp h
      obtain ⟨x, hx, -⟩ := bind_ok_iff.mp h
      exact ⟨p.text, q.text, by rw [two_ok_iff.mp hpq]; rfl, operand_ok_iff.mp ⟨x, hx⟩,
        target_ok_iff.mp ⟨y, hy⟩⟩
    · rintro ⟨x, y, h, hx, hy⟩
      obtain ⟨p, rest, rfl, rfl, hr⟩ := List.map_eq_cons_iff.mp h
      obtain ⟨q, rfl, rfl⟩ := List.map_eq_singleton_iff.mp hr
      obtain ⟨x, hx⟩ := operand_ok_iff.mpr hx
      obtain ⟨y, hy⟩ := target_ok_iff.mpr hy
      exact ⟨(p, q), rfl, bind_ok_iff.mpr ⟨y, hy, bind_ok_iff.mpr ⟨x, hx, _, rfl⟩⟩⟩
  | jump cond =>
    refine bind_ok_iff.trans ⟨?_, ?_⟩
    · rintro ⟨p, hp, -⟩
      exact ⟨p.text, by rw [one_ok_iff.mp hp]; rfl, trivial⟩
    · rintro ⟨l, h, -⟩
      obtain ⟨p, rfl, -⟩ := List.map_eq_singleton_iff.mp h
      exact ⟨p, rfl, _, rfl⟩

/-- Only the mnemonics of jumps make instructions that go to a label. -/
theorem isJump_iff {i : Instruction} (h : instruction m word params = .ok i) :
    i.op.isJump = true ↔ m.name ∈ jumpNames := by
  rw [name_mem_jump]
  cases m with
  | simple op =>
    cases params with
    | nil =>
      cases h
      exact ⟨nofun, nofun⟩
    | cons => cases h
  | arith op | jumpBy =>
    obtain ⟨p, -, h⟩ := bind_eq_ok h
    obtain ⟨x, hx, h⟩ := bind_eq_ok h
    cases h
    cases x <;> exact ⟨nofun, nofun⟩
  | move =>
    obtain ⟨_, -, h⟩ := bind_eq_ok h
    obtain ⟨y, -, h⟩ := bind_eq_ok h
    obtain ⟨x, -, h⟩ := bind_eq_ok h
    cases h
    cases x <;> exact ⟨nofun, nofun⟩
  | jump cond =>
    obtain ⟨p, -, h⟩ := bind_eq_ok h
    cases h
    exact ⟨fun _ => ⟨cond, rfl⟩, fun _ => rfl⟩

/-! ## What a draft knows -/

namespace Draft

/-- The draft has exactly these labels, and these jumps wait for theirs. -/
structure Knows (d : Draft) (labels jumps : List Bytes) : Prop where
  labels : ∀ l, (d.labels.find? l).isSome = true ↔ l ∈ labels
  jumps : d.jumps.map (fun r => r.label.text) = jumps

variable {d d' : Draft} {labels jumps : List Bytes} {line : Nat}

theorem Knows.empty : Knows {} [] [] where
  labels l := by rw [Labels.find?_nil]; simp
  jumps := rfl

theorem Knows.addLabel_ok_iff (hd : d.Knows labels jumps) (l : Option Token) :
    (∃ d', d.addLabel l = .ok d') ↔ ∀ x, l.map Token.text = some x →
      (x ≠ [] ∧ ∀ b ∈ x, Text.isBlank b = false) ∧ x ∉ labels := by
  cases l with
  | none => exact ⟨nofun, fun _ => ⟨d, rfl⟩⟩
  | some t =>
    unfold Draft.addLabel
    simp only [Option.map_some, Option.some.injEq, forall_eq', ← hd.labels]
    split
    · rename_i h
      refine ⟨fun ⟨_, e⟩ => (nomatch e), fun hx => ?_⟩
      simp only [Bool.or_eq_true, List.isEmpty_iff, List.any_eq_true] at h
      obtain h | ⟨b, hb, h⟩ := h
      · exact absurd h hx.1.1
      · exact absurd h (by rw [hx.1.2 b hb]; nofun)
    · rename_i h
      simp only [Bool.or_eq_true, List.isEmpty_iff, List.any_eq_true, not_or, not_exists, not_and,
        Bool.not_eq_true] at h
      split
      · rename_i hk
        exact ⟨fun ⟨_, e⟩ => (nomatch e), fun hx => absurd hk hx.2⟩
      · rename_i hk
        exact ⟨fun _ => ⟨h, hk⟩, fun _ => ⟨_, rfl⟩⟩

theorem Knows.addLabel {l : Option Token} (hd : d.Knows labels jumps)
    (h : d.addLabel l = .ok d') : d'.Knows (labels ++ (l.map Token.text).toList) jumps := by
  obtain ⟨rfl, rfl⟩ | ⟨t, rfl, -, rfl⟩ := addLabel_cases h
  · simpa using hd
  · refine ⟨fun x => ?_, hd.jumps⟩
    rw [List.mem_append, ← hd.labels]
    by_cases e : x = t.text
    · simp [e, Labels.find?_insert_self]
    · simp [e, Labels.find?_insert_of_ne _ _ e]

theorem addWords_ok_iff {ws : List Token} :
    (∃ d', d.addWords line ws = .ok d') ↔ Statement (fun _ => True) (ws.map Token.text) := by
  cases ws with
  | nil => exact ⟨fun _ => .blank, fun _ => ⟨d, rfl⟩⟩
  | cons word params =>
    unfold addWords
    simp only [List.map_cons]
    cases hm : Mnemonic.ofName? word.text with
    | none =>
      refine ⟨fun ⟨_, e⟩ => (nomatch e), fun h => ?_⟩
      obtain ⟨m, h⟩ := exists_mnemonic h
      rw [Mnemonic.ofName?_eq_some_iff.mpr h] at hm
      cases hm
    | some m =>
      simp only
      rw [bind_ok_iff, ← Mnemonic.ofName?_eq_some_iff.mp hm, ← instruction_ok_iff word]
      exact ⟨fun ⟨i, hi, _⟩ => ⟨i, hi⟩, fun ⟨i, hi⟩ => ⟨i, hi, _, rfl⟩⟩

theorem Knows.addWords {ws : List Token} (hd : d.Knows labels jumps)
    (h : d.addWords line ws = .ok d') :
    d'.Knows labels (jumps ++ jumpLabels (ws.map Token.text)) := by
  obtain ⟨rfl, rfl⟩ | ⟨word, params, m, i, rfl, hm, hi, rfl⟩ := addWords_cases h
  · simpa [jumpLabels] using hd
  · refine ⟨hd.labels, ?_⟩
    have hj := isJump_iff hi
    rw [Mnemonic.ofName?_eq_some_iff.mp hm] at hj
    simp only [Draft.emit, List.map_cons, jumpLabels, ← hj]
    split
    · rw [List.map_append, hd.jumps, List.map_map]
      rfl
    · rw [hd.jumps, List.append_nil]

theorem Knows.addParsed_ok_iff (hd : d.Knows labels jumps) (line : Nat) (text : Bytes) :
    (∃ d', d.addParsed line (SourceLine.parse text) = .ok d') ↔
      (∀ l, label? text = some l →
        (l ≠ [] ∧ ∀ b ∈ l, Text.isBlank b = false) ∧ l ∉ labels) ∧
      CommasFollowWords (body text) ∧ Statement (fun _ => True) (words (body text)) := by
  obtain ⟨column, hl, hw, hs⟩ := SourceLine.parse_parts text
  rw [← hl, ← hd.addLabel_ok_iff, ← SourceLine.strayCommas_eq_nil column, ← hs,
    ← SourceLine.text_tokens column, ← hw]
  refine bind_ok_iff.trans ⟨?_, ?_⟩
  · rintro ⟨d₁, h₁, h⟩
    cases hs : (SourceLine.parse text).strays with
    | nil =>
      rw [SourceLine.stray, hs] at h
      exact ⟨⟨d₁, h₁⟩, rfl, addWords_ok_iff.mp h⟩
    | cons c rest =>
      rw [SourceLine.stray, hs] at h
      exact nomatch h.choose_spec
  · rintro ⟨⟨d₁, h₁⟩, hs, h⟩
    refine ⟨d₁, h₁, ?_⟩
    rw [SourceLine.stray, hs]
    exact addWords_ok_iff.mpr h

theorem Knows.addLine_ok_iff (hd : d.Knows labels jumps) (line : Nat) (text : Bytes) :
    (∃ d', d.addLine line text = .ok d') ↔
      Line (fun _ => True) text ∧ ∀ l, label? text = some l → l ∉ labels := by
  unfold Draft.addLine
  split
  · rename_i hlen
    exact ⟨fun ⟨_, e⟩ => (nomatch e), fun h => absurd h.1.length_le (Nat.not_le.mpr hlen)⟩
  · rename_i hlen
    have hp := hd.addParsed_ok_iff line text
    constructor
    · rintro ⟨d', h⟩
      split at h
      · cases h
      · rename_i h₁
        obtain ⟨hl, hc, hw⟩ := hp.mp ⟨_, h₁⟩
        exact ⟨⟨Nat.not_lt.mp hlen, fun l e => (hl l e).1, hc, hw⟩, fun l e => (hl l e).2⟩
    · rintro ⟨h, hn⟩
      obtain ⟨d', h'⟩ := hp.mpr ⟨fun l e => ⟨h.label l e, hn l e⟩, h.commas, h.statement⟩
      exact ⟨d', by rw [h']⟩

theorem Knows.addLine {text : Bytes} (hd : d.Knows labels jumps)
    (h : d.addLine line text = .ok d') :
    d'.Knows (labels ++ (label? text).toList) (jumps ++ jumpLabels (words (body text))) := by
  obtain ⟨column, hl, hw, -⟩ := SourceLine.parse_parts text
  obtain ⟨d₁, hlabel, hwords⟩ := addLine_parts h
  rw [← hl, ← SourceLine.text_tokens column, ← hw]
  exact (hd.addLabel hlabel).addWords hwords

theorem Knows.addLines_ok_iff (hd : d.Knows labels jumps) (line : Nat) (texts : List Bytes) :
    (∃ d', d.addLines line texts = .ok d') ↔
      (∀ text ∈ texts, Line (fun _ => True) text) ∧ (texts.filterMap label?).Nodup ∧
        ∀ l ∈ texts.filterMap label?, l ∉ labels := by
  induction texts generalizing d labels jumps line with
  | nil => simp [Draft.addLines]
  | cons text texts ih =>
    have hline := hd.addLine_ok_iff line text
    have hnew : (text :: texts).filterMap label? =
        (label? text).toList ++ texts.filterMap label? := by
      cases h : label? text <;> simp [h]
    rw [hnew, List.forall_mem_cons]
    unfold Draft.addLines
    cases h₁ : d.addLine line text with
    | error e =>
      refine ⟨fun ⟨_, e⟩ => (nomatch e), fun ⟨h, _, hn⟩ => ?_⟩
      obtain ⟨d', h'⟩ := hline.mpr ⟨h.1, fun l e => hn l (by simp [e])⟩
      rw [h'] at h₁
      cases h₁
    | ok d₁ =>
      obtain ⟨h, hl⟩ := hline.mp ⟨d₁, h₁⟩
      refine (ih (hd.addLine h₁) _).trans ?_
      cases hx : label? text with
      | none => simp [h]
      | some x =>
        have hx := hl x hx
        grind

theorem Knows.addLines {texts : List Bytes} (hd : d.Knows labels jumps)
    (h : d.addLines line texts = .ok d') : d'.Knows (labels ++ texts.filterMap label?)
      (jumps ++ texts.flatMap fun text => jumpLabels (words (body text))) := by
  induction texts generalizing d labels jumps line with
  | nil =>
    cases h
    simpa using hd
  | cons text texts ih =>
    unfold Draft.addLines at h
    split at h
    · cases h
    · rename_i h₁
      have := ih (hd.addLine h₁) h
      rw [List.append_assoc, List.append_assoc] at this
      cases hl : label? text with
      | none => simpa [hl] using this
      | some l => simpa [hl] using this

theorem Knows.undefined?_eq_none (hd : d.Knows labels jumps) :
    d.undefined? = none ↔ ∀ l ∈ jumps, l ∈ labels := by
  simp only [undefined?, List.find?_eq_none, ← hd.jumps, ← hd.labels, List.forall_mem_map,
    Bool.not_eq_true, Option.isNone_eq_false_iff]

end Draft

/-! ## Whole sources -/

/-- The sources that are assembled are exactly those of the language. -/
theorem assemble_ok_iff (source : Bytes) :
    (∃ program, assemble source = .ok program) ↔ Language.Source (sourceLines source) := by
  generalize hlines : sourceLines source = lines
  unfold assemble assembleLines
  rw [hlines]
  have hadd := Draft.Knows.empty.addLines_ok_iff 0 lines
  split
  · rename_i hlen
    exact ⟨fun ⟨_, e⟩ => (nomatch e), fun h => absurd h.length_le (Nat.not_le.mpr hlen)⟩
  · rename_i hlen
    cases h : Draft.addLines {} 0 lines with
    | error e =>
      refine ⟨fun ⟨_, e⟩ => (nomatch e), fun hs => ?_⟩
      obtain ⟨d, hd⟩ := hadd.mpr
        ⟨fun text ht => (line_iff.mp (hs.each text ht)).1, hs.distinct, fun _ _ => List.not_mem_nil⟩
      rw [hd] at h
      cases h
    | ok d =>
      obtain ⟨hall, hdistinct, -⟩ := hadd.mp ⟨d, h⟩
      have hknows := (Draft.Knows.empty.addLines h).undefined?_eq_none
      simp only [List.nil_append] at hknows ⊢
      cases hu : d.undefined? with
      | none =>
        refine ⟨fun _ => ⟨Nat.not_lt.mp hlen, hdistinct, fun text ht => ?_⟩, fun _ => ⟨_, rfl⟩⟩
        refine line_iff.mpr ⟨hall text ht, fun l hl => ?_⟩
        exact hknows.mp hu l (List.mem_flatMap.mpr ⟨text, ht, hl⟩)
      | some r =>
        refine ⟨fun ⟨_, e⟩ => (nomatch e), fun hs => ?_⟩
        rw [hknows.mpr fun l hl => ?_] at hu
        · cases hu
        · obtain ⟨text, ht, hl⟩ := List.mem_flatMap.mp hl
          exact (line_iff.mp (hs.each text ht)).2 l hl

end Assembler

end NodeCube
