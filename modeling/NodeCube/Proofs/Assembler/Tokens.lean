import Mathlib.Data.List.Forall2
import NodeCube.Proofs.Assembler.Language

/-!
# The parts of a line

What `SourceLine.parse` finds in a line, said by columns of the line. The words are the maximal runs
of bytes that separate nothing (`Language.Run`). Two runs that share a column are the same run
(`Run.eq_of_overlap`), so a list of runs that reaches every byte of a word has all of them
(`Cover.mem_iff`); the tokens are such a list (`cover_tokens`). The stray comma is the first one
with no word since the comma before it (`Language.Stray`), and the label is the text before the
colon without the white space around it (`SourceLine.parse_found`). In a line of fewer than 2^31
bytes, the fields tell all of this (`SourceLine.fields_parsed`).
-/

namespace NodeCube

/-- The text of the token stands in the line at the token's column. -/
def Token.On (line : Bytes) (t : Token) : Prop :=
  t.column ≤ line.length ∧ t.text <+: line.drop t.column

/-- The field has the text and the column of the token. -/
def Field.Shows (w : Field) (t : Token) : Prop := w.text = t.text ∧ w.column.toInt = t.column

/-- The command and the parameters are the given words. -/
def Fields.HasWords (p : Fields) : List Token → Prop
  | [] => p.hasCommand = false ∧ p.parameters = []
  | t :: rest =>
    p.hasCommand = true ∧ p.command.Shows t ∧ List.Forall₂ Field.Shows p.parameters rest

namespace Language

open SourceLine

/-- The column behind the first colon, or the first column if there is no colon. -/
def wordsFrom (code : Bytes) : Nat :=
  if code.contains ':'.toUInt8 then code.idxOf ':'.toUInt8 + 1 else 0

/-- A maximal run of bytes that are neither commas nor white space, from a column on. -/
structure Run (code : Bytes) (start : Nat) (t : Token) : Prop where
  on : t.On code
  start_le : start ≤ t.column
  ne_nil : t.text ≠ []
  plain : ∀ b ∈ t.text, isSeparator b = false
  left : ∀ b, start < t.column → code[t.column - 1]? = some b → isSeparator b = true
  right : ∀ b, code[t.stop]? = some b → isSeparator b = true

/-- A comma with no byte of a word between it and the comma before it, or between it and the column
`start` if there is no comma before it. -/
structure Stray (code : Bytes) (start c : Nat) : Prop where
  start_le : start ≤ c
  comma : code[c]? = some ','.toUInt8
  idle : ∀ i b, start ≤ i → i < c → code[i]? = some b → isSeparator b = false →
    ∃ j, i < j ∧ j < c ∧ code[j]? = some ','.toUInt8

/-- The least number with a property, or none if no number has it. -/
def IsFirst (P : Nat → Prop) : Option Nat → Prop
  | none => ∀ c, ¬P c
  | some c => P c ∧ ∀ d, P d → c ≤ d

/-- The token is all of a text but the white space around it. -/
def Trimmed (s : Bytes) (t : Token) : Prop :=
  ∃ l r, s = l ++ t.text ++ r ∧ l.length = t.column ∧ (∀ b ∈ l ++ r, Text.isBlank b = true) ∧
    (∀ b ∈ t.text.head?, Text.isBlank b = false) ∧ ∀ b ∈ t.text.getLast?, Text.isBlank b = false

/-- What is found in a line is what stands there. -/
structure Found (line : Bytes) (p : SourceLine) : Prop where
  words : ∀ t, t ∈ p.words ↔
    Run (Text.beforeComment line) (wordsFrom (Text.beforeComment line)) t
  ordered : p.words.Pairwise fun t u => t.stop < u.column
  words_on : ∀ t ∈ p.words, t.On line
  stray : IsFirst (Stray (Text.beforeComment line) (wordsFrom (Text.beforeComment line))) p.stray
  label : p.label.isSome = true ↔ ':'.toUInt8 ∈ Text.beforeComment line
  label_text : ∀ t, p.label = some t →
    Trimmed ((Text.beforeComment line).takeWhile (· != ':'.toUInt8)) t
  label_on : ∀ t, p.label = some t → t.On line

/-- The fields tell what stands in a line: the words, in order; the stray comma; and the label. -/
structure Parsed (line : Bytes) (p : Fields) : Prop where
  words : ∃ ws, p.HasWords ws ∧
    (∀ t, t ∈ ws ↔ Run (Text.beforeComment line) (wordsFrom (Text.beforeComment line)) t) ∧
    ws.Pairwise (fun t u => t.stop < u.column) ∧ ∀ t ∈ ws, t.On line
  malformed : ∃ c,
    IsFirst (Stray (Text.beforeComment line) (wordsFrom (Text.beforeComment line))) c ∧
      p.malformedColumn.toInt = (c.map Int.ofNat).getD (-1)
  label : p.hasLabel = true ↔ ':'.toUInt8 ∈ Text.beforeComment line
  label_text : p.hasLabel = true → ∃ t, Field.Shows ⟨p.label, p.labelColumn⟩ t ∧
    Trimmed ((Text.beforeComment line).takeWhile (· != ':'.toUInt8)) t ∧ t.On line

end Language

/-! ## Columns -/

namespace Token.On

variable {s : Bytes} {t : Token}

theorem getElem? (h : t.On s) {i : Nat} (hi : i < t.text.length) :
    s[t.column + i]? = t.text[i]? := by
  obtain ⟨-, r, hr⟩ := h
  rw [← List.getElem?_drop, ← hr, List.getElem?_append_left hi]

theorem append (h : t.On s) (r : Bytes) : t.On (s ++ r) := by
  obtain ⟨hle, hpre⟩ := h
  refine ⟨?_, ?_⟩
  · rw [List.length_append]
    omega
  · rw [List.drop_append_of_le_length hle]
    exact hpre.trans (List.prefix_append _ _)

end Token.On

namespace Text

theorem getElem?_of_drop {s r : Bytes} {b : UInt8} {i : Nat} (h : s.drop i = b :: r) :
    s[i]? = some b ∧ s.drop (i + 1) = r := by
  have hget : (s.drop i)[0]? = some b := by rw [h]; rfl
  rw [List.getElem?_drop] at hget
  refine ⟨hget, ?_⟩
  rw [← List.tail_drop, h]
  rfl

theorem drop_of_getElem? {s : Bytes} {b : UInt8} {i : Nat} (h : s[i]? = some b) :
    i < s.length ∧ s.drop i = b :: s.drop (i + 1) := by
  obtain ⟨hlt, hget⟩ := List.getElem?_eq_some_iff.mp h
  exact ⟨hlt, by rw [List.drop_eq_getElem_cons hlt, hget]⟩

end Text

/-! ## Runs -/

namespace Language

open SourceLine

variable {s : Bytes} {start : Nat} {t u : Token}

namespace Run

theorem byte (h : Run s start t) {i : Nat} (h₁ : t.column ≤ i) (h₂ : i < t.stop) :
    ∃ b, s[i]? = some b ∧ isSeparator b = false := by
  have hi : i - t.column < t.text.length := by
    unfold Token.stop at h₂
    omega
  have hget := h.on.getElem? hi
  rw [Nat.add_sub_cancel' h₁, List.getElem?_eq_getElem hi] at hget
  exact ⟨_, hget, h.plain _ (List.getElem_mem hi)⟩

theorem column_lt_stop (h : Run s start t) : t.column < t.stop := by
  have := List.length_pos_iff.mpr h.ne_nil
  unfold Token.stop
  omega

/-- A run that reaches into another one starts there or later. -/
theorem column_le (h : Run s start t) (h' : Run s start u) (hlt : u.column < t.stop) :
    u.column ≤ t.column := by
  refine Nat.le_of_not_lt fun hcon => ?_
  have hstart := h.start_le
  obtain ⟨b, hb, hplain⟩ := h.byte (i := u.column - 1) (by omega) (by omega)
  have hsep := h'.left b (by omega) hb
  rw [hplain] at hsep
  cases hsep

theorem stop_le (h : Run s start t) (h' : Run s start u) (hlt : t.column < u.stop) :
    t.stop ≤ u.stop := by
  refine Nat.le_of_not_lt fun hcon => ?_
  obtain ⟨b, hb, hplain⟩ := h.byte (i := u.stop) (by omega) (by omega)
  have hsep := h'.right b hb
  rw [hplain] at hsep
  cases hsep

/-- Two runs that share a column are the same. -/
theorem eq_of_overlap (h : Run s start t) (h' : Run s start u) (hlt : t.column < u.stop)
    (hlt' : u.column < t.stop) : t = u := by
  have hcolumn : t.column = u.column :=
    Nat.le_antisymm (h'.column_le h hlt) (h.column_le h' hlt')
  have hstop : t.stop = u.stop := Nat.le_antisymm (h.stop_le h' hlt) (h'.stop_le h hlt')
  have hlength : t.text.length = u.text.length := by
    unfold Token.stop at hstop
    omega
  have hu := h'.on.2
  rw [← hcolumn] at hu
  have htext : t.text = u.text :=
    (List.prefix_of_prefix_length_le h.on.2 hu (by omega)).eq_of_length hlength
  cases t
  cases u
  cases hcolumn
  cases htext
  rfl

end Run

/-- Runs in order that reach every byte of a word from a column on. -/
structure Cover (s : Bytes) (start : Nat) (l : List Token) : Prop where
  runs : ∀ t ∈ l, Run s start t
  ordered : l.Pairwise fun t u => t.stop < u.column
  reaches : ∀ i b, start ≤ i → s[i]? = some b → isSeparator b = false →
    ∃ t ∈ l, t.column ≤ i ∧ i < t.stop

namespace Cover

variable {l : List Token} {b : UInt8}

/-- All runs are there. -/
theorem mem_iff (h : Cover s start l) (t : Token) : t ∈ l ↔ Run s start t := by
  refine ⟨h.runs t, fun ht => ?_⟩
  obtain ⟨b, hb, hplain⟩ := ht.byte (Nat.le_refl _) ht.column_lt_stop
  obtain ⟨u, hu, hle, hlt⟩ := h.reaches t.column b ht.start_le hb hplain
  have hstop := ht.column_lt_stop
  rw [ht.eq_of_overlap (h.runs u hu) hlt (by omega)]
  exact hu

theorem nil (h : s.length ≤ start) : Cover s start [] where
  runs t ht := absurd ht List.not_mem_nil
  ordered := .nil
  reaches i b hi hb _ := by
    rw [List.getElem?_eq_none (by omega)] at hb
    cases hb

/-- A separator is in no run. -/
theorem skip (hb : s[start]? = some b) (hsep : isSeparator b = true)
    (h : Cover s (start + 1) l) : Cover s start l where
  runs t ht := by
    obtain ⟨on, start_le, ne_nil, plain, left, right⟩ := h.runs t ht
    refine ⟨on, by omega, ne_nil, plain, fun c _ hc => ?_, right⟩
    rcases Nat.eq_or_lt_of_le start_le with e | hlt
    · rw [← e, Nat.add_sub_cancel, hb] at hc
      cases hc
      exact hsep
    · exact left c hlt hc
  ordered := h.ordered
  reaches i c hi hc hplain := by
    rcases Nat.eq_or_lt_of_le hi with rfl | hlt
    · rw [hb] at hc
      cases hc
      rw [hsep] at hplain
      cases hplain
    · exact h.reaches i c hlt hc hplain

/-- Where a word begins, the first run does. -/
theorem head_of_word (h : Cover s start l) (hb : s[start]? = some b)
    (hplain : isSeparator b = false) : ∃ text rest, l = ⟨text, start⟩ :: rest := by
  obtain ⟨t, ht, hle, -⟩ := h.reaches start b (Nat.le_refl _) hb hplain
  have hcolumn : t.column = start := Nat.le_antisymm hle (h.runs t ht).start_le
  cases l with
  | nil => exact absurd ht List.not_mem_nil
  | cons u rest =>
    rcases List.mem_cons.mp ht with rfl | hrest
    · exact ⟨t.text, rest, by rw [← hcolumn]⟩
    · have hlt := List.rel_of_pairwise_cons h.ordered hrest
      have hu := h.runs u List.mem_cons_self
      have := hu.start_le
      have := hu.column_lt_stop
      omega

/-- A byte of a word in front of the first run, which begins in the next column, joins it. -/
theorem extend {text : Bytes} {rest : List Token} (hb : s[start]? = some b)
    (hplain : isSeparator b = false) (h : Cover s (start + 1) (⟨text, start + 1⟩ :: rest)) :
    Cover s start (⟨b :: text, start⟩ :: rest) := by
  have hhead := h.runs _ List.mem_cons_self
  obtain ⟨hfirst, hrest⟩ := List.pairwise_cons.mp h.ordered
  obtain ⟨hlt, hdrop⟩ := Text.drop_of_getElem? hb
  have hstop : (⟨b :: text, start⟩ : Token).stop = (⟨text, start + 1⟩ : Token).stop := by
    simp only [Token.stop, List.length_cons]
    omega
  refine ⟨fun t ht => ?_, List.pairwise_cons.mpr ⟨fun u hu => ?_, hrest⟩, fun i c hi hc hp => ?_⟩
  · rcases List.mem_cons.mp ht with rfl | ht
    · refine ⟨⟨by show start ≤ s.length; omega, ?_⟩, Nat.le_refl _, by simp, ?_, ?_, ?_⟩
      · show b :: text <+: s.drop start
        rw [hdrop]
        exact (List.prefix_cons_inj b).mpr hhead.on.2
      · intro c hc
        rcases List.mem_cons.mp hc with rfl | hc
        · exact hplain
        · exact hhead.plain c hc
      · intro c hlt
        exact absurd hlt (Nat.lt_irrefl _)
      · rw [hstop]
        exact hhead.right
    · obtain ⟨on, start_le, ne_nil, plain, left, right⟩ := h.runs t (List.mem_cons_of_mem _ ht)
      have hbehind := hfirst t ht
      have := hhead.column_lt_stop
      refine ⟨on, by omega, ne_nil, plain, fun c _ hc => left c ?_ hc, right⟩
      show start + 1 < t.column
      have : start + 1 < (⟨text, start + 1⟩ : Token).stop := hhead.column_lt_stop
      omega
  · rw [hstop]
    exact hfirst u hu
  · rcases Nat.eq_or_lt_of_le hi with rfl | hlt
    · refine ⟨_, List.mem_cons_self, Nat.le_refl _, ?_⟩
      simp only [Token.stop, List.length_cons]
      omega
    · obtain ⟨t, ht, hle, hlt⟩ := h.reaches i c hlt hc hp
      rcases List.mem_cons.mp ht with rfl | ht
      · exact ⟨_, List.mem_cons_self, hi, by rw [hstop]; exact hlt⟩
      · exact ⟨t, List.mem_cons_of_mem _ ht, hle, hlt⟩

/-- Where no word begins, no run does. -/
theorem lt_column (h : Cover s start l) (hs : ∀ c, s[start]? = some c → isSeparator c = true) :
    ∀ t ∈ l, start < t.column := by
  intro t ht
  have hrun := h.runs t ht
  refine Nat.lt_of_le_of_ne hrun.start_le fun e => ?_
  obtain ⟨c, hc, hword⟩ := hrun.byte (Nat.le_refl _) hrun.column_lt_stop
  rw [← e] at hc
  rw [hs c hc] at hword
  cases hword

/-- A byte of a word that no other one follows is a run. -/
theorem single (hb : s[start]? = some b) (hplain : isSeparator b = false)
    (hnext : ∀ c, s[start + 1]? = some c → isSeparator c = true) (h : Cover s (start + 1) l) :
    Cover s start (⟨[b], start⟩ :: l) := by
  obtain ⟨hlt, hdrop⟩ := Text.drop_of_getElem? hb
  have hbehind := h.lt_column hnext
  refine ⟨fun t ht => ?_, List.pairwise_cons.mpr ⟨hbehind, h.ordered⟩, fun i c hi hc hp => ?_⟩
  · rcases List.mem_cons.mp ht with rfl | ht
    · refine ⟨⟨by show start ≤ s.length; omega, ?_⟩, Nat.le_refl _, by simp, by simpa using hplain,
        fun c hlt => absurd hlt (Nat.lt_irrefl _), hnext⟩
      show [b] <+: s.drop start
      rw [hdrop]
      exact (List.prefix_cons_inj b).mpr List.nil_prefix
    · obtain ⟨on, start_le, ne_nil, plain, left, right⟩ := h.runs t ht
      exact ⟨on, by omega, ne_nil, plain, fun c _ hc => left c (hbehind t ht) hc, right⟩
  · rcases Nat.eq_or_lt_of_le hi with rfl | hlt
    · exact ⟨_, List.mem_cons_self, Nat.le_refl _, Nat.lt_succ_self _⟩
    · obtain ⟨t, ht, hcover⟩ := h.reaches i c hlt hc hp
      exact ⟨t, List.mem_cons_of_mem _ ht, hcover⟩

theorem glue (hb : s[start]? = some b) (hplain : isSeparator b = false)
    (h : Cover s (start + 1) l) : Cover s start (glue b start l) := by
  have hnext : (∀ c, s[start + 1]? = some c → isSeparator c = true) ∨
      ∃ c, s[start + 1]? = some c ∧ isSeparator c = false := by
    cases s[start + 1]? with
    | none => exact .inl fun c hc => by cases hc
    | some c =>
      cases hc : isSeparator c with
      | true => exact .inl fun d hd => by cases hd; exact hc
      | false => exact .inr ⟨c, rfl, hc⟩
  rcases hnext with hnext | ⟨c, hc, hword⟩
  · have hglue : SourceLine.glue b start l = ⟨[b], start⟩ :: l := by
      cases l with
      | nil => rfl
      | cons t rest => exact if_neg (Nat.ne_of_gt (h.lt_column hnext t List.mem_cons_self))
    rw [hglue]
    exact h.single hb hplain hnext
  · obtain ⟨text, rest, rfl⟩ := h.head_of_word hc hword
    rw [show SourceLine.glue b start (⟨text, start + 1⟩ :: rest) = ⟨b :: text, start⟩ :: rest from
      if_pos rfl]
    exact h.extend hb hplain

end Cover

/-- The tokens from a column on are the runs from there on. -/
theorem cover_tokens (s : Bytes) (start : Nat) : Cover s start (tokens start (s.drop start)) := by
  generalize hr : s.drop start = r
  induction r generalizing start with
  | nil => exact .nil (List.drop_eq_nil_iff.mp hr)
  | cons b r ih =>
    obtain ⟨hb, hrest⟩ := Text.getElem?_of_drop hr
    unfold tokens
    cases hsep : isSeparator b with
    | true => exact (ih (start + 1) hrest).skip hb hsep
    | false => exact (ih (start + 1) hrest).glue hb hsep

/-! ## Commas -/

theorem IsFirst.congr {P Q : Nat → Prop} {c : Option Nat} (h : IsFirst P c) (hpq : ∀ n, P n ↔ Q n) :
    IsFirst Q c := by
  obtain rfl : P = Q := funext fun n => propext (hpq n)
  exact h

namespace Stray

variable {c : Nat}

theorem later (h : Stray s start c) (hlt : start < c) : Stray s (start + 1) c :=
  ⟨hlt, h.comma, fun i b hi => h.idle i b (Nat.le_of_succ_le hi)⟩

theorem earlier (h : Stray s (start + 1) c) (hfirst : ∀ b, s[start]? = some b →
      isSeparator b = false → ∃ j, start < j ∧ j < c ∧ s[j]? = some ','.toUInt8) :
    Stray s start c := by
  refine ⟨Nat.le_of_succ_le h.start_le, h.comma, fun i b hi hlt hb hplain => ?_⟩
  rcases Nat.eq_or_lt_of_le hi with rfl | hi
  · exact hfirst b hb hplain
  · exact h.idle i b hi hlt hb hplain

end Stray

/-- As `Stray`, where a word may stand before the column already: then the first comma from there on
is in its place. -/
def StrayAfter (s : Bytes) (start : Nat) (fed : Bool) (c : Nat) : Prop :=
  Stray s start c ∧ (fed = true → ∃ j, start ≤ j ∧ j < c ∧ s[j]? = some ','.toUInt8)

theorem strayAfter_comma {c : Nat} (hb : s[start]? = some ','.toUInt8) :
    StrayAfter s start true c ↔ StrayAfter s (start + 1) false c := by
  constructor
  · rintro ⟨h, hfed⟩
    obtain ⟨j, hj, hlt, -⟩ := hfed rfl
    exact ⟨h.later (Nat.lt_of_le_of_lt hj hlt), fun e => by cases e⟩
  · rintro ⟨h, -⟩
    refine ⟨h.earlier fun b hb' hplain => ?_, fun _ => ⟨start, Nat.le_refl _, h.start_le, hb⟩⟩
    rw [hb] at hb'
    cases hb'
    exact absurd hplain (by decide)

theorem strayAfter_other {b : UInt8} {fed : Bool} {c : Nat} (hb : s[start]? = some b)
    (hne : b ≠ ','.toUInt8) :
    StrayAfter s start fed c ↔ StrayAfter s (start + 1) (fed || !Text.isBlank b) c := by
  have hplain : isSeparator b = Text.isBlank b := by simp [isSeparator, hne]
  -- a comma stands in another column
  have hlater : ∀ j, start ≤ j → s[j]? = some ','.toUInt8 → start < j := by
    intro j hle hj
    refine Nat.lt_of_le_of_ne hle fun e => hne ?_
    rw [← e, hb] at hj
    exact Option.some.inj hj
  constructor
  · rintro ⟨h, hfed⟩
    have hlt := hlater c h.start_le h.comma
    refine ⟨h.later hlt, fun hor => ?_⟩
    cases fed with
    | true =>
      obtain ⟨j, hj, hlt, hcomma⟩ := hfed rfl
      exact ⟨j, hlater j hj hcomma, hlt, hcomma⟩
    | false => exact h.idle start b (Nat.le_refl _) hlt hb (by simpa [hplain] using hor)
  · rintro ⟨h, hfed⟩
    refine ⟨h.earlier fun b' hb' hword => ?_, fun e => ?_⟩
    · rw [hb] at hb'
      cases hb'
      exact hfed (by simp [← hplain, hword])
    · obtain ⟨j, hj, hrest⟩ := hfed (by simp [e])
      exact ⟨j, Nat.le_of_succ_le hj, hrest⟩

theorem isFirst_strayCommas (s : Bytes) (start : Nat) (fed : Bool) :
    IsFirst (StrayAfter s start fed) (strayCommas start fed (s.drop start)).head? := by
  generalize hr : s.drop start = r
  induction r generalizing start fed with
  | nil =>
    rintro c ⟨h, -⟩
    have hle := List.drop_eq_nil_iff.mp hr
    have hcomma := h.comma
    rw [List.getElem?_eq_none (Nat.le_trans hle h.start_le)] at hcomma
    cases hcomma
  | cons b r ih =>
    obtain ⟨hb, hrest⟩ := Text.getElem?_of_drop hr
    unfold strayCommas
    by_cases hcomma : b = ','.toUInt8
    · subst hcomma
      rw [if_pos rfl]
      cases fed with
      | true => exact (ih (start + 1) false hrest).congr fun c => (strayAfter_comma hb).symm
      | false =>
        refine ⟨⟨⟨Nat.le_refl _, hb, fun i c hi hlt => ?_⟩, fun e => by cases e⟩, fun d hd => ?_⟩
        · omega
        · exact hd.1.start_le
    · rw [if_neg hcomma]
      exact (ih (start + 1) _ hrest).congr fun c => (strayAfter_other hb hcomma).symm

end Language

/-! ## Labels -/

namespace Text

variable {s : Bytes} {b : UInt8}

theorem exists_trimLeft (s : Bytes) : ∃ l, s = l ++ trimLeft s ∧ ∀ b ∈ l, isBlank b = true :=
  ⟨s.takeWhile isBlank, List.takeWhile_append_dropWhile.symm,
    List.all_eq_true.mp List.all_takeWhile⟩

theorem exists_trimRight (s : Bytes) : ∃ r, s = trimRight s ++ r ∧ ∀ b ∈ r, isBlank b = true := by
  obtain ⟨l, hs, hl⟩ := exists_trimLeft s.reverse
  refine ⟨l.reverse, ?_, fun b hb => hl b (List.mem_reverse.mp hb)⟩
  calc s = s.reverse.reverse := s.reverse_reverse.symm
    _ = (l ++ trimLeft s.reverse).reverse := congrArg List.reverse hs
    _ = trimRight s ++ l.reverse := List.reverse_append

theorem isBlank_head_trimLeft (h : b ∈ (trimLeft s).head?) : isBlank b = false := by
  have hnot := List.head?_dropWhile_not isBlank s
  rw [show (s.dropWhile isBlank).head? = some b from h] at hnot
  exact hnot

theorem isBlank_getLast_trimRight (h : b ∈ (trimRight s).getLast?) : isBlank b = false := by
  rw [trimRight, List.getLast?_reverse] at h
  exact isBlank_head_trimLeft h

/-- What trimming takes off a text. -/
theorem exists_trim (s : Bytes) : ∃ l r, s = l ++ trim s ++ r ∧ (∀ b ∈ l, isBlank b = true) ∧
    (∀ b ∈ r, isBlank b = true) ∧ ∀ b ∈ (trim s).getLast?, isBlank b = false := by
  obtain ⟨r, hs, hr⟩ := exists_trimRight s
  obtain ⟨l, ht, hl⟩ := exists_trimLeft (trimRight s)
  refine ⟨l, r, ?_, hl, hr, fun b hb => ?_⟩
  · rw [trim, ← ht, ← hs]
  · refine isBlank_getLast_trimRight (s := s) ?_
    rw [ht, List.getLast?_append, show (trimLeft (trimRight s)).getLast? = some b from hb]
    rfl

end Text

namespace Language

/-- The column of a label is the number of blanks before it. -/
theorem trimmed_labelOf (before : Bytes) : Trimmed before (SourceLine.labelOf before) := by
  obtain ⟨l, r, hs, hl, hr, hlast⟩ := Text.exists_trim before
  have hhead : ∀ b ∈ (Text.trim before).head?, Text.isBlank b = false :=
    fun b hb => Text.isBlank_head_trimLeft hb
  -- a text of blanks has its label at the end
  cases htext : Text.trim before with
  | nil =>
    have hblank : ∀ b ∈ before, Text.isBlank b = true := by
      rw [hs, htext, List.append_nil]
      exact fun b hb => (List.mem_append.mp hb).elim (hl b) (hr b)
    have hleft : Text.trimLeft before = [] := by
      rw [Text.trimLeft, ← List.append_nil before, List.dropWhile_append_of_pos hblank]
      rfl
    refine ⟨before, [], ?_, ?_, by simpa using hblank, hhead, hlast⟩
    · simp [SourceLine.labelOf, htext]
    · simp [SourceLine.labelOf, hleft]
  | cons b text =>
    have hb : Text.isBlank b = false := hhead b (by rw [htext]; rfl)
    have hleft : Text.trimLeft before = Text.trim before ++ r := by
      calc Text.trimLeft before = Text.trimLeft (l ++ (Text.trim before ++ r)) := by
            rw [← List.append_assoc, ← hs]
        _ = Text.trimLeft (Text.trim before ++ r) := List.dropWhile_append_of_pos hl
        _ = Text.trim before ++ r := by simp [Text.trimLeft, htext, hb]
    refine ⟨l, r, hs, ?_, fun b hb => (List.mem_append.mp hb).elim (hl b) (hr b), hhead, hlast⟩
    have hlength := congrArg List.length hs
    simp only [List.length_append] at hlength
    simp only [SourceLine.labelOf, hleft, List.length_append]
    omega

theorem Trimmed.on {s : Bytes} {t : Token} (h : Trimmed s t) : t.On s := by
  obtain ⟨l, r, rfl, hl, -⟩ := h
  refine ⟨?_, ?_⟩
  · rw [← hl, List.append_assoc, List.length_append]
    omega
  · rw [← hl, List.append_assoc, List.drop_left]
    exact List.prefix_append _ _

end Language

/-! ## Whole lines -/

namespace SourceLine

open NodeCube.Language

/-- The words of a line begin behind its colon. -/
theorem ofCode_parts (code : Bytes) :
    (ofCode code).words = tokens (wordsFrom code) (code.drop (wordsFrom code)) ∧
      (ofCode code).strays = strayCommas (wordsFrom code) false (code.drop (wordsFrom code)) := by
  unfold ofCode
  cases h : Text.cut ':'.toUInt8 code with
  | none =>
    have hstart : wordsFrom code = 0 := by
      rw [wordsFrom, if_neg (by simpa using Text.cut_eq_none_iff.mp h)]
    rw [hstart]
    exact ⟨rfl, rfl⟩
  | some x =>
    obtain ⟨before, after⟩ := x
    obtain ⟨hcode, hnot⟩ := Text.eq_append_of_cut h
    have hstart : wordsFrom code = before.length + 1 := by
      rw [wordsFrom, hcode, if_pos (by simp), List.idxOf_append, if_neg hnot, List.idxOf_cons_self,
        Nat.zero_add]
    rw [hstart]
    exact ⟨rfl, rfl⟩

/-- The label of a line, if it has a colon. -/
theorem ofCode_label (code : Bytes) :
    ((ofCode code).label.isSome = true ↔ ':'.toUInt8 ∈ code) ∧
      ∀ t, (ofCode code).label = some t →
        Trimmed (code.takeWhile (· != ':'.toUInt8)) t ∧ t.On code := by
  unfold ofCode
  cases h : Text.cut ':'.toUInt8 code with
  | none =>
    have hnot := Text.cut_eq_none_iff.mp h
    refine ⟨by simpa [ofWords] using hnot, ?_⟩
    rintro t ⟨⟩
  | some x =>
    obtain ⟨before, after⟩ := x
    obtain ⟨hbefore, -, hmem⟩ := Text.takeWhile_of_cut h
    refine ⟨⟨fun _ => hmem, fun _ => rfl⟩, ?_⟩
    rintro t ⟨⟩
    have htrimmed := trimmed_labelOf before
    rw [hbefore, (Text.eq_append_of_cut h).1]
    exact ⟨htrimmed, htrimmed.on.append _⟩

theorem parse_found (line : Bytes) : Found line (parse line) := by
  obtain ⟨hlabel, hwords, hstray⟩ := parse_eq line
  obtain ⟨hw, hs⟩ := ofCode_parts (Text.beforeComment line)
  obtain ⟨hcolon, htext⟩ := ofCode_label (Text.beforeComment line)
  rw [← hlabel] at hcolon htext
  have hcover := cover_tokens (Text.beforeComment line) (wordsFrom (Text.beforeComment line))
  rw [← hw, ← hwords] at hcover
  have hfirst := isFirst_strayCommas (Text.beforeComment line)
    (wordsFrom (Text.beforeComment line)) false
  rw [← hs, ← hstray] at hfirst
  -- what stands in the text before the comment stands in the line
  have hline : ∀ t : Token, t.On (Text.beforeComment line) → t.On line := by
    intro t ht
    obtain ⟨rest, hrest⟩ : Text.beforeComment line <+: line := List.takeWhile_prefix _
    exact hrest ▸ ht.append rest
  exact
    { words := hcover.mem_iff
      ordered := hcover.ordered
      words_on := fun t ht => hline t (hcover.runs t ht).on
      stray := hfirst.congr fun c => by simp [StrayAfter]
      label := hcolon
      label_text := fun t ht => (htext t ht).1
      label_on := fun t ht => hline t (htext t ht).2 }

/-! ## Fields -/

section Fields

variable {line : Bytes} {s : SourceLine} (h : Found line s) (hl : line.length < 2147483648)

theorem ofNat_nonneg {n : Nat} (h : n < 2147483648) : 0 ≤ Int32.ofNat n := by
  rw [Int32.le_iff_toInt_le, Int32.toInt_ofNat_of_lt h]
  exact Int.natCast_nonneg n

include hl

/-- A word that stands in the line is shown by its field. -/
theorem field_shows {t : Token} (ht : t.On line) : t.field.Shows t :=
  ⟨rfl, Int32.toInt_ofNat_of_lt (Nat.lt_of_le_of_lt ht.1 hl)⟩

include h

theorem hasWords_fields : s.fields.HasWords s.words := by
  have hshows : ∀ t ∈ s.words, t.field.Shows t := fun t ht => field_shows hl (h.words_on t ht)
  have hruns : ∀ t ∈ s.words, t.text ≠ [] := fun t ht => ((h.words t).mp ht).ne_nil
  unfold fields
  cases hw : s.words with
  | nil => exact ⟨rfl, rfl⟩
  | cons t rest =>
    rw [hw] at hshows hruns
    refine ⟨?_, hshows t List.mem_cons_self, ?_⟩
    · simpa [Fields.hasCommand, Token.field] using hruns t List.mem_cons_self
    · exact List.forall₂_map_left_iff.mpr
        (List.forall₂_same.mpr fun u hu => hshows u (List.mem_cons_of_mem t hu))

theorem malformedColumn_fields :
    s.fields.malformedColumn.toInt = (s.stray.map Int.ofNat).getD (-1) := by
  -- the first column is not negative, so the others are not looked at
  have hkept : ∀ (m : Int32) (cs : List Nat), 0 ≤ m →
      cs.foldl (fun m c => if m < 0 then Int32.ofNat c else m) m = m := by
    intro m cs hm
    induction cs with
    | nil => rfl
    | cons c cs ih => rw [List.foldl_cons, if_neg (Int32.not_lt.mpr hm), ih]
  have hfirst := h.stray
  unfold stray at hfirst ⊢
  unfold fields
  cases hs : s.strays with
  | nil => rfl
  | cons c rest =>
    rw [hs] at hfirst
    have hlt : c < 2147483648 := by
      have hcode : c < (Text.beforeComment line).length :=
        (List.getElem?_eq_some_iff.mp hfirst.1.comma).1
      have hle := (List.takeWhile_sublist (· != '#'.toUInt8) (l := line)).length_le
      unfold Text.beforeComment at hcode
      omega
    dsimp only
    rw [List.foldl_cons, if_pos (by decide), hkept _ _ (ofNat_nonneg hlt),
      Int32.toInt_ofNat_of_lt hlt]
    rfl

theorem hasLabel_fields : s.fields.hasLabel = s.label.isSome := by
  unfold Fields.hasLabel fields
  cases hs : s.label with
  | none => rfl
  | some t =>
    exact decide_eq_true (ofNat_nonneg (Nat.lt_of_le_of_lt (h.label_on t hs).1 hl))

end Fields

/-- A line of fewer than 2^31 bytes is read as it stands: its command and parameters are the maximal
runs of bytes that are neither commas nor white space, from the first colon to the comment, in order
and each at its column; the stray comma is the first one with no word since the comma before it; and
there is a label just if there is a colon before the comment: the text before it without the white
space around it, at its column. -/
theorem fields_parsed (line : Bytes) (hl : line.length < 2147483648) :
    Parsed line (parse line).fields := by
  have h := parse_found line
  have hlabel := hasLabel_fields h hl
  refine ⟨⟨_, hasWords_fields h hl, h.words, h.ordered, h.words_on⟩,
    ⟨_, h.stray, malformedColumn_fields h hl⟩, ?_, fun hs => ?_⟩
  · rw [hlabel]
    exact h.label
  · rw [hlabel] at hs
    obtain ⟨t, ht⟩ := Option.isSome_iff_exists.mp hs
    refine ⟨t, ?_, h.label_text t ht, h.label_on t ht⟩
    unfold fields
    rw [ht]
    exact field_shows hl (h.label_on t ht)

/-- A line with all of its parts. -/
def crowded : Bytes := ascii "  A : MOV ,1,,ACC # B"

theorem fields_parsed_crowded : crowded.length < 2147483648 ∧ Parsed crowded
    { label := ascii "A", labelColumn := 2, command := ⟨ascii "MOV", 6⟩,
      parameters := [⟨ascii "1", 11⟩, ⟨ascii "ACC", 14⟩], comment := ascii "B",
      malformedColumn := 13 } := by
  have hl : crowded.length < 2147483648 := by decide
  have hfields : (parse crowded).fields =
      { label := ascii "A", labelColumn := 2, command := ⟨ascii "MOV", 6⟩,
        parameters := [⟨ascii "1", 11⟩, ⟨ascii "ACC", 14⟩], comment := ascii "B",
        malformedColumn := 13 } := by
    decide +kernel
  exact ⟨hl, hfields ▸ fields_parsed crowded hl⟩

/-- A label behind some blanks. -/
def indented (n : Nat) : Bytes := List.replicate n 32 ++ ascii "A:"

theorem takeWhile_indented {b : UInt8} (hb : b ≠ 32) (n : Nat) :
    (indented n).takeWhile (· != b) = List.replicate n 32 ++ (ascii "A:").takeWhile (· != b) :=
  List.takeWhile_append_of_pos fun x hx => by
    rw [List.eq_of_mem_replicate hx]
    exact bne_iff_ne.mpr (Ne.symm hb)

theorem parse_indented (n : Nat) : (parse (indented n)).label = some ⟨ascii "A", n⟩ := by
  have hcode : Text.beforeComment (indented n) = indented n := takeWhile_indented (by decide) n
  rw [(parse_eq _).1, hcode, ofCode]
  cases hcut : Text.cut ':'.toUInt8 (indented n) with
  | none => exact absurd (List.mem_append_right _ (by decide)) (Text.cut_eq_none_iff.mp hcut)
  | some x =>
    obtain ⟨before, after⟩ := x
    have hbefore : before = List.replicate n 32 ++ ascii "A" :=
      (Text.takeWhile_of_cut hcut).1.symm.trans (takeWhile_indented (by decide) n)
    have htrim : Text.trimLeft before = ascii "A" := by
      rw [hbefore]
      exact List.dropWhile_append_of_pos fun x hx => by rw [List.eq_of_mem_replicate hx]; rfl
    have hright : Text.trimRight before = before := by
      -- the last byte is no blank
      have hkept : (ascii "A" ++ before.reverse.tail).dropWhile Text.isBlank =
          ascii "A" ++ before.reverse.tail := rfl
      have hreverse : before.reverse = ascii "A" ++ before.reverse.tail := by
        rw [hbefore, List.reverse_append]
        rfl
      rw [Text.trimRight, hreverse, hkept, ← hreverse, List.reverse_reverse]
    have hcolumn : before.length - (ascii "A").length = n := by
      rw [hbefore, List.length_append, List.length_replicate, Nat.add_sub_cancel]
    show some (labelOf before) = _
    rw [labelOf, Text.trim, hright, htrim, hcolumn]

/-- The column of a label behind 2^31 blanks is negative, so that the line seems to have no label. -/
theorem fields_not_parsed : ':'.toUInt8 ∈ Text.beforeComment (indented 2147483648) ∧
    (parse (indented 2147483648)).fields.labelColumn.toInt = -2147483648 ∧
    (parse (indented 2147483648)).fields.hasLabel = false := by
  have hlabel := parse_indented 2147483648
  have hcolumn : (parse (indented 2147483648)).fields.labelColumn = Int32.ofNat 2147483648 := by
    rw [fields, hlabel]
    rfl
  refine ⟨(parse_found _).label.mp (by rw [hlabel]; rfl), ?_, ?_⟩
  · rw [hcolumn]
    decide
  · rw [Fields.hasLabel, hcolumn]
    decide

end SourceLine

end NodeCube
