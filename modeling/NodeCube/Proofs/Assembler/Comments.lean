import NodeCube.Proofs.Assembler.Diagnostics
import NodeCube.Proofs.Assembler.Maps
import NodeCube.Proofs.Text.Lines

/-!
# Comments and blank lines

A comment is cut off before anything else of a line is looked at, so its text has no say in what is
made of a source (`Assembler.assemble_recommented`). A line of white space, with or without a
comment, adds nothing to a draft; behind it all lines have other numbers, which a draft keeps with
its instructions and its jumps (`Assembler.Draft.renumber`). So where such a line is inserted, the
program is the same but for the lines of the instructions from there on
(`Assembler.assemble_inserted`).
-/

namespace NodeCube

namespace Language

/-- Two versions of a line: they are the same, or they differ in what follows the first number sign
and neither is too long. -/
inductive Recommented : Bytes → Bytes → Prop
  | same (line : Bytes) : Recommented line line
  | comment {code old new : Bytes} (hcode : '#'.toUInt8 ∉ code)
      (hold : (code ++ '#'.toUInt8 :: old).length ≤ 18)
      (hnew : (code ++ '#'.toUInt8 :: new).length ≤ 18) :
    Recommented (code ++ '#'.toUInt8 :: old) (code ++ '#'.toUInt8 :: new)

/-- White space, which a comment may follow. -/
def Inert (line : Bytes) : Prop :=
  ∃ blanks, (∀ b ∈ blanks, Text.isBlank b = true) ∧
    (line = blanks ∨ ∃ text, line = blanks ++ '#'.toUInt8 :: text)

/-- The number of a line after another one was inserted at position `k`. -/
def moved (k line : Nat) : Nat := if k ≤ line then line + 1 else line

end Language

/-! ## The text before a comment -/

namespace Text

theorem beforeComment_of_not_mem {code : Bytes} (h : '#'.toUInt8 ∉ code) :
    beforeComment code = code := (takeWhile_of_cut_none (cut_eq_none_iff.mpr h)).1

theorem beforeComment_append {code : Bytes} (h : '#'.toUInt8 ∉ code) (text : Bytes) :
    beforeComment (code ++ '#'.toUInt8 :: text) = code := by
  have hcode : ∀ b ∈ code, (b != '#'.toUInt8) = true := fun b hb => by
    simpa using fun e : b = '#'.toUInt8 => h (e ▸ hb)
  rw [beforeComment, List.takeWhile_append_of_pos hcode]
  simp

theorem upper_comment (code text : Bytes) :
    upper (code ++ '#'.toUInt8 :: text) = upper code ++ '#'.toUInt8 :: upper text :=
  List.map_append

theorem not_mem_upper {c : UInt8} (hc : c.toNat < 65) {s : Bytes} (h : c ∉ s) : c ∉ upper s := by
  intro hmem
  obtain ⟨b, hb, hu⟩ := List.mem_map.mp hmem
  exact h ((upperByte_eq_iff hc).mp hu ▸ hb)

theorem ne_of_isBlank {b c : UInt8} (h : isBlank b = true) (hc : isBlank c = false) : b ≠ c := by
  intro e
  rw [e, hc] at h
  cases h

theorem upperByte_of_isBlank {b : UInt8} (h : isBlank b = true) : upperByte b = b := by
  have hlt : b.toNat < 65 := by
    simp only [isBlank, Bool.or_eq_true, Bool.and_eq_true, beq_iff_eq, decide_eq_true_eq] at h
    rcases h with rfl | ⟨-, h⟩
    · decide
    · have : b.toNat ≤ 13 := UInt8.le_iff_toNat_le.mp h
      omega
  exact (upperByte_eq_iff hlt).mpr rfl

end Text

namespace SourceLine

section Blanks

variable {s : Bytes} (h : ∀ b ∈ s, Text.isBlank b = true)
include h

theorem tokens_of_blanks (column : Nat) : tokens column s = [] := by
  induction s generalizing column with
  | nil => rfl
  | cons b s ih =>
    have hb : isSeparator b = true := by simp [isSeparator, h b List.mem_cons_self]
    rw [tokens, if_pos hb]
    exact ih (fun c hc => h c (List.mem_cons_of_mem _ hc)) (column + 1)

theorem strayCommas_of_blanks (column : Nat) (fed : Bool) : strayCommas column fed s = [] := by
  induction s generalizing column fed with
  | nil => rfl
  | cons b s ih =>
    have hb : b ≠ ','.toUInt8 := Text.ne_of_isBlank (h b List.mem_cons_self) (by decide)
    rw [strayCommas, if_neg hb]
    exact ih (fun c hc => h c (List.mem_cons_of_mem _ hc)) _ _

end Blanks

end SourceLine

namespace Language

theorem Recommented.upper {a b : Bytes} (h : Recommented a b) :
    Recommented (Text.upper a) (Text.upper b) := by
  cases h with
  | same => exact .same _
  | comment hcode hold hnew =>
    rw [← Text.length_upper, Text.upper_comment] at hold hnew
    rw [Text.upper_comment, Text.upper_comment]
    exact .comment (Text.not_mem_upper (by decide) hcode) hold hnew

theorem Recommented.isEmpty_eq {a b : Bytes} (h : Recommented a b) : a.isEmpty = b.isEmpty := by
  cases h with
  | same => rfl
  | @comment code => cases code <;> rfl

theorem Inert.upper {line : Bytes} (h : Inert line) : Inert (Text.upper line) := by
  obtain ⟨blanks, hblanks, hline⟩ := h
  have hupper : Text.upper blanks = blanks :=
    Text.upper_eq_self fun b hb => Text.upperByte_of_isBlank (hblanks b hb)
  refine ⟨blanks, hblanks, ?_⟩
  rcases hline with rfl | ⟨text, rfl⟩
  · exact .inl hupper
  · rw [Text.upper_comment, hupper]
    exact .inr ⟨Text.upper text, rfl⟩

theorem Inert.beforeComment {line : Bytes} (h : Inert line) :
    ∀ b ∈ Text.beforeComment line, Text.isBlank b = true := by
  obtain ⟨blanks, hblanks, hline⟩ := h
  have hsign : '#'.toUInt8 ∉ blanks := fun hmem => absurd (hblanks _ hmem) (by decide)
  rcases hline with rfl | ⟨text, rfl⟩
  · rwa [Text.beforeComment_of_not_mem hsign]
  · rwa [Text.beforeComment_append hsign]

/-- A line of white space has no label, no words and no comma out of place. -/
theorem Inert.parse {line : Bytes} (h : Inert line) : (SourceLine.parse line).label = none ∧
    (SourceLine.parse line).words = [] ∧ (SourceLine.parse line).strays = [] := by
  have hblanks := h.beforeComment
  have hcolon : ':'.toUInt8 ∉ Text.beforeComment line := fun hmem =>
    absurd (hblanks _ hmem) (by decide)
  obtain ⟨column, hlabel, hwords, hstray⟩ := SourceLine.parse_parts line
  have hbody : body line = Text.beforeComment line := if_neg hcolon
  have hnone : label? line = none := if_neg hcolon
  rw [hnone, Option.map_eq_none_iff] at hlabel
  rw [hbody] at hwords hstray
  exact ⟨hlabel, hwords.trans (SourceLine.tokens_of_blanks hblanks column),
    hstray.trans (SourceLine.strayCommas_of_blanks hblanks column false)⟩

end Language

/-! ## Other comments -/

namespace Text

/-- Lines that are empty together are dropped together. -/
theorem forall₂_dropEmptyTail {R : Bytes → Bytes → Prop} (hR : ∀ a b, R a b → a.isEmpty = b.isEmpty)
    {as bs : List Bytes} (h : List.Forall₂ R as bs) :
    List.Forall₂ R (dropEmptyTail as) (dropEmptyTail bs) := by
  have hdrop : ∀ {as bs : List Bytes}, List.Forall₂ R as bs →
      List.Forall₂ R (as.dropWhile List.isEmpty) (bs.dropWhile List.isEmpty) := by
    intro as bs h
    induction h with
    | nil => exact .nil
    | @cons a b as bs hab hrest ih =>
      rw [List.dropWhile_cons, List.dropWhile_cons, ← hR a b hab]
      split
      · exact ih
      · exact .cons hab hrest
  exact List.forall₂_reverse_iff.mpr (hdrop (List.forall₂_reverse_iff.mpr h))

end Text

namespace Assembler

open NodeCube.Language

theorem sourceLines_joined {lines : List Bytes} (h : ∀ line ∈ lines, Text.IsLine line) :
    sourceLines (Text.joined lines) = Text.dropEmptyTail (lines.map Text.upper) := by
  rw [sourceLines, Text.lines_joined h, Text.dropEmptyTail_map_upper]

namespace Draft

variable {d d' : Draft} {line : Nat}

/-- The text of a comment makes no difference to a line. -/
theorem addLine_recommented (d : Draft) (line : Nat) {a b : Bytes} (h : Recommented a b) :
    d.addLine line b = d.addLine line a := by
  cases h with
  | same => rfl
  | @comment code old new hcode hold hnew =>
    obtain ⟨hlabel, hwords, hstray⟩ := SourceLine.parse_eq (code ++ '#'.toUInt8 :: old)
    obtain ⟨hlabel', hwords', hstray'⟩ := SourceLine.parse_eq (code ++ '#'.toUInt8 :: new)
    rw [Text.beforeComment_append hcode] at hlabel hwords hstray hlabel' hwords' hstray'
    have hparsed : d.addParsed line (SourceLine.parse (code ++ '#'.toUInt8 :: new)) =
        d.addParsed line (SourceLine.parse (code ++ '#'.toUInt8 :: old)) := by
      unfold addParsed SourceLine.stray
      rw [hlabel, hwords, hstray, hlabel', hwords', hstray']
    have hold' : ¬maxColumns < (code ++ '#'.toUInt8 :: old).length := Nat.not_lt.mpr hold
    have hnew' : ¬maxColumns < (code ++ '#'.toUInt8 :: new).length := Nat.not_lt.mpr hnew
    unfold addLine
    rw [if_neg hold', if_neg hnew', hparsed]

theorem addLines_recommented {as bs : List Bytes} (h : List.Forall₂ Recommented as bs) (d : Draft)
    (line : Nat) : d.addLines line bs = d.addLines line as := by
  induction h generalizing d line with
  | nil => rfl
  | @cons a b as bs hab _ ih =>
    rw [addLines, addLines, addLine_recommented d line hab]
    cases d.addLine line a with
    | error e => rfl
    | ok d' => exact ih d' (line + 1)

end Draft

/-- With other comments, lines give the same program but for the lines themselves, or the same
diagnostic. -/
theorem assembleLines_recommented {as bs : List Bytes} (h : List.Forall₂ Recommented as bs)
    (start : Draft) : assembleLines start bs =
      (assembleLines start as).map fun p => { p with code := bs } := by
  unfold assembleLines
  rw [← h.length_eq, Draft.addLines_recommented h]
  split
  · rfl
  · cases start.addLines 0 as with
    | error e => rfl
    | ok d =>
      cases hd : d.undefined? with
      | some r => simp only [hd]; rfl
      | none => simp only [hd]; rfl

theorem assemble_recommented {as bs : List Bytes} (ha : ∀ line ∈ as, Text.IsLine line)
    (hb : ∀ line ∈ bs, Text.IsLine line) (h : List.Forall₂ Recommented as bs) :
    assemble (Text.joined bs) = (assemble (Text.joined as)).map fun p =>
      { p with code := sourceLines (Text.joined bs) } := by
  have hupper : List.Forall₂ Recommented (as.map Text.upper) (bs.map Text.upper) :=
    List.rel_map (fun _ _ hab => hab.upper) h
  have hlines := Text.forall₂_dropEmptyTail (fun _ _ hab => hab.isEmpty_eq) hupper
  rw [← sourceLines_joined ha, ← sourceLines_joined hb] at hlines
  exact assembleLines_recommented hlines {}

/-! ## Blank lines -/

namespace Draft

variable {d d' : Draft} {line : Nat}

/-- A line of white space adds nothing. -/
theorem addLine_of_inert (d : Draft) (line : Nat) {text : Bytes} (h : Inert text)
    (hlen : text.length ≤ 18) : d.addLine line text = .ok d := by
  obtain ⟨hlabel, hwords, hstray⟩ := h.parse
  have hparsed : d.addParsed line (SourceLine.parse text) = .ok d := by
    unfold addParsed SourceLine.stray
    rw [hlabel, hwords, hstray]
    rfl
  have hlen' : ¬maxColumns < text.length := Nat.not_lt.mpr hlen
  rw [addLine, if_neg hlen', hparsed]

theorem addLines_empty (d : Draft) (line n : Nat) :
    d.addLines line (List.replicate n []) = .ok d := by
  have hinert : Inert [] := ⟨[], by simp, .inl rfl⟩
  induction n generalizing line with
  | zero => rfl
  | succ n ih =>
    rw [List.replicate_succ, addLines, addLine_of_inert d line hinert (by simp)]
    exact ih _

/-- Empty lines at the end add nothing. -/
theorem addLines_dropEmptyTail (d : Draft) (line : Nat) (texts : List Bytes) :
    d.addLines line (Text.dropEmptyTail texts) = d.addLines line texts := by
  obtain ⟨n, hn⟩ := Text.exists_eq_dropEmptyTail_append texts
  conv_rhs => rw [hn, addLines_append]
  cases d.addLines line (Text.dropEmptyTail texts) with
  | error e => rfl
  | ok d' => exact (addLines_empty d' _ n).symm

/-- The draft whose lines have other numbers. -/
def renumber (g : Nat → Nat) (d : Draft) : Draft :=
  { d with lines := d.lines.map g, jumps := d.jumps.map fun r => { r with line := g r.line } }

theorem renumber_eq_self {g : Nat → Nat} (hl : ∀ k ∈ d.lines, g k = k)
    (hj : ∀ r ∈ d.jumps, g r.line = r.line) : d.renumber g = d := by
  have hlines : d.lines.map g = d.lines := (List.map_congr_left hl).trans (List.map_id' _)
  have hjumps : (d.jumps.map fun r => { r with line := g r.line }) = d.jumps := by
    refine (List.map_congr_left fun r hr => ?_).trans (List.map_id' _)
    rw [hj r hr]
  rw [renumber, hlines, hjumps]

theorem addLabel_renumber (g : Nat → Nat) (d : Draft) (l : Option Token) :
    (d.renumber g).addLabel l = (d.addLabel l).map (renumber g) := by
  cases l with
  | none => rfl
  | some t =>
    have hlabels : (d.renumber g).labels = d.labels := rfl
    simp only [addLabel, hlabels]
    split
    · rfl
    · split <;> rfl

theorem emit_renumber (g : Nat → Nat) (d : Draft) (line : Nat) (i : Instruction)
    (params : List Token) :
    (d.renumber g).emit (g line) i params = (d.emit line i params).renumber g := by
  unfold emit renumber
  cases i.op.isJump <;> simp

theorem addWords_renumber (g : Nat → Nat) (d : Draft) (line : Nat) (ws : List Token) :
    (d.renumber g).addWords (g line) ws = (d.addWords line ws).map (renumber g) := by
  cases ws with
  | nil => rfl
  | cons word params =>
    simp only [addWords]
    cases Mnemonic.ofName? word.text with
    | none => rfl
    | some m =>
      show (instruction m word params >>= fun i => pure ((d.renumber g).emit (g line) i params)) =
        (instruction m word params >>= fun i => pure (d.emit line i params)).map (renumber g)
      cases instruction m word params with
      | error e => rfl
      | ok i => exact congrArg Except.ok (emit_renumber g d line i params)

theorem addParsed_renumber (g : Nat → Nat) (d : Draft) (line : Nat) (s : SourceLine) :
    (d.renumber g).addParsed (g line) s = (d.addParsed line s).map (renumber g) := by
  unfold addParsed
  rw [addLabel_renumber]
  cases d.addLabel s.label with
  | error e => rfl
  | ok d' =>
    cases s.stray with
    | some column => rfl
    | none => exact addWords_renumber g d' line s.words

theorem addLine_renumber {text : Bytes} (g : Nat → Nat) (h : d.addLine line text = .ok d') :
    (d.renumber g).addLine (g line) text = .ok (d'.renumber g) := by
  unfold addLine at h ⊢
  split at h
  · cases h
  · rename_i hlen
    rw [if_neg hlen, addParsed_renumber]
    split at h
    · cases h
    · rename_i hparsed
      cases h
      rw [hparsed]
      rfl

/-- Lines that come one later. -/
theorem addLines_renumber {g : Nat → Nat} {texts : List Bytes}
    (hg : ∀ k, line ≤ k → g k = k + 1) (h : d.addLines line texts = .ok d') :
    (d.renumber g).addLines (line + 1) texts = .ok (d'.renumber g) := by
  induction texts generalizing d line with
  | nil =>
    cases h
    rfl
  | cons text texts ih =>
    unfold addLines at h
    split at h
    · cases h
    · rename_i d₁ hline
      have hnext := addLine_renumber g hline
      rw [hg line (Nat.le_refl line)] at hnext
      rw [addLines, hnext]
      exact ih (fun k hk => hg k (Nat.le_of_succ_le hk)) h

/-- All numbers that a draft has are those of the lines it was made from. -/
theorem lt_length_of_addLines {texts : List Bytes} (h : addLines {} 0 texts = .ok d) :
    (∀ k ∈ d.lines, k < texts.length) ∧ ∀ r ∈ d.jumps, r.line < texts.length := by
  constructor
  · intro k hk
    rw [(Laid.empty.addLines h).lines] at hk
    obtain ⟨⟨text, k⟩, hc, rfl⟩ := List.mem_map.mp hk
    exact (List.getElem?_eq_some_iff.mp (mem_commands.mp hc).1).1
  · intro r hr
    have hjumps : d.jumps = Language.jumps texts := jumps_addLines h
    obtain ⟨k, text, hk, htext, -⟩ := getElem?_of_mem_jumpsFrom (hjumps ▸ hr)
    have := (List.getElem?_eq_some_iff.mp htext).1
    omega

/-- Where a line of white space is inserted, the numbers of the lines behind it change and nothing
else does. -/
theorem addLines_inserted {before after : List Bytes} {text : Bytes} (hi : Inert text)
    (hlen : text.length ≤ 18) (h : addLines {} 0 (before ++ after) = .ok d) :
    addLines {} 0 (before ++ text :: after) = .ok (d.renumber (moved before.length)) := by
  rw [addLines_append] at h ⊢
  obtain ⟨d₁, hbefore, hafter⟩ := bind_eq_ok h
  obtain ⟨hlines, hjumps⟩ := lt_length_of_addLines hbefore
  have hlow : ∀ k, k < before.length → moved before.length k = k := fun k hk =>
    if_neg (Nat.not_le.mpr hk)
  have hhigh : ∀ k, 0 + before.length ≤ k → moved before.length k = k + 1 := fun k hk =>
    if_pos (by omega)
  have hkept : d₁.renumber (moved before.length) = d₁ :=
    renumber_eq_self (fun k hk => hlow k (hlines k hk)) fun r hr => hlow _ (hjumps r hr)
  have hrest := addLines_renumber hhigh hafter
  rw [hkept] at hrest
  rw [hbefore]
  show d₁.addLines (0 + before.length) (text :: after) = _
  rw [addLines, addLine_of_inert d₁ _ hi hlen]
  exact hrest

theorem undefined?_renumber (g : Nat → Nat) (h : d.undefined? = none) :
    (d.renumber g).undefined? = none := by
  unfold undefined? at h ⊢
  simp only [List.find?_eq_none, renumber, List.mem_map] at h ⊢
  rintro _ ⟨r, hr, rfl⟩
  exact h r hr

end Draft

/-- The program of a draft. -/
theorem assemble_of_draft {source : Bytes} {d : Draft} (hlen : (sourceLines source).length ≤ 20)
    (hd : Draft.addLines {} 0 (sourceLines source) = .ok d) (hj : d.undefined? = none) :
    assemble source = .ok { instructions := d.instructions, labels := d.labels, lines := d.lines,
                            code := sourceLines source } := by
  have hlen' : ¬maxLines < (sourceLines source).length := Nat.not_lt.mpr hlen
  unfold assemble assembleLines
  rw [if_neg hlen', hd]
  simp only [hj]

theorem assemble_inserted {before after : List Bytes} {text : Bytes} {p : Program}
    (hlines : ∀ line ∈ before ++ text :: after, Text.IsLine line) (hi : Inert text)
    (hlen : text.length ≤ 18)
    (hcount : (sourceLines (Text.joined (before ++ text :: after))).length ≤ 20)
    (h : assemble (Text.joined (before ++ after)) = .ok p) :
    assemble (Text.joined (before ++ text :: after)) = .ok { p with
      lines := p.lines.map (moved before.length)
      code := sourceLines (Text.joined (before ++ text :: after)) } := by
  have hold : ∀ line ∈ before ++ after, Text.IsLine line := fun line hline =>
    hlines line (by
      rcases List.mem_append.mp hline with hline | hline
      · exact List.mem_append_left _ hline
      · exact List.mem_append_right _ (List.mem_cons_of_mem _ hline))
  obtain ⟨-, d, hd, hj, rfl⟩ := assemble_parts h
  rw [sourceLines_joined hold, Draft.addLines_dropEmptyTail, List.map_append] at hd
  have hlen' : (Text.upper text).length ≤ 18 := by rwa [Text.length_upper]
  have hnew := Draft.addLines_inserted hi.upper hlen' hd
  have hd' : Draft.addLines {} 0 (sourceLines (Text.joined (before ++ text :: after))) =
      .ok (d.renumber (moved before.length)) := by
    rw [sourceLines_joined hlines, Draft.addLines_dropEmptyTail, List.map_append, List.map_cons,
      hnew, List.length_map]
  exact assemble_of_draft hcount hd' (Draft.undefined?_renumber _ hj)

/-- Comments and blank lines are inert. If some lines get another text behind their first number
sign, the outcome is the same program but for the lines that it keeps, or the same diagnostic. If
a line of white space, with or without a comment, is inserted in a source that is assembled, and
there are not too many lines then, the instructions and labels are the same, and just the
instructions from there on stand one line later. -/
theorem comments_and_blanks_inert :
    (∀ as bs : List Bytes, (∀ line ∈ as, Text.IsLine line) → (∀ line ∈ bs, Text.IsLine line) →
      List.Forall₂ Recommented as bs →
      assemble (Text.joined bs) = (assemble (Text.joined as)).map fun p =>
        { p with code := sourceLines (Text.joined bs) }) ∧
    ∀ (before after : List Bytes) (text : Bytes) (p : Program),
      (∀ line ∈ before ++ text :: after, Text.IsLine line) → Inert text → text.length ≤ 18 →
      (Text.lines (Text.joined (before ++ text :: after))).length ≤ 20 →
      assemble (Text.joined (before ++ after)) = .ok p →
      assemble (Text.joined (before ++ text :: after)) = .ok { p with
        lines := p.lines.map fun k => if before.length ≤ k then k + 1 else k
        code := sourceLines (Text.joined (before ++ text :: after)) } := by
  refine ⟨fun as bs => assemble_recommented, fun before after text p hlines hi hlen hcount h => ?_⟩
  refine assemble_inserted hlines hi hlen ?_ h
  rwa [sourceLines, List.length_map]

/-- A comment that looks like a label and a command, in a source that is refused for another line;
and a tab with a comment that is put between two commands. -/
theorem comments_and_blanks_inert_between :
    assemble (ascii "NOP # L: JMP ,L\nJMP L") = .error ⟨.undefinedLabel (ascii "L"), 1, 4⟩ ∧
    ∃ p, assemble (ascii "L: NOP\nJMP L") = .ok p ∧ p.lines = [0, 1] ∧
      assemble (ascii "L: NOP\n\t# M: ,\nJMP L") = .ok { p with
        lines := [0, 2]
        code := [ascii "L: NOP", ascii "\t# M: ,", ascii "JMP L"] } := by
  obtain ⟨hcomments, hblanks⟩ := comments_and_blanks_inert
  constructor
  · have h := hcomments [ascii "NOP " ++ '#'.toUInt8 :: [], ascii "JMP L"]
      [ascii "NOP " ++ '#'.toUInt8 :: ascii " L: JMP ,L", ascii "JMP L"]
      (by decide +kernel) (by decide +kernel)
      (.cons (.comment (by decide) (by decide) (by decide)) (.cons (.same _) .nil))
    have herror : assemble (ascii "NOP #\nJMP L") =
      .error ⟨.undefinedLabel (ascii "L"), 1, 4⟩ := by rfl
    exact h.trans (congrArg (Except.map _) herror)
  · have hinert : Inert (ascii "\t# M: ,") :=
      ⟨ascii "\t", by decide +kernel, .inr ⟨ascii " M: ,", rfl⟩⟩
    obtain ⟨p, hp⟩ : ∃ p, assemble (ascii "L: NOP\nJMP L") = .ok p := ⟨_, rfl⟩
    have hlines : p.lines = [0, 1] := by
      cases hp
      rfl
    have h := hblanks [ascii "L: NOP"] [ascii "JMP L"] (ascii "\t# M: ,") p (by decide +kernel)
      hinert (by decide) (by decide +kernel) hp
    rw [hlines] at h
    exact ⟨p, hp, hlines, h⟩

end Assembler

end NodeCube
