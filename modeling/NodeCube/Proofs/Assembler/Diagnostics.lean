import NodeCube.Proofs.Assembler.Language
import NodeCube.Proofs.Text.Lines
import NodeCube.Runner.Printout

/-!
# Diagnostics of the assembler

Which diagnostic a refused source gets, and where it points. A source is refused in one of three
ways (`Assembler.Refused`): it has too many lines; some line is refused after those before it were
added; or all lines were added and a jump goes to a label that none of them defines.

* `SourceLine.parse_within`: every column of a line's parts lies inside the line or just past it.
* `Assembler.Draft.concerns_addLine`: so does the column of a complaint about a line.
* `Assembler.Draft.addLines_eq_error_iff`: lines are refused for the first one that is wrong after
  those before it, so what follows that line has no say.
* `Assembler.Draft.jumps_addLines`: the jumps that wait for their labels are those of the lines, in
  source order (`Language.jumps`).
-/

namespace NodeCube

/-! ## Columns of a line -/

namespace SourceLine

/-- A token is a part of the text and starts where its column says. -/
theorem eq_append_of_mem_tokens {column : Nat} {s : Bytes} {t : Token} (h : t ∈ tokens column s) :
    ∃ before after, s = before ++ t.text ++ after ∧ t.column = column + before.length := by
  induction s generalizing column t with
  | nil => exact absurd h List.not_mem_nil
  | cons b s ih =>
    -- a token of the rest, seen from one column earlier
    have hrest : ∀ t ∈ tokens (column + 1) s,
        ∃ before after, b :: s = before ++ t.text ++ after ∧ t.column = column + before.length := by
      intro t ht
      obtain ⟨before, after, hs, hc⟩ := ih ht
      refine ⟨b :: before, after, by rw [hs]; rfl, ?_⟩
      rw [List.length_cons]
      omega
    unfold tokens at h
    split at h
    · exact hrest t h
    · unfold glue at h
      split at h
      · obtain rfl := List.mem_singleton.mp h
        exact ⟨[], s, rfl, rfl⟩
      · rename_i first rest htokens
        split at h
        · rename_i hnext
          rcases List.mem_cons.mp h with rfl | h
          · obtain ⟨before, after, hs, hc⟩ := ih (htokens ▸ List.mem_cons_self)
            have hnil : before = [] := List.length_eq_zero_iff.mp (by omega)
            exact ⟨[], after, by rw [hs, hnil]; rfl, rfl⟩
          · exact hrest t (htokens ▸ List.mem_cons_of_mem _ h)
        · rcases List.mem_cons.mp h with rfl | h
          · exact ⟨[], s, rfl, rfl⟩
          · exact hrest t (htokens ▸ h)

theorem stop_le_of_mem_tokens {column : Nat} {s : Bytes} {t : Token} (h : t ∈ tokens column s) :
    t.stop ≤ column + s.length := by
  obtain ⟨before, after, hs, hc⟩ := eq_append_of_mem_tokens h
  have hlen : s.length = before.length + t.text.length + after.length := by
    rw [hs, List.length_append, List.length_append]
  unfold Token.stop
  omega

theorem lt_of_mem_strayCommas {column c : Nat} {fed : Bool} {s : Bytes}
    (h : c ∈ strayCommas column fed s) : c < column + s.length := by
  induction s generalizing column fed with
  | nil => cases h
  | cons b s ih =>
    rw [List.length_cons]
    unfold strayCommas at h
    split at h
    · split at h
      · have := ih h
        omega
      · rcases List.mem_cons.mp h with rfl | h
        · omega
        · have := ih h
          omega
    · have := ih h
      omega

/-- All columns of a line's parts are columns of a text of `n` bytes, or just past it. -/
structure Within (n : Nat) (s : SourceLine) : Prop where
  label : ∀ l, s.label = some l → l.column ≤ n
  words : ∀ w ∈ s.words, w.stop ≤ n
  strays : ∀ c ∈ s.strays, c ≤ n

theorem ofWords_within {code : Bytes} {start : Nat} (h : start ≤ code.length) :
    (ofWords code start).Within code.length := by
  have hlen : start + (code.drop start).length = code.length := by
    rw [List.length_drop]
    omega
  refine ⟨fun l hl => ?_, fun w hw => ?_, fun c hc => ?_⟩
  · cases hl
  · exact hlen ▸ stop_le_of_mem_tokens hw
  · have := lt_of_mem_strayCommas hc
    omega

theorem ofCode_within (code : Bytes) : (ofCode code).Within code.length := by
  unfold ofCode
  split
  · exact ofWords_within (Nat.zero_le _)
  · rename_i before after hcut
    have hlen : code.length = before.length + (after.length + 1) := by
      rw [(Text.eq_append_of_cut hcut).1, List.length_append, List.length_cons]
    obtain ⟨-, hwords, hstray⟩ := @ofWords_within code (before.length + 1) (by omega)
    refine ⟨fun l hl => ?_, hwords, hstray⟩
    obtain rfl := Option.some.inj hl
    show before.length - (Text.trimLeft before).length ≤ code.length
    omega

theorem parse_within (line : Bytes) : (parse line).Within line.length := by
  obtain ⟨hlabel, hwords, hstray⟩ := parse_eq line
  have hcode := ofCode_within (Text.beforeComment line)
  have hle : (Text.beforeComment line).length ≤ line.length :=
    (List.takeWhile_sublist _).length_le
  refine ⟨fun l hl => ?_, fun w hw => ?_, fun c hc => ?_⟩
  · exact Nat.le_trans (hcode.label l (hlabel ▸ hl)) hle
  · exact Nat.le_trans (hcode.words w (hwords ▸ hw)) hle
  · exact Nat.le_trans (hcode.strays c (hstray ▸ hc)) hle

end SourceLine

/-! ## Complaints about a line -/

/-- Whether a complaint concerns a line by itself and those before it: the others are that there
are too many lines and that a label is undefined. -/
def Complaint.concernsLine : Complaint → Bool
  | .tooManyLines | .undefinedLabel _ => false
  | _ => true

namespace Assembler

theorem bind_eq_error {ε α β : Type} {x : Except ε α} {k : α → Except ε β} {e : ε}
    (h : x >>= k = .error e) : x = .error e ∨ ∃ a, x = .ok a ∧ k a = .error e := by
  cases x with
  | error e' =>
    cases h
    exact .inl rfl
  | ok a => exact .inr ⟨a, rfl, h⟩

/-- The complaint concerns a line of `n` bytes, and its column is there or just past the end. -/
structure Issue.Concerns (n : Nat) (e : Issue) : Prop where
  complaint : e.complaint.concernsLine = true
  column_le : e.column ≤ n

section Words

-- the words stand on a line of `n` bytes
variable {n : Nat} {e : Issue} {word : Token} {params : List Token}

theorem column_le_of_stop {t : Token} (h : t.stop ≤ n) : t.column ≤ n :=
  Nat.le_trans (Nat.le_add_right _ _) h

theorem concerns_target {t : Token} (ht : t.stop ≤ n) (h : target t = .error e) : e.Concerns n := by
  unfold target at h
  split at h <;> cases h <;> exact ⟨rfl, column_le_of_stop ht⟩

theorem concerns_operand {t : Token} (ht : t.stop ≤ n) (h : operand t = .error e) :
    e.Concerns n := by
  unfold operand at h
  split at h
  · split at h <;> cases h
    exact ⟨rfl, column_le_of_stop ht⟩
  · split at h <;> cases h
    rename_i he
    exact concerns_target ht he

theorem concerns_one (hw : word.stop ≤ n) (hp : ∀ p ∈ params, p.stop ≤ n)
    (h : one word params = .error e) : e.Concerns n := by
  unfold one at h
  split at h <;> cases h
  · exact ⟨rfl, hw⟩
  · exact ⟨rfl, column_le_of_stop (hp _ (by simp))⟩

theorem concerns_two (hw : word.stop ≤ n) (hp : ∀ p ∈ params, p.stop ≤ n)
    (h : two word params = .error e) : e.Concerns n := by
  unfold two at h
  split at h <;> cases h
  · exact ⟨rfl, hw⟩
  · exact ⟨rfl, hp _ (by simp)⟩
  · exact ⟨rfl, column_le_of_stop (hp _ (by simp))⟩

/-- An operation that takes one operand. -/
theorem concerns_one_operand {f : Operand → Instruction} (hw : word.stop ≤ n)
    (hp : ∀ p ∈ params, p.stop ≤ n)
    (h : (do let p ← one word params; let x ← operand p; return f x) = Except.error e) :
    e.Concerns n := by
  rcases bind_eq_error h with h | ⟨p, hone, h⟩
  · exact concerns_one hw hp h
  · have hmem : p ∈ params := by rw [eq_of_one hone]; exact List.mem_singleton_self p
    rcases bind_eq_error h with h | ⟨x, -, h⟩
    · exact concerns_operand (hp p hmem) h
    · cases h

theorem concerns_instruction {m : Mnemonic} (hw : word.stop ≤ n) (hp : ∀ p ∈ params, p.stop ≤ n)
    (h : instruction m word params = .error e) : e.Concerns n := by
  cases m with
  | simple op =>
    cases params with
    | nil => cases h
    | cons p rest =>
      cases h
      exact ⟨rfl, column_le_of_stop (hp p List.mem_cons_self)⟩
  | arith op => exact concerns_one_operand hw hp h
  | jumpBy => exact concerns_one_operand hw hp h
  | move =>
    rcases bind_eq_error h with h | ⟨⟨s, d⟩, htwo, h⟩
    · exact concerns_two hw hp h
    · have hs : s ∈ params := by rw [two_ok_iff.mp htwo]; simp
      have hd : d ∈ params := by rw [two_ok_iff.mp htwo]; simp
      rcases bind_eq_error h with h | ⟨y, -, h⟩
      · exact concerns_target (hp d hd) h
      · rcases bind_eq_error h with h | ⟨x, -, h⟩
        · exact concerns_operand (hp s hs) h
        · cases h
  | jump cond =>
    rcases bind_eq_error h with h | ⟨p, -, h⟩
    · exact concerns_one hw hp h
    · cases h

end Words

namespace Draft

variable {d d' : Draft} {line n : Nat} {e : Issue}

theorem concerns_addLabel {l : Option Token} (hl : ∀ t, l = some t → t.column ≤ n)
    (h : d.addLabel l = .error e) : e.Concerns n := by
  unfold addLabel at h
  split at h
  · cases h
  · rename_i t
    split at h
    · cases h
      exact ⟨rfl, hl t rfl⟩
    · split at h <;> cases h
      exact ⟨rfl, hl t rfl⟩

theorem concerns_addWords {words : List Token} (hw : ∀ w ∈ words, w.stop ≤ n)
    (h : d.addWords line words = .error e) : e.Concerns n := by
  unfold addWords at h
  split at h
  · cases h
  · rename_i word params
    have hword := hw word List.mem_cons_self
    have hparams : ∀ p ∈ params, p.stop ≤ n := fun p hp => hw p (List.mem_cons_of_mem _ hp)
    split at h
    · cases h
      exact ⟨rfl, Nat.zero_le n⟩
    · rcases bind_eq_error h with h | ⟨i, -, h⟩
      · exact concerns_instruction hword hparams h
      · cases h

theorem concerns_addParsed {s : SourceLine} (hs : s.Within n) (h : d.addParsed line s = .error e) :
    e.Concerns n := by
  rcases bind_eq_error h with h | ⟨d₁, -, h⟩
  · exact concerns_addLabel hs.label h
  · split at h
    · rename_i column hstray
      cases h
      exact ⟨rfl, hs.strays column (List.mem_of_head? hstray)⟩
    · exact concerns_addWords hs.words h

/-- A line is refused with a complaint about itself, at one of its columns. -/
theorem concerns_addLine {text : Bytes} {e : Diagnostic} (h : d.addLine line text = .error e) :
    e.line = line ∧ e.complaint.concernsLine = true ∧ e.column ≤ text.length := by
  unfold addLine at h
  split at h
  · rename_i hlen
    cases h
    exact ⟨rfl, rfl, Nat.le_of_lt hlen⟩
  · split at h
    · rename_i hp
      cases h
      obtain ⟨hc, hle⟩ := concerns_addParsed (SourceLine.parse_within text) hp
      exact ⟨rfl, hc, hle⟩
    · cases h

/-! ## Line by line -/

theorem addLines_append (d : Draft) (line : Nat) (before after : List Bytes) :
    d.addLines line (before ++ after) =
      (d.addLines line before >>= fun d' => d'.addLines (line + before.length) after) := by
  induction before generalizing d line with
  | nil => rfl
  | cons text before ih =>
    simp only [List.cons_append, addLines]
    cases d.addLine line text with
    | error e => rfl
    | ok d' =>
      show d'.addLines (line + 1) (before ++ after) = _
      rw [ih, List.length_cons, Nat.add_assoc, Nat.add_comm 1]

/-- Lines are refused for the first line that is wrong after those before it. -/
theorem addLines_eq_error_iff {texts : List Bytes} {e : Diagnostic} :
    d.addLines line texts = .error e ↔ ∃ before text after d', texts = before ++ text :: after ∧
      d.addLines line before = .ok d' ∧ d'.addLine (line + before.length) text = .error e := by
  constructor
  · intro h
    induction texts generalizing d line with
    | nil => cases h
    | cons text texts ih =>
      unfold addLines at h
      split at h
      · rename_i hline
        cases h
        exact ⟨[], text, texts, d, rfl, rfl, hline⟩
      · rename_i d₁ hline
        obtain ⟨before, text', after, d', rfl, hbefore, herror⟩ := ih h
        refine ⟨text :: before, text', after, d', rfl, ?_, ?_⟩
        · rw [addLines, hline]
          exact hbefore
        · rw [List.length_cons, Nat.add_comm before.length, ← Nat.add_assoc]
          exact herror
  · rintro ⟨before, text, after, d', rfl, hbefore, herror⟩
    rw [addLines_append, hbefore]
    show d'.addLines (line + before.length) (text :: after) = _
    rw [addLines, herror]

end Draft

end Assembler

/-! ## Jumps in source order -/

namespace Language

open NodeCube.Assembler (Pending)

/-- The operands of a row of words, if its mnemonic is that of a jump. -/
def jumpParams (words : List Token) : List Token :=
  if words.head?.any fun word => jumpNames.contains word.text then words.tail else []

/-- The labels that a line jumps to, where they stand. -/
def jumpTokens (line : Bytes) : List Token := jumpParams (SourceLine.parse line).words

/-- The jumps of lines, the first of which has the number `start`. -/
def jumpsFrom (start : Nat) : List Bytes → List Pending
  | [] => []
  | line :: rest => (jumpTokens line).map (⟨·, start⟩) ++ jumpsFrom (start + 1) rest

/-- The jumps of the lines of a source. -/
def jumps (lines : List Bytes) : List Pending := jumpsFrom 0 lines

/-- Every line of a source is right by itself and after those before it; the labels that it jumps
to are not looked at. -/
structure Parses (lines : List Bytes) : Prop where
  each : ∀ line ∈ lines, Line (fun _ => True) line
  distinct : (lines.filterMap label?).Nodup

/-- Some line defines the label. -/
def Defines (lines : List Bytes) (label : Bytes) : Prop := label ∈ lines.filterMap label?

/-- The first jump, in source order, to a label that no line defines. -/
def FirstUndefined (lines : List Bytes) (r : Pending) : Prop :=
  ∃ before after, jumps lines = before ++ r :: after ∧
    (∀ q ∈ before, Defines lines q.label.text) ∧ ¬Defines lines r.label.text

theorem mem_words_of_mem_jumpTokens {line : Bytes} {t : Token} (h : t ∈ jumpTokens line) :
    t ∈ (SourceLine.parse line).words := by
  unfold jumpTokens jumpParams at h
  split at h
  · exact List.mem_of_mem_tail h
  · cases h

/-- A jump stands on the line whose number it has. -/
theorem getElem?_of_mem_jumpsFrom {start : Nat} {lines : List Bytes} {r : Pending}
    (h : r ∈ jumpsFrom start lines) :
    ∃ k line, r.line = start + k ∧ lines[k]? = some line ∧ r.label ∈ jumpTokens line := by
  induction lines generalizing start with
  | nil => cases h
  | cons line lines ih =>
    rcases List.mem_append.mp h with h | h
    · obtain ⟨t, ht, rfl⟩ := List.mem_map.mp h
      exact ⟨0, line, rfl, rfl, ht⟩
    · obtain ⟨k, line', hk, hl, ht⟩ := ih h
      exact ⟨k + 1, line', by omega, hl, ht⟩

end Language

namespace Assembler

open NodeCube.Language

namespace Draft

variable {d d' : Draft} {line : Nat}

theorem jumps_addWords {words : List Token} (h : d.addWords line words = .ok d') :
    d'.jumps = d.jumps ++ (jumpParams words).map (⟨·, line⟩) := by
  obtain ⟨rfl, rfl⟩ | ⟨word, params, m, i, rfl, hm, hi, rfl⟩ := addWords_cases h
  · exact (List.append_nil _).symm
  · -- the instruction is a jump just if its mnemonic is that of one
    have hjump := isJump_iff hi
    rw [Mnemonic.ofName?_eq_some_iff.mp hm] at hjump
    simp only [emit, jumpParams, List.head?_cons, Option.any_some, List.contains_iff_mem, hjump,
      List.tail_cons]
    split
    · rfl
    · rw [List.map_nil, List.append_nil]

theorem jumps_addLine {text : Bytes} (h : d.addLine line text = .ok d') :
    d'.jumps = d.jumps ++ (jumpTokens text).map (⟨·, line⟩) := by
  obtain ⟨d₁, hlabel, hwords⟩ := addLine_parts h
  have hsame : d₁.jumps = d.jumps := by
    obtain ⟨-, rfl⟩ | ⟨t, -, -, rfl⟩ := addLabel_cases hlabel
    · rfl
    · rfl
  rw [← hsame]
  exact jumps_addWords hwords

/-- The jumps that wait for their labels are those of the lines. -/
theorem jumps_addLines {texts : List Bytes} (h : d.addLines line texts = .ok d') :
    d'.jumps = d.jumps ++ jumpsFrom line texts := by
  induction texts generalizing d line with
  | nil =>
    cases h
    exact (List.append_nil _).symm
  | cons text texts ih =>
    unfold addLines at h
    split at h
    · cases h
    · rename_i hline
      rw [ih h, jumps_addLine hline, List.append_assoc]
      rfl

/-- After all lines of a source, the jump that is complained about is the first one to a label
that no line defines. -/
theorem undefined?_eq_some_iff {texts : List Bytes} {r : Pending}
    (h : addLines {} 0 texts = .ok d) : d.undefined? = some r ↔ FirstUndefined texts r := by
  have hjumps : d.jumps = Language.jumps texts := jumps_addLines h
  have hlabels : ∀ l, (d.labels.find? l).isSome = true ↔ Defines texts l := by
    intro l
    have hknown := (Knows.empty.addLines h).labels l
    rwa [List.nil_append] at hknown
  simp only [undefined?, FirstUndefined, List.find?_eq_some_iff_append, hjumps,
    Option.isNone_iff_eq_none, ← Option.not_isSome_iff_eq_none, Option.not_isNone, hlabels]
  constructor
  · rintro ⟨hr, before, after, hsplit, hbefore⟩
    exact ⟨before, after, hsplit, hbefore, hr⟩
  · rintro ⟨before, after, hsplit, hbefore, hr⟩
    exact ⟨hr, before, after, hsplit, hbefore⟩

end Draft

/-! ## Whole sources -/

/-- The three ways in which lines are refused. -/
inductive Refused (lines : List Bytes) : Diagnostic → Prop
  | tooManyLines (h : maxLines < lines.length) : Refused lines ⟨.tooManyLines, maxLines, 0⟩
  | line {before after : List Bytes} {text : Bytes} {d : Draft} {e : Diagnostic}
      (hlen : lines.length ≤ maxLines) (hlines : lines = before ++ text :: after)
      (hbefore : Draft.addLines {} 0 before = .ok d)
      (herror : d.addLine before.length text = .error e) : Refused lines e
  | undefinedLabel {d : Draft} {r : Pending} (hlen : lines.length ≤ maxLines)
      (hlines : Draft.addLines {} 0 lines = .ok d) (hr : FirstUndefined lines r) :
    Refused lines ⟨.undefinedLabel r.label.text, r.line, r.label.column⟩

theorem assemble_eq_error_iff {source : Bytes} {e : Diagnostic} :
    assemble source = .error e ↔ Refused (sourceLines source) e := by
  unfold assemble assembleLines
  generalize sourceLines source = lines
  constructor
  · intro h
    split at h
    · rename_i hlen
      cases h
      exact .tooManyLines hlen
    · rename_i hlen
      replace hlen := Nat.not_lt.mp hlen
      split at h
      · rename_i herror
        cases h
        obtain ⟨before, text, after, d, hlines, hbefore, herror⟩ :=
          Draft.addLines_eq_error_iff.mp herror
        rw [Nat.zero_add] at herror
        exact .line hlen hlines hbefore herror
      · rename_i hd
        split at h
        · rename_i hr
          cases h
          exact .undefinedLabel hlen hd ((Draft.undefined?_eq_some_iff hd).mp hr)
        · cases h
  · intro h
    cases h with
    | tooManyLines h => rw [if_pos h]
    | @line before after text d _ hlen hlines hbefore herror =>
      have hall : Draft.addLines {} 0 lines = .error e :=
        Draft.addLines_eq_error_iff.mpr
          ⟨before, text, after, d, hlines, hbefore, by rwa [Nat.zero_add]⟩
      rw [if_neg (Nat.not_lt.mpr hlen), hall]
    | undefinedLabel hlen hd hr =>
      rw [if_neg (Nat.not_lt.mpr hlen), hd]
      simp only [(Draft.undefined?_eq_some_iff hd).mpr hr]

/-- A diagnostic points into a line of the source, or just past its end. -/
theorem Refused.points {lines : List Bytes} {e : Diagnostic} (h : Refused lines e) :
    ∃ text, lines[e.line]? = some text ∧ e.column ≤ text.length := by
  cases h with
  | tooManyLines h => exact ⟨_, List.getElem?_eq_getElem h, Nat.zero_le _⟩
  | @line before after text d _ hlen hlines hbefore herror =>
    obtain ⟨hline, -, hcolumn⟩ := Draft.concerns_addLine herror
    exact ⟨text, by rw [hlines, hline]; simp, hcolumn⟩
  | @undefinedLabel d r hlen hd hr =>
    obtain ⟨before, after, hjumps, -⟩ := hr
    have hmem : r ∈ Language.jumps lines := by rw [hjumps]; simp
    obtain ⟨k, text, hk, htext, ht⟩ := getElem?_of_mem_jumpsFrom hmem
    rw [Nat.zero_add] at hk
    have hstop := (SourceLine.parse_within text).words _ (mem_words_of_mem_jumpTokens ht)
    exact ⟨text, by rw [hk, htext], column_le_of_stop hstop⟩

/-- If a line is refused, then so it is in every source that has the same lines up to there. -/
theorem Refused.of_take_eq {lines lines' : List Bytes} {e : Diagnostic} (h : Refused lines e)
    (he : e.complaint.concernsLine = true) (hlen' : lines'.length ≤ maxLines)
    (htake : lines'.take (e.line + 1) = lines.take (e.line + 1)) : Refused lines' e := by
  cases h with
  | tooManyLines => cases he
  | undefinedLabel => cases he
  | @line before after text d _ hlen hlines hbefore herror =>
    obtain ⟨hline, -⟩ := Draft.concerns_addLine herror
    have hprefix : lines.take (e.line + 1) = before ++ [text] := by
      rw [hlines, hline, List.append_cons, List.take_left' (by simp)]
    have hlines' : lines' = before ++ text :: lines'.drop (e.line + 1) := by
      rw [List.append_cons, ← hprefix, ← htake, List.take_append_drop]
    exact .line hlen' hlines' hbefore herror

/-- Lines that parse are those that can be added to a draft one after another. -/
theorem parses_iff {lines : List Bytes} :
    (∃ d, Draft.addLines {} 0 lines = .ok d) ↔ Parses lines := by
  rw [Draft.Knows.empty.addLines_ok_iff]
  constructor
  · rintro ⟨heach, hdistinct, -⟩
    exact ⟨heach, hdistinct⟩
  · rintro ⟨heach, hdistinct⟩
    exact ⟨heach, hdistinct, fun _ _ => List.not_mem_nil⟩

theorem refused_undefinedLabel_iff {lines : List Bytes} {label : Bytes} {line column : Nat} :
    Refused lines ⟨.undefinedLabel label, line, column⟩ ↔
      lines.length ≤ maxLines ∧ Parses lines ∧ FirstUndefined lines ⟨⟨label, column⟩, line⟩ := by
  constructor
  · intro h
    cases h with
    | line _ _ _ herror => exact absurd (Draft.concerns_addLine herror).2.1 Bool.false_ne_true
    | undefinedLabel hlen hd hr => exact ⟨hlen, parses_iff.mp ⟨_, hd⟩, hr⟩
  · rintro ⟨hlen, hparses, hr⟩
    obtain ⟨d, hd⟩ := parses_iff.mpr hparses
    exact .undefinedLabel hlen hd hr

theorem refused_tooManyLines_iff {lines : List Bytes} :
    (∃ line column, Refused lines ⟨.tooManyLines, line, column⟩) ↔ maxLines < lines.length := by
  constructor
  · rintro ⟨line, column, h⟩
    cases h with
    | tooManyLines h => exact h
    | line _ _ _ herror => exact absurd (Draft.concerns_addLine herror).2.1 Bool.false_ne_true
  · intro h
    exact ⟨maxLines, 0, .tooManyLines h⟩

/-- A printout of a diagnostic ends with the line that it is about, as long as the lines can be
counted. -/
theorem suffix_diagnosticText {e : Diagnostic} {code : List Bytes} {text : Bytes}
    (htext : code[e.line]? = some text) (hlen : code.length < 2147483648) (f : Face) :
    Runner.line (ascii ">> " ++ text) ++
      Runner.line (ascii ">> " ++ List.replicate e.column 32 ++ ascii "^") <:+
        Runner.diagnosticText f e code := by
  have hlt : e.line < code.length := (List.getElem?_eq_some_iff.mp htext).1
  have hline : (Int32.ofNat e.line).toInt = e.line := Int32.toInt_ofNat_of_lt (by omega)
  have hcount : (Int32.ofNat code.length).toInt = code.length := Int32.toInt_ofNat_of_lt hlen
  have hshown : 0 ≤ Int32.ofNat e.line ∧ Int32.ofNat e.line < Int32.ofNat code.length := by
    rw [Int32.le_iff_toInt_le, Int32.lt_iff_toInt_lt, hline, hcount]
    exact ⟨Int.natCast_nonneg _, Int.ofNat_lt.mpr hlt⟩
  have hget : code.getD e.line [] = text := by rw [List.getD_eq_getElem?_getD, htext]; rfl
  rw [Runner.diagnosticText, if_pos hshown, hget]
  exact List.suffix_append _ _

/-- A refused source leaves a program that has only the lines of the source, whatever it held
before, and the diagnostic points into one of these lines or just past its end. So a printout of
the diagnostic shows that line, with a mark under or just behind it, if there are fewer than 2^31
lines. -/
theorem refusal_points_into_source {source : Bytes} {out out' : Program} {e : Diagnostic}
    (h : assembleInto source out = .error e out') :
    out'.instructions = [] ∧ out'.labels = [] ∧ out'.lines = [] ∧
      out'.code = (Text.lines source).map Text.upper ∧
      ∃ text, out'.code[e.line]? = some text ∧ e.column ≤ text.length ∧
        (out'.code.length < 2147483648 → ∀ f, Runner.line (ascii ">> " ++ text) ++
          Runner.line (ascii ">> " ++ List.replicate e.column 32 ++ ascii "^") <:+
            Runner.diagnosticText f e out'.code) := by
  rw [assembleInto_eq] at h
  split at h
  · cases h
  · rename_i herror
    cases h
    obtain ⟨text, htext, hcolumn⟩ := (assemble_eq_error_iff.mp herror).points
    exact ⟨rfl, rfl, rfl, rfl, text, htext, hcolumn, suffix_diagnosticText htext⟩

/-- A label of blanks only, after which the line goes on. -/
def blankLabel : Bytes := ascii "nop\n   : add 1"

theorem refusal_points_into_source_blank :
    assembleInto blankLabel { instructions := [{ op := .jumpBy .target }], lines := [0] } =
      .error ⟨.invalidLabel, 1, 3⟩ (.ofCode [ascii "NOP", ascii "   : ADD 1"]) ∧
    Runner.line (ascii ">>    : ADD 1") ++ Runner.line (ascii ">>    ^") <:+
      Runner.diagnosticText .zNeg ⟨.invalidLabel, 1, 3⟩ [ascii "NOP", ascii "   : ADD 1"] := by
  have h : assembleInto blankLabel { instructions := [{ op := .jumpBy .target }], lines := [0] } =
      .error ⟨.invalidLabel, 1, 3⟩ (.ofCode [ascii "NOP", ascii "   : ADD 1"]) := by rfl
  obtain ⟨-, -, -, -, text, htext, -, hprinted⟩ := refusal_points_into_source h
  cases htext
  exact ⟨h, hprinted (by decide) .zNeg⟩

/-- A word behind some line feeds. -/
def lateWord (n : Nat) : Bytes := List.replicate n 10 ++ ascii "A"

theorem length_sourceLines_lateWord (n : Nat) : (sourceLines (lateWord n)).length = n + 1 := by
  have hlines : Text.lines (lateWord n) = List.replicate n [] ++ [ascii "A"] :=
    Text.lines_feeds_append (by decide) n
  rw [sourceLines, List.length_map, hlines, List.length_append, List.length_replicate]
  rfl

theorem assembleInto_lateWord {n : Nat} (hn : 20 ≤ n) (out : Program) :
    assembleInto (lateWord n) out =
      .error ⟨.tooManyLines, 20, 0⟩ (.ofCode (sourceLines (lateWord n))) := by
  have hrefused : assemble (lateWord n) = .error ⟨.tooManyLines, 20, 0⟩ := by
    refine assemble_eq_error_iff.mpr (.tooManyLines ?_)
    rw [length_sourceLines_lateWord]
    exact Nat.lt_succ_of_le hn
  rw [assembleInto_eq, hrefused]

theorem diagnosticText_lateWord {n : Nat} (hn : n + 1 = 2147483648) (f : Face) :
    Runner.diagnosticText f ⟨.tooManyLines, 20, 0⟩ (sourceLines (lateWord n)) =
      Runner.line (ascii "ERROR: " ++ f.name ++ ascii ": 21:1: Too many lines") := by
  rw [Runner.diagnosticText, length_sourceLines_lateWord, hn, if_neg (by decide), List.append_nil]
  cases f <;> decide +kernel

/-- Of 2^31 lines none is shown, as their count is negative. -/
theorem refusal_not_shown : ∃ out, assembleInto (lateWord 2147483647) {} =
    .error ⟨.tooManyLines, 20, 0⟩ out ∧
    ∀ f, Runner.diagnosticText f ⟨.tooManyLines, 20, 0⟩ out.code =
      Runner.line (ascii "ERROR: " ++ f.name ++ ascii ": 21:1: Too many lines") := by
  generalize hn : 2147483647 = n
  exact ⟨_, assembleInto_lateWord (by omega) {}, diagnosticText_lateWord (by omega)⟩

/-- The first line that is wrong decides, and what follows it has no say. A label is reported as
undefined only if all lines parse, and then that of the first jump to a label that no line
defines. Too many lines are reported just when there are more than 20. -/
theorem first_complaint_wins (source : Bytes) :
    (∀ e, assemble source = .error e → e.complaint.concernsLine = true →
      ∀ other, (Text.lines other).length ≤ 20 →
        (sourceLines other).take (e.line + 1) = (sourceLines source).take (e.line + 1) →
        assemble other = .error e) ∧
    (∀ label line column, assemble source = .error ⟨.undefinedLabel label, line, column⟩ ↔
      (Text.lines source).length ≤ 20 ∧ Parses (sourceLines source) ∧
        FirstUndefined (sourceLines source) ⟨⟨label, column⟩, line⟩) ∧
    ((∃ line column, assemble source = .error ⟨.tooManyLines, line, column⟩) ↔
      20 < (Text.lines source).length) := by
  have hlength : ∀ s, (sourceLines s).length = (Text.lines s).length := fun s => List.length_map _
  simp only [assemble_eq_error_iff, ← hlength]
  refine ⟨fun e h he other hlen htake => h.of_take_eq he hlen htake, fun label line column => ?_, ?_⟩
  · exact refused_undefinedLabel_iff
  · exact refused_tooManyLines_iff

/-- The complaint about the second line does not depend on those behind it. -/
theorem first_complaint_wins_later : assemble (ascii "nop\nadd\nL: foo 1\nL:") =
    .error ⟨.missingParameter, 1, 3⟩ :=
  (first_complaint_wins (ascii "NOP\nADD\n\nJMP AWAY")).1 _ (by rfl) rfl _ (by decide +kernel)
    (by decide +kernel)

end Assembler

end NodeCube
