import NodeCube.Node
import NodeCube.Proofs.Site.Turn

/-!
# Assembled programs are sound

Whatever the source, the program that the assembler makes of it can be executed: no instruction is
missing, no operand is `BAK`, and every jump goes to a label of the program. A program also has no
more instructions than a source may have lines.
-/

namespace NodeCube

namespace Assembler

theorem bind_eq_ok {ε α β : Type} {x : Except ε α} {k : α → Except ε β} {b : β}
    (h : x >>= k = .ok b) : ∃ a, x = .ok a ∧ k a = .ok b := by
  cases x with
  | error e => cases h
  | ok a => exact ⟨a, rfl, h⟩

/-! ## One instruction -/

/-- What holds of an instruction before the labels of the program are known. -/
structure Formed (params : List Token) (i : Instruction) : Prop where
  present : i.op ≠ .missing
  source : i.op.readsSource = true → i.source ≠ .bak
  destination : ∀ mode, i.op = .move mode → i.destination ≠ .bak
  jump : i.op.isJump = true → ∃ t ∈ params, t.text = i.label

theorem Formed.mono {params params' : List Token} {i : Instruction} (h : Formed params i)
    (hp : i.op.isJump = true → params ⊆ params') : Formed params' i := by
  refine ⟨h.present, h.source, h.destination, fun hj => ?_⟩
  obtain ⟨t, ht, hl⟩ := h.jump hj
  exact ⟨t, hp hj ht, hl⟩

theorem target_ne_bak {t : Token} {x : Target} (h : target t = .ok x) : x ≠ .bak := by
  unfold target at h
  split at h
  · cases h
  · cases h
  · rename_i hn _
    cases h
    exact hn

theorem withOperand_source {op : Mode → Operation} {t : Token} {x : Operand}
    (hop : (op .immediate).readsSource = false) (h : operand t = .ok x)
    (hr : (withOperand op x).op.readsSource = true) : (withOperand op x).source ≠ .bak := by
  cases x with
  | value w =>
    rw [show (withOperand op (.value w)).op = op .immediate from rfl, hop] at hr
    cases hr
  | target y =>
    unfold operand at h
    split at h
    · split at h <;> cases h
    · split at h
      · cases h
      · rename_i ht
        cases h
        exact target_ne_bak ht

theorem withOperand_op (op : Mode → Operation) (x : Operand) :
    ∃ mode, (withOperand op x).op = op mode := by
  cases x
  · exact ⟨_, rfl⟩
  · exact ⟨_, rfl⟩

/-- An instruction with an operand that is not a jump to a label and not a `MOV`. -/
theorem formed_withOperand {op : Mode → Operation} {t : Token} {x : Operand} {params : List Token}
    (hx : operand t = .ok x) (hop : (op .immediate).readsSource = false)
    (hm : ∀ mode, op mode ≠ .missing) (hv : ∀ mode mode', op mode ≠ .move mode')
    (hj : ∀ mode, (op mode).isJump = false) : Formed params (withOperand op x) := by
  obtain ⟨mode, h⟩ := withOperand_op op x
  refine ⟨h ▸ hm mode, withOperand_source hop hx, fun mode' h' => ?_, fun h' => ?_⟩
  · exact absurd (h.symm.trans h') (hv mode mode')
  · rw [h, hj] at h'
    cases h'

theorem eq_of_one {word p : Token} {params : List Token} (h : one word params = .ok p) :
    params = [p] := by
  unfold one at h
  split at h
  · cases h
  · cases h
    rfl
  · cases h

theorem formed_instruction {m : Mnemonic} {word : Token} {params : List Token} {i : Instruction}
    (h : instruction m word params = .ok i) : Formed params i := by
  cases m with
  | simple op =>
    cases params with
    | nil =>
      cases h
      exact ⟨nofun, nofun, nofun, nofun⟩
    | cons => cases h
  | arith op =>
    obtain ⟨p, -, h⟩ := bind_eq_ok h
    obtain ⟨x, hx, h⟩ := bind_eq_ok h
    cases h
    exact formed_withOperand hx rfl nofun nofun fun _ => rfl
  | jumpBy =>
    obtain ⟨p, -, h⟩ := bind_eq_ok h
    obtain ⟨x, hx, h⟩ := bind_eq_ok h
    cases h
    exact formed_withOperand hx rfl nofun nofun fun _ => rfl
  | move =>
    obtain ⟨⟨s, d⟩, -, h⟩ := bind_eq_ok h
    obtain ⟨y, hy, h⟩ := bind_eq_ok h
    obtain ⟨x, hx, h⟩ := bind_eq_ok h
    cases h
    obtain ⟨mode, hm⟩ := withOperand_op .move x
    refine ⟨?_, withOperand_source rfl hx, fun _ _ => target_ne_bak hy, ?_⟩
    · show (withOperand .move x).op ≠ .missing
      rw [hm]
      nofun
    · show (withOperand .move x).op.isJump = true → _
      rw [hm]
      nofun
  | jump cond =>
    obtain ⟨p, hp, h⟩ := bind_eq_ok h
    cases h
    have hmem : p ∈ params := by rw [eq_of_one hp]; exact List.mem_singleton_self p
    exact ⟨nofun, nofun, nofun, fun _ => ⟨p, hmem, rfl⟩⟩

/-! ## Line by line -/

namespace Draft

/-- What holds of a draft after each line. -/
structure Sound (d : Draft) : Prop where
  instructions : ∀ i ∈ d.instructions, Formed (d.jumps.map Pending.label) i
  labels : ∀ name index, d.labels.find? name = some index → 0 ≤ index

variable {d d' : Draft} {line : Nat}

theorem Sound.empty : Sound {} where
  instructions _ h := absurd h List.not_mem_nil
  labels _ _ h := by rw [Labels.find?_nil] at h; cases h

/-- A label that is entered is new, and stands for the next instruction. -/
theorem addLabel_cases {l : Option Token} (h : d.addLabel l = .ok d') :
    (l = none ∧ d' = d) ∨ ∃ t, l = some t ∧ d.labels.find? t.text = none ∧
      d' = { d with labels := d.labels.insert t.text d.instructions.length } := by
  unfold addLabel at h
  split at h
  · cases h
    exact .inl ⟨rfl, rfl⟩
  · split at h
    · cases h
    · split at h
      · cases h
      · rename_i t _ hnew
        cases h
        exact .inr ⟨t, rfl, Option.not_isSome_iff_eq_none.mp hnew, rfl⟩

/-- There are no words, or an instruction is read from them and added. -/
theorem addWords_cases {words : List Token} (h : d.addWords line words = .ok d') :
    (words = [] ∧ d' = d) ∨ ∃ word params m i, words = word :: params ∧
      Mnemonic.ofName? word.text = some m ∧ instruction m word params = .ok i ∧
        d' = d.emit line i params := by
  unfold addWords at h
  split at h
  · cases h
    exact .inl ⟨rfl, rfl⟩
  · rename_i word params
    split at h
    · cases h
    · rename_i m hm
      obtain ⟨i, hi, h⟩ := bind_eq_ok h
      cases h
      exact .inr ⟨word, params, m, i, rfl, hm, hi, rfl⟩

/-- A line enters its label and then adds its words. -/
theorem addLine_parts {text : Bytes} (h : d.addLine line text = .ok d') :
    ∃ d₁, d.addLabel (SourceLine.parse text).label = .ok d₁ ∧
      d₁.addWords line (SourceLine.parse text).words = .ok d' := by
  unfold addLine at h
  split at h
  · cases h
  · split at h
    · cases h
    · rename_i hparsed
      cases h
      obtain ⟨d₁, hlabel, h⟩ := bind_eq_ok hparsed
      split at h
      · cases h
      · exact ⟨d₁, hlabel, h⟩

theorem Sound.addLabel {l : Option Token} (hd : d.Sound) (h : d.addLabel l = .ok d') :
    d'.Sound ∧ d'.instructions = d.instructions := by
  obtain ⟨-, rfl⟩ | ⟨l, -, -, rfl⟩ := addLabel_cases h
  · exact ⟨hd, rfl⟩
  · refine ⟨⟨hd.instructions, fun name index hi => ?_⟩, rfl⟩
    by_cases e : name = l.text
    · rw [e, Labels.find?_insert_self] at hi
      cases hi
      exact Int.natCast_nonneg _
    · rw [Labels.find?_insert_of_ne _ _ e] at hi
      exact hd.labels name index hi

theorem Sound.emit {i : Instruction} {params : List Token} (hd : d.Sound) (hi : Formed params i) :
    (d.emit line i params).Sound where
  labels := hd.labels
  instructions j hj := by
    rcases List.mem_append.mp hj with hj | hj
    · refine (hd.instructions j hj).mono fun _ t ht => ?_
      simp only [Draft.emit]
      split
      · rw [List.map_append]
        exact List.mem_append_left _ ht
      · exact ht
    · obtain rfl := List.mem_singleton.mp hj
      refine hi.mono fun h t ht => ?_
      simp only [Draft.emit, h, if_true, List.map_append, List.map_map]
      exact List.mem_append_right _ (List.mem_map.mpr ⟨t, ht, rfl⟩)

theorem Sound.addWords {words : List Token} (hd : d.Sound) (h : d.addWords line words = .ok d') :
    d'.Sound ∧ d'.instructions.length ≤ d.instructions.length + 1 := by
  obtain ⟨-, rfl⟩ | ⟨word, params, m, i, -, -, hi, rfl⟩ := addWords_cases h
  · exact ⟨hd, Nat.le_succ _⟩
  · exact ⟨hd.emit (formed_instruction hi), Nat.le_of_eq (by simp [Draft.emit])⟩

theorem Sound.addLine {text : Bytes} (hd : d.Sound) (h : d.addLine line text = .ok d') :
    d'.Sound ∧ d'.instructions.length ≤ d.instructions.length + 1 := by
  obtain ⟨d₁, hlabel, hwords⟩ := addLine_parts h
  obtain ⟨hd₁, hsame⟩ := hd.addLabel hlabel
  rw [← hsame]
  exact hd₁.addWords hwords

theorem Sound.addLines {texts : List Bytes} (hd : d.Sound) (h : d.addLines line texts = .ok d') :
    d'.Sound ∧ d'.instructions.length ≤ d.instructions.length + texts.length := by
  induction texts generalizing d line with
  | nil =>
    cases h
    exact ⟨hd, Nat.le_refl _⟩
  | cons text texts ih =>
    unfold Draft.addLines at h
    split at h
    · cases h
    · rename_i h₁
      obtain ⟨hd₁, hlen₁⟩ := hd.addLine h₁
      obtain ⟨hd₂, hlen₂⟩ := ih hd₁ h
      refine ⟨hd₂, ?_⟩
      rw [List.length_cons]
      omega

end Draft

/-! ## Whole sources -/

/-- The program of a source is that of the draft after its lines, in which all jumps have labels. -/
theorem assemble_parts {source : Bytes} {program : Program} (h : assemble source = .ok program) :
    (sourceLines source).length ≤ maxLines ∧ ∃ d : Draft,
      Draft.addLines {} 0 (sourceLines source) = .ok d ∧ d.undefined? = none ∧
        program = { instructions := d.instructions, labels := d.labels, lines := d.lines,
                    code := sourceLines source } := by
  unfold assemble assembleLines at h
  split at h
  · cases h
  · rename_i hlines
    split at h
    · cases h
    · rename_i d hd
      split at h
      · cases h
      · rename_i hjumps
        cases h
        exact ⟨Nat.not_lt.mp hlines, d, hd, hjumps, rfl⟩

theorem assemble_sound {source : Bytes} {program : Program} (h : assemble source = .ok program) :
    program.Sound ∧ program.instructions.length ≤ maxLines := by
  obtain ⟨hlines, d, hd, hj, rfl⟩ := assemble_parts h
  obtain ⟨hs, hlen⟩ := Draft.Sound.empty.addLines hd
  refine ⟨⟨fun i hi => ?_, hs.labels⟩, ?_⟩
  · have hf := hs.instructions i hi
    refine ⟨hf.present, hf.source, hf.destination, fun h => ?_⟩
    obtain ⟨t, ht, hl⟩ := hf.jump h
    obtain ⟨r, hr, rfl⟩ := List.mem_map.mp ht
    -- no jump was left whose label is not there
    have hfound := List.find?_eq_none.mp hj r hr
    rw [hl, Option.isNone_iff_eq_none] at hfound
    exact Option.isSome_iff_ne_none.mpr hfound
  · rw [List.length_nil] at hlen
    show d.instructions.length ≤ maxLines
    omega

/-- The program of any source is sound. -/
theorem compile_sound (source : Bytes) :
    (compile source).1.Sound ∧ (compile source).1.instructions.length ≤ maxLines := by
  rw [compile_eq]
  split
  · rename_i h
    exact assemble_sound h
  · refine ⟨⟨fun _ h => absurd h List.not_mem_nil, fun _ _ h => ?_⟩, Nat.zero_le _⟩
    rw [Program.ofCode, Labels.find?_nil] at h
    cases h

end Assembler

end NodeCube
