import NodeCube.Proofs.Site.Writing

/-!
# One step of a program

All that a step of a program can do at a site, said once. `Program.Turned` lists the ways: nothing,
waiting for a word to read, completing, handing a word over, waiting for that word to be taken, and
going on after it was taken. A sound program whose registers fit it (`Program.Fits`) does one of
them, or it hands a word over where a word waits already (`Program.Collides`): that is the only way
to fault (`Program.step_cases`). If the only write request at the site is the one that the registers
know of (`Program.Hands`), it does not happen (`Program.step_turned`).
-/

namespace NodeCube

/-! ## Sound programs -/

/-- An instruction that can be executed in a program with the given labels. -/
structure Instruction.Sound (labels : Labels) (i : Instruction) : Prop where
  present : i.op ≠ .missing
  source : i.op.readsSource = true → i.source ≠ .bak
  destination : ∀ mode, i.op = .move mode → i.destination ≠ .bak
  label : i.op.isJump = true → (labels.find? i.label).isSome = true

/-- A program all of whose instructions can be executed. -/
structure Program.Sound (program : Program) : Prop where
  instructions : ∀ i ∈ program.instructions, i.Sound program.labels
  labels : ∀ name index, program.labels.find? name = some index → 0 ≤ index

namespace Program

variable (program : Program) (r : Registers)

/-- The instruction that the next step executes. -/
def current? : Option Instruction :=
  program.instructions[(Execution.startPc program.instructions.length r.pc).toNat]?

/-- The program counter is that of an instruction, or zero. -/
def PcFits : Prop := 0 ≤ r.pc ∧ (r.pc < program.instructions.length ∨ r.pc = 0)

/-- Registers that a run of the program can lead to. -/
structure Fits : Prop where
  pc : program.PcFits r
  /-- Only a `MOV` to a pipe has a word under way. -/
  flight : r.writeInFlight = true → r.stalled = true ∧
    ∃ i mode, program.current? r = some i ∧ i.op = .move mode ∧ i.destination.remote = true
  /-- Only `ANY` holds a word. -/
  held : r.anyWrite.isSome = true → r.writeInFlight = true ∧
    ∀ i, program.current? r = some i → i.destination = .any
  /-- `ANY` holds its word until it has chosen a port. -/
  chosen : r.writeInFlight = true → r.anyWrite = none →
    ∀ i, program.current? r = some i → i.destination = .any → r.last.isSome = true
  /-- Apart from that, a node waits only for a word to read. -/
  waits : r.stalled = true → r.writeInFlight = false →
    ∃ i, program.current? r = some i ∧ i.op.readsSource = true ∧ i.source.remote = true

/-- The registers say that a word waits at port `p` to be taken. -/
def Hands (p : Port) : Prop :=
  r.writeInFlight = true ∧ r.anyWrite = none ∧
    ∃ i, program.current? r = some i ∧ i.destination.resolves r.last p = true

variable {program r}

theorem startPc_eq {i : Instruction} (h : program.PcFits r) (hi : program.current? r = some i) :
    Execution.startPc program.instructions.length r.pc = r.pc := by
  obtain ⟨h0, hlt | hz⟩ := h
  · exact if_pos ⟨h0, hlt⟩
  · have hlen := (List.getElem?_eq_some_iff.mp hi).1
    unfold Execution.startPc at hlen ⊢
    split
    · rfl
    · exact hz.symm

theorem current?_of_pc {r' : Registers} {i : Instruction} (h : r'.pc = r.pc)
    (hi : program.current? r = some i) : program.current? r' = some i := by
  simpa only [current?, h] using hi

theorem mem_of_current? {i : Instruction} (h : program.current? r = some i) :
    i ∈ program.instructions := List.mem_of_getElem? h

theorem wrapPc_fits {size : Nat} {pc : Int} (h : 0 ≤ pc) :
    0 ≤ Execution.wrapPc size pc ∧
      (Execution.wrapPc size pc < size ∨ Execution.wrapPc size pc = 0) := by
  unfold Execution.wrapPc
  split
  · exact ⟨Int.le_refl 0, .inr rfl⟩
  · exact ⟨h, .inl (by omega)⟩

end Program

/-! ## The ways of a step -/

/-- How an instruction comes by its operand `v`, and the site after that. -/
inductive Site.Draws (s : Site) (i : Instruction) : Word → Site → Prop
  /-- The operand is in the instruction, or there is none. -/
  | literal (h : i.op.readsSource = false) : Draws s i i.value s
  | instant {v : Word} (h : i.op.readsSource = true) (hv : i.source.instant? s.registers = some v) :
    Draws s i v (s.note (.read i.source v))
  | taken {p : Port} (h : i.op.readsSource = true) (hr : i.source.remote = true)
    (hp : (s.attend i.source).chosen? i.source = some p) :
    Draws s i (s.incoming p).value ((s.attend i.source).grab i.source p)

namespace Site.Draws

variable {s s₁ : Site} {i : Instruction} {v : Word}

theorem outgoing (h : s.Draws i v s₁) (p : Port) : s₁.outgoing p = s.outgoing p := by
  cases h <;> rfl

theorem registers (h : s.Draws i v s₁) :
    s₁.registers = { s.registers with last := s₁.registers.last } := by
  cases h with
  | literal => rfl
  | instant => rfl
  | taken =>
    rw [registers_grab]
    split <;> rfl

theorem pc (h : s.Draws i v s₁) : s₁.registers.pc = s.registers.pc := by rw [h.registers]

theorem site_of_literal (h : s.Draws i v s₁) (hr : i.op.readsSource = false) : s₁ = s := by
  cases h with
  | literal => rfl
  | instant h | taken h => cases hr.symm.trans h

end Site.Draws

/-- The registers after an instruction that hands nothing over, given its operand. -/
def Execution.effect (program : Program) (i : Instruction) (v : Word) (r : Registers) : Registers :=
  match i.op with
  | .missing => r
  | .simple op => next (simple op r)
  | .arith op _ => next { r with acc := op.apply r.acc v }
  | .move _ => next { r with acc := if i.destination = .acc then v else r.acc }
  | .jump cond =>
    if cond.holds r.acc then { r with pc := (program.labels.find? i.label).getD 0 } else next r
  | .jumpBy _ =>
    { r with pc := min (max (r.pc + v.toInt) 0) (program.instructions.length - 1) }

/-- The registers after a step that is done with such an instruction. -/
def Program.done (program : Program) (i : Instruction) (v : Word) (r : Registers) : Registers :=
  Execution.conclude program.instructions.length .complete (Execution.effect program i v r)

theorem Execution.effect_eq (program : Program) (i : Instruction) (v : Word) (r : Registers) :
    effect program i v r = { r with
      pc := (effect program i v r).pc
      acc := (effect program i v r).acc
      bak := (effect program i v r).bak } := by
  unfold effect
  split
  · rfl
  · rename_i op _
    cases op <;> rfl
  · rfl
  · rfl
  · split <;> rfl
  · rfl

/-- What is done leaves the requests alone. -/
theorem Program.done_eq (program : Program) (i : Instruction) (v : Word) (r : Registers) :
    program.done i v r = { r with
      pc := (program.done i v r).pc
      acc := (program.done i v r).acc
      bak := (program.done i v r).bak
      stalled := false } := by
  unfold done
  rw [Execution.effect_eq]
  rfl

/-- What a step of a program at a site can lead to. -/
inductive Program.Turned (program : Program) (s : Site) : Site → Prop
  /-- There is no instruction. -/
  | rests (h : program.current? s.registers = none) : Turned program s s
  /-- The operand is not there yet. -/
  | listens {i : Instruction} (hi : program.current? s.registers = some i)
    (hf : s.registers.writeInFlight = false) (hs : i.op.readsSource = true)
    (hr : i.source.remote = true) (hc : (s.attend i.source).chosen? i.source = none) :
    Turned program s ((s.attend i.source).setRegisters { s.registers with stalled := true })
  /-- The instruction is done. -/
  | completes {i : Instruction} {v : Word} {s₁ : Site}
    (hi : program.current? s.registers = some i) (hf : s.registers.writeInFlight = false)
    (hm : ∀ mode, i.op = .move mode → i.destination.remote = false) (hd : s.Draws i v s₁)
    (hp : program.PcFits (program.done i v s₁.registers)) :
    Turned program s (s₁.setRegisters (program.done i v s₁.registers))
  /-- A `MOV` has its word but cannot hand it over yet. -/
  | keeps {i : Instruction} {mode : Mode} {v : Word} {s₁ : Site}
    (hi : program.current? s.registers = some i) (hf : s.registers.writeInFlight = false)
    (hm : i.op = .move mode) (hr : i.destination.remote = true) (hd : s.Draws i v s₁)
    (ha : s₁.addressee? i.destination = none) :
    Turned program s (s₁.hold i.destination v).expect
  /-- A `MOV` hands its word over. -/
  | files {i : Instruction} {mode : Mode} {v : Word} {s₁ : Site} {p : Port}
    (hi : program.current? s.registers = some i) (hf : s.registers.writeInFlight = false)
    (hm : i.op = .move mode) (hr : i.destination.remote = true) (hd : s.Draws i v s₁)
    (ha : s₁.addressee? i.destination = some p) (hw : (s₁.outgoing p).writing = false) :
    Turned program s (s₁.file i.destination p v).expect
  /-- The word was not taken yet, or `ANY` still finds nobody, or `LAST` has no port. -/
  | expects {i : Instruction} {mode : Mode} (hi : program.current? s.registers = some i)
    (hf : s.registers.writeInFlight = true) (hm : i.op = .move mode)
    (hw : (∃ p, s.registers.anyWrite = none ∧
        i.destination.resolves s.registers.last p = true ∧ (s.outgoing p).writing = true) ∨
      s.registers.anyWrite.isSome = true ∨
      i.destination = .last ∧ s.registers.last = none) : Turned program s s.expect
  /-- `ANY` hands over the word that it held. -/
  | commits {i : Instruction} {mode : Mode} {v : Word} {p : Port}
    (hi : program.current? s.registers = some i) (hf : s.registers.writeInFlight = true)
    (hm : i.op = .move mode) (ht : i.destination = .any)
    (hv : s.registers.anyWrite = some v) (hl : AnyPort.listener? s = some p) :
    Turned program s (s.file .any p v).expect
  /-- The word was taken, and the `MOV` is done. -/
  | finishes {i : Instruction} {mode : Mode} {p : Port}
    (hi : program.current? s.registers = some i) (hf : s.registers.writeInFlight = true)
    (hm : i.op = .move mode) (hv : s.registers.anyWrite = none)
    (ht : i.destination.resolves s.registers.last p = true) (hw : (s.outgoing p).writing = false) :
    Turned program s (s.setRegisters { s.registers with
      pc := Execution.wrapPc program.instructions.length (s.registers.pc + 1)
      writeInFlight := false
      stalled := false })

/-- A `MOV` is about to hand a word over at port `p`, where a word waits already. -/
structure Program.Collides (program : Program) (s : Site) (p : Port) : Prop where
  flight : s.registers.writeInFlight = false
  move : ∃ i mode v s₁, program.current? s.registers = some i ∧ i.op = .move mode ∧
    s.Draws i v s₁ ∧ s₁.addressee? i.destination = some p
  busy : (s.outgoing p).writing = true

namespace Program

open Execution

variable {program : Program} {s s₁ : Site} {i : Instruction}

/-- A step executes an instruction and notes how that ended. A program counter outside the program
is set to zero before. -/
theorem step_of_current? (hi : program.current? s.registers = some i) :
    program.step s = (execute program i >>= fun x =>
        Action.update (conclude program.instructions.length x))
      (s.setRegisters { s.registers with
        pc := startPc program.instructions.length s.registers.pc }) := by
  refine (Outcome.bind_ok (s := s) rfl).trans ?_
  simp only [current?] at hi
  simp only [hi]
  exact Outcome.bind_ok (s := s) rfl

/-- A step executes the instruction at the program counter and notes how that ended. -/
theorem step_eq (h : program.PcFits s.registers) (hi : program.current? s.registers = some i) :
    program.step s = (execute program i >>= fun x =>
      Action.update (conclude program.instructions.length x)) s := by
  rw [step_of_current? hi, startPc_eq h hi]
  rfl

theorem step_of_execute {x : Progress} (h : program.PcFits s.registers)
    (hi : program.current? s.registers = some i) (he : execute program i s = .ok x s₁) :
    program.step s = .ok () (s₁.setRegisters
      (conclude program.instructions.length x s₁.registers)) :=
  (step_eq h hi).trans (Outcome.bind_ok he)

theorem step_of_error {e : Fault} (h : program.PcFits s.registers)
    (hi : program.current? s.registers = some i) (he : execute program i s = .error e s₁) :
    program.step s = .error e s₁ := (step_eq h hi).trans (Outcome.bind_error he)

/-- A step whose instruction has to wait. -/
theorem step_of_waiting (h : program.PcFits s.registers)
    (hi : program.current? s.registers = some i) (he : execute program i s = .ok .waiting s₁)
    (hp : s₁.registers.pc = s.registers.pc) :
    program.step s = .ok () (s₁.setRegisters { s₁.registers with stalled := true }) := by
  refine (step_of_execute h hi he).trans (Outcome.ok_congr rfl (congrArg _ ?_))
  have hlt : s.registers.pc < program.instructions.length := by
    have hlen := (List.getElem?_eq_some_iff.mp hi).1
    rw [startPc_eq h hi] at hlen
    omega
  simp only [conclude, wrapPc, hp, if_neg (Int.not_le.mpr hlt)]
  rfl

/-- Execution goes on with the operand that is drawn. -/
theorem withOperand_of_draws {mode : Mode} {v : Word} (hu : i.source = .any → s.Untaken)
    (hb : i.op.readsSource = true → i.source ≠ .bak)
    (hm : mode = .target ↔ i.op.readsSource = true) (hd : s.Draws i v s₁)
    (k : Word → Action Progress) : withOperand i mode k s = k v s₁ := by
  cases mode with
  | immediate =>
    cases hd with
    | literal => rfl
    | instant h => cases hm.mpr h
    | taken h => cases hm.mpr h
  | target =>
    have hs := hm.mp rfl
    have hf := fetch_eq (hb hs) hu
    cases hd with
    | literal h => cases hs.symm.trans h
    | instant _ hv =>
      rw [hv] at hf
      exact Outcome.bind_ok hf
    | taken _ hr hp =>
      rw [(Target.instant?_eq_none_iff (hb hs)).mpr hr, hp] at hf
      exact Outcome.bind_ok hf

/-- Execution waits for an operand that is not there. -/
theorem withOperand_of_none (hu : i.source = .any → s.Untaken) (hb : i.source ≠ .bak)
    (hr : i.source.remote = true) (hc : (s.attend i.source).chosen? i.source = none)
    (k : Word → Action Progress) :
    withOperand i .target k s = .ok .waiting (s.attend i.source) := by
  have hf := fetch_eq hb hu
  rw [(Target.instant?_eq_none_iff hb).mpr hr, hc] at hf
  exact Outcome.bind_ok hf

/-- The operand of an instruction is not there, or it can be drawn. -/
theorem listens_or_draws (hb : i.op.readsSource = true → i.source ≠ .bak) :
    (i.op.readsSource = true ∧ i.source.remote = true ∧
      (s.attend i.source).chosen? i.source = none) ∨ ∃ v s₁, s.Draws i v s₁ := by
  cases hs : i.op.readsSource with
  | false => exact .inr ⟨i.value, s, .literal hs⟩
  | true =>
    cases hi : i.source.instant? s.registers with
    | some v => exact .inr ⟨v, _, .instant hs hi⟩
    | none =>
      have hr := (Target.instant?_eq_none_iff (hb hs)).mp hi
      cases hc : (s.attend i.source).chosen? i.source with
      | some p => exact .inr ⟨_, _, .taken hs hr hc⟩
      | none => exact .inl ⟨rfl, hr, rfl⟩

theorem step_of_none (h : program.current? s.registers = none) : program.step s = .ok () s := by
  refine (Outcome.bind_ok (s := s) rfl).trans ?_
  simp only [current?] at h
  simp only [h]
  rfl

/-- A `MOV` whose word is under way asks whether it was taken. -/
theorem execute_flight (program : Program) {mode : Mode} (hm : i.op = .move mode)
    (hw : s.registers.writeInFlight = true) :
    execute program i s = awaitTaken i.destination s := by
  simp only [execute, hm]
  refine (Outcome.bind_ok (s := s) rfl).trans ?_
  simp only [hw, if_true]

/-- A `MOV` that has no word under way yet draws its operand and delivers it. -/
theorem execute_move (program : Program) {mode : Mode} (hm : i.op = .move mode)
    (hw : s.registers.writeInFlight = false) :
    execute program i s = withOperand i mode (deliver i.destination) s := by
  simp only [execute, hm]
  refine (Outcome.bind_ok (s := s) rfl).trans ?_
  simp only [hw, Bool.false_eq_true, if_false]

theorem mode_eq_target_iff {mode : Mode}
    (h : i.op = .move mode ∨ i.op = .jumpBy mode ∨ ∃ op, i.op = .arith op mode) :
    mode = .target ↔ i.op.readsSource = true := by
  rcases h with h | h | ⟨op, h⟩ <;> rw [h] <;> cases mode <;> simp [Operation.readsSource]

section Operands

variable (hs : i.Sound program.labels) (hw : s.registers.writeInFlight = false)
  (hu : i.source = .any → s.Untaken)
include hs hw hu

/-- An instruction whose operand is not there. -/
theorem execute_of_none (hr : i.op.readsSource = true) (ht : i.source.remote = true)
    (hc : (s.attend i.source).chosen? i.source = none) :
    execute program i s = .ok .waiting (s.attend i.source) := by
  have hwait := withOperand_of_none hu (hs.source hr) ht hc
  cases hop : i.op with
  | missing | simple | jump => rw [hop] at hr; cases hr
  | arith op mode =>
    cases (mode_eq_target_iff (.inr (.inr ⟨op, hop⟩))).mpr hr
    simp only [execute, hop, hwait]
  | move mode =>
    cases (mode_eq_target_iff (.inl hop)).mpr hr
    rw [execute_move program hop hw, hwait]
  | jumpBy mode =>
    cases (mode_eq_target_iff (.inr (.inl hop))).mpr hr
    simp only [execute, hop, hwait]

/-- An instruction that has its operand and hands nothing over. -/
theorem execute_of_draws {v : Word}
    (hn : ∀ mode, i.op = .move mode → i.destination.remote = false) (hd : s.Draws i v s₁) :
    execute program i s = .ok .complete (s₁.setRegisters (effect program i v s₁.registers)) := by
  have hgo : ∀ mode, (mode = .target ↔ i.op.readsSource = true) →
      ∀ k, withOperand i mode k s = k v s₁ :=
    fun mode hm => withOperand_of_draws hu hs.source hm hd
  cases hop : i.op with
  | missing => exact absurd hop hs.present
  | simple op =>
    obtain rfl := hd.site_of_literal (by rw [hop]; rfl)
    simp only [execute, effect, hop]
    rfl
  | arith op mode =>
    simp only [execute, effect, hop]
    exact hgo mode (mode_eq_target_iff (.inr (.inr ⟨op, hop⟩))) _
  | move mode =>
    rw [execute_move program hop hw, hgo mode (mode_eq_target_iff (.inl hop))]
    have hr := hn mode hop
    simp only [effect, hop]
    cases hdest : i.destination with
    | acc | nil => rfl
    | bak => exact absurd hdest (hs.destination mode hop)
    | port p | any | last => rw [hdest] at hr; cases hr
  | jump cond =>
    obtain rfl := hd.site_of_literal (by rw [hop]; rfl)
    obtain ⟨index, hl⟩ := Option.isSome_iff_exists.mp (hs.label (by rw [hop]; rfl))
    simp only [execute, effect, hop]
    refine (Outcome.bind_ok (s := s₁) rfl).trans ?_
    cases cond.holds s₁.registers.acc with
    | true => simp only [if_true, jump, hl]; rfl
    | false => rfl
  | jumpBy mode =>
    simp only [execute, effect, hop]
    exact hgo mode (mode_eq_target_iff (.inr (.inl hop))) _

end Operands

/-- The program counter stays in the program. -/
theorem pcFits_done (hp : program.Sound) {r : Registers} (h : 0 ≤ r.pc)
    (hi : i ∈ program.instructions) (v : Word) : program.PcFits (program.done i v r) := by
  refine wrapPc_fits ?_
  unfold effect
  split
  · exact h
  · rename_i op _
    cases op <;> exact Int.le_add_one h
  · exact Int.le_add_one h
  · exact Int.le_add_one h
  · split
    · cases hl : program.labels.find? i.label with
      | none => exact Int.le_refl 0
      | some index => exact hp.labels _ _ hl
    · exact Int.le_add_one h
  · have hlen := List.length_pos_of_mem hi
    dsimp only
    omega

section Ways

variable (hf : program.Fits s.registers) (hi : program.current? s.registers = some i)
include hf hi

/-- A word that is under way and is not held waits at a port, unless `LAST` has none. -/
theorem Fits.resolves_of_flight (hw : s.registers.writeInFlight = true)
    (hr : i.destination.remote = true) (hv : s.registers.anyWrite = none) :
    (∃ p, i.destination.resolves s.registers.last p = true) ∨
      i.destination = .last ∧ s.registers.last = none := by
  cases hd : i.destination with
  | acc | bak | nil => rw [hd] at hr; cases hr
  | port p => exact .inl ⟨p, beq_self_eq_true p⟩
  | any =>
    obtain ⟨p, hp⟩ := Option.isSome_iff_exists.mp (hf.chosen hw hv i hi hd)
    exact .inl ⟨p, beq_iff_eq.mpr hp⟩
  | last =>
    cases hl : s.registers.last with
    | none => exact .inr ⟨rfl, rfl⟩
    | some p => exact .inl ⟨p, beq_self_eq_true _⟩

/-- The step of a `MOV` to `ANY` that holds its word. -/
theorem turned_of_held {mode : Mode} {v : Word} (hw : s.registers.writeInFlight = true)
    (hm : i.op = .move mode) (hv : s.registers.anyWrite = some v) :
    ∃ s', program.step s = .ok () s' ∧ program.Turned s s' := by
  have hany := (hf.held (by rw [hv]; rfl)).2 i hi
  have hexec := execute_flight program hm hw
  rw [hany] at hexec
  cases hl : AnyPort.listener? s with
  | none =>
    have he := hexec.trans (awaitTaken_of_waiting (Target.isWriting_any_of_none hv hl))
    refine ⟨_, step_of_waiting hf.pc hi he rfl, ?_⟩
    rw [← Site.expect_of_flight hw]
    exact .expects hi hw hm (.inr (.inl (by rw [hv]; rfl)))
  | some p =>
    have he := hexec.trans (awaitTaken_of_waiting (Target.isWriting_any_of_listener hv hl))
    refine ⟨_, step_of_waiting hf.pc hi he rfl, ?_⟩
    rw [← Site.expect_of_flight (s := s.file .any p v) hw]
    exact .commits hi hw hm hany hv hl

/-- The step of a `MOV` whose word waits at a port, or would if `LAST` had one. -/
theorem turned_of_handed {mode : Mode} (hw : s.registers.writeInFlight = true)
    (hm : i.op = .move mode) (hr : i.destination.remote = true)
    (hv : s.registers.anyWrite = none) :
    ∃ s', program.step s = .ok () s' ∧ program.Turned s s' := by
  have hexec := execute_flight program hm hw
  rcases hf.resolves_of_flight hi hw hr hv with ⟨p, hp⟩ | ⟨hd, hl⟩
  · have hwr := Target.isWriting_of_resolves hp hv
    cases ho : (s.outgoing p).writing with
    | true =>
      rw [ho] at hwr
      refine ⟨_, step_of_waiting hf.pc hi (hexec.trans (awaitTaken_of_waiting hwr)) rfl, ?_⟩
      rw [← Site.expect_of_flight hw]
      exact .expects hi hw hm (.inl ⟨p, hv, hp, ho⟩)
    | false =>
      rw [ho] at hwr
      refine ⟨_, step_of_execute hf.pc hi (hexec.trans (awaitTaken_of_taken hwr)), ?_⟩
      exact .finishes hi hw hm hv hp ho
  · have hwr : i.destination.isWriting s = .ok true s := by
      rw [hd]
      exact Target.atLast_none hl
    refine ⟨_, step_of_waiting hf.pc hi (hexec.trans (awaitTaken_of_waiting hwr)) rfl, ?_⟩
    rw [← Site.expect_of_flight hw]
    exact .expects hi hw hm (.inr (.inr ⟨hd, hl⟩))

variable (hw : s.registers.writeInFlight = false) (hu : i.source = .any → s.Untaken)
include hw hu

/-- The step of a `MOV` that has the word for a pipe. -/
theorem turned_of_move {mode : Mode} {v : Word} (hs : i.Sound program.labels)
    (hm : i.op = .move mode) (hr : i.destination.remote = true) (hd : s.Draws i v s₁) :
    (∃ s', program.step s = .ok () s' ∧ program.Turned s s') ∨
      ∃ p s', program.step s = .error (.concurrentWrite p) s' ∧ program.Collides s p := by
  have hexec := execute_move program hm hw
  rw [withOperand_of_draws hu hs.source (mode_eq_target_iff (.inl hm)) hd] at hexec
  cases ha : s₁.addressee? i.destination with
  | none =>
    have he := hexec.trans (deliver_of_waiting (Target.beginWrite_of_none hr ha))
    exact .inl ⟨_, step_of_waiting hf.pc hi he ((s₁.pc_hold _ v).trans hd.pc),
      .keeps hi hw hm hr hd ha⟩
  | some p =>
    cases hp : (s₁.outgoing p).writing with
    | false =>
      have he := hexec.trans (deliver_of_waiting (Target.beginWrite_of_free ha hp))
      exact .inl ⟨_, step_of_waiting hf.pc hi he ((s₁.pc_file _ p v).trans hd.pc),
        .files hi hw hm hr hd ha hp⟩
    | true =>
      have he := hexec.trans (deliver_of_error (Target.beginWrite_of_busy ha hp))
      refine .inr ⟨p, s₁, step_of_error hf.pc hi he, hw, ⟨i, mode, v, s₁, hi, hm, hd, ha⟩, ?_⟩
      rw [← hd.outgoing]
      exact hp

/-- The step of an instruction that has no word under way. -/
theorem turned_of_idle (hp : program.Sound) :
    (∃ s', program.step s = .ok () s' ∧ program.Turned s s') ∨
      ∃ p s', program.step s = .error (.concurrentWrite p) s' ∧ program.Collides s p := by
  have hs := hp.instructions i (mem_of_current? hi)
  rcases listens_or_draws (s := s) hs.source with ⟨hr, ht, hc⟩ | ⟨v, s₁, hd⟩
  · have he := execute_of_none hs hw hu hr ht hc
    exact .inl ⟨_, step_of_waiting hf.pc hi he rfl, .listens hi hw hr ht hc⟩
  · by_cases hm : ∃ mode, i.op = .move mode ∧ i.destination.remote = true
    · obtain ⟨mode, hm, hr⟩ := hm
      exact turned_of_move hf hi hw hu hs hm hr hd
    · have hn : ∀ mode, i.op = .move mode → i.destination.remote = false := by
        intro mode hmode
        cases hr : i.destination.remote with
        | false => rfl
        | true => exact absurd ⟨mode, hmode, hr⟩ hm
      have he := execute_of_draws hs hw hu hn hd
      have hpc : 0 ≤ s₁.registers.pc := hd.pc ▸ hf.pc.1
      exact .inl ⟨_, step_of_execute hf.pc hi he,
        .completes hi hw hn hd (pcFits_done hp hpc (mem_of_current? hi) v)⟩

end Ways

/-- A step of a sound program is one of the ways of `Turned`, or it collides. -/
theorem step_cases (hp : program.Sound)
    (hu : ∀ i, program.current? s.registers = some i → i.source = .any → s.Untaken)
    (hf : program.Fits s.registers) :
    (∃ s', program.step s = .ok () s' ∧ program.Turned s s') ∨
      ∃ p s', program.step s = .error (.concurrentWrite p) s' ∧ program.Collides s p := by
  cases hi : program.current? s.registers with
  | none => exact .inl ⟨s, step_of_none hi, .rests hi⟩
  | some i =>
    cases hw : s.registers.writeInFlight with
    | true =>
      obtain ⟨-, j, mode, hj, hm, hr⟩ := hf.flight hw
      cases hi.symm.trans hj
      cases hv : s.registers.anyWrite with
      | some v => exact .inl (turned_of_held hf hi hw hm hv)
      | none => exact .inl (turned_of_handed hf hi hw hm hr hv)
    | false => exact turned_of_idle hf hi hw (hu i hi) hp

/-- A step that collides faults. -/
theorem Collides.step_eq {p : Port} (h : program.Collides s p) (hp : program.Sound)
    (hu : s.Untaken) (hf : program.PcFits s.registers) :
    ∃ s', program.step s = .error (.concurrentWrite p) s' := by
  obtain ⟨i, mode, v, s₁, hi, hm, hd, ha⟩ := h.move
  have hexec := execute_move program hm h.flight
  have hmode := mode_eq_target_iff (.inl hm)
  have hs := hp.instructions i (mem_of_current? hi)
  rw [withOperand_of_draws (fun _ => hu) hs.source hmode hd] at hexec
  have hbusy : (s₁.outgoing p).writing = true := by rw [hd.outgoing]; exact h.busy
  exact ⟨s₁, step_of_error hf hi
    (hexec.trans (deliver_of_error (Target.beginWrite_of_busy ha hbusy)))⟩

/-- Where the registers know of all write requests, a step does not fault. -/
theorem step_turned (hp : program.Sound)
    (hu : ∀ i, program.current? s.registers = some i → i.source = .any → s.Untaken)
    (hf : program.Fits s.registers)
    (ho : ∀ p, (s.outgoing p).writing = true → program.Hands s.registers p) :
    ∃ s', program.step s = .ok () s' ∧ program.Turned s s' := by
  refine (step_cases hp hu hf).resolve_right fun ⟨p, _, _, hc⟩ => ?_
  cases hc.flight.symm.trans (ho p hc.busy).1

end Program

end NodeCube
