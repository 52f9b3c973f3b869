import NodeCube.Machine
import NodeCube.Proofs.Assembler.Soundness
import NodeCube.Proofs.Site.Turn

/-!
# Where the program counter goes

What a step that does not fault makes of the program counter, the accumulator and its backup,
whatever the registers and the pipes were (`Program.Paced`). An instruction that waits leaves all
three alone. One that is done leads to the next instruction, to its label or as far as its operand
says (`Program.Leads`); past the end comes the top, but an offset stops at the ends. Nothing is
asked of the pipes here, so `Execution.fetch_eq`, which asks of `ANY` that no word was taken yet,
is of use only for the other targets.
-/

namespace NodeCube

/-- The registers that a program computes with are as they were. -/
structure Registers.Idle (r r' : Registers) : Prop where
  pc : r'.pc = r.pc
  acc : r'.acc = r.acc
  bak : r'.bak = r.bak

theorem Registers.Idle.trans {a b c : Registers} (h : a.Idle b) (h' : b.Idle c) : a.Idle c :=
  ⟨h'.pc.trans h.pc, h'.acc.trans h.acc, h'.bak.trans h.bak⟩

/-! ## Operands -/

/-- The word at a target for a node with the given registers and pipes, where `last` is the port
that `ANY` chose last. -/
def Target.wordAt? (r : Registers) (ports : Ports) (last : Option Port) : Target → Option Word
  | .acc => some r.acc
  | .bak => none
  | .nil => some 0
  | .port p => some (ports.incoming.get p).value
  | .any | .last => last.map fun p => (ports.incoming.get p).value

/-- The word that the operand of an instruction stands for. -/
def Instruction.operandAt? (i : Instruction) (r : Registers) (ports : Ports) (last : Option Port) :
    Mode → Option Word
  | .immediate => some i.value
  | .target => i.source.wordAt? r ports last

namespace Execution

variable {t : Target} {s s' : Site} {i : Instruction} {mode : Mode} {x : Progress}

theorem fetch_any_cases (s : Site) :
    (∃ s', fetch .any s = .ok none s' ∧ s'.registers = s.registers) ∨
    ∃ p s', fetch .any s = .ok (some (s.incoming p).value) s' ∧
      s'.registers = { s.registers with last := some p } := by
  have hr : Target.any.isReading s =
      .ok (Port.all.any fun q => (s.incoming q).reading) s := rfl
  have hbegin := beginRead_any s
  cases hready : AnyPort.readyPort? (s.attend .any) with
  | none =>
    have hcan : Target.any.canTransfer (s.attend .any) = .ok false (s.attend .any) := by
      refine (Outcome.bind_ok (x := none) ?_).trans rfl
      exact congrArg (EStateM.Result.ok · _) hready
    exact .inl ⟨_, fetch_run hr hbegin hcan, rfl⟩
  | some p =>
    have hsettle := AnyPort.settleOn_run p (s.attend .any)
    generalize hs₂ : Site.mapIncoming _ _ = s₂ at hsettle
    have hcan : Target.any.canTransfer (s.attend .any) = .ok true s₂ := by
      refine (Outcome.bind_ok (x := some p) ?_).trans (Outcome.bind_ok hsettle)
      exact congrArg (EStateM.Result.ok · _) hready
    -- the port that `ANY` settles on is left as it was
    have hpipe : s₂.incoming p = (s.attend .any).incoming p := by simp [← hs₂]
    have hregs : s₂.registers = { s.registers with last := some p } := by
      rw [← hs₂]
      rfl
    have hp : (s₂.incoming p).ready = true := by
      rw [hpipe]
      exact List.find?_some (p := fun p => ((s.attend .any).incoming p).ready) hready
    have hword := (AnyPort.read_of_last (by rw [hregs]) hp).trans (Port.read_of_ready hp)
    have hv : (s₂.incoming p).value = (s.incoming p).value := by
      rw [hpipe, Site.incoming_attend]
    exact .inr ⟨p, _, (fetch_of_word hr hbegin hcan hword).trans
      (Outcome.ok_congr (congrArg some hv) rfl), hregs⟩

theorem fetch_ok {v : Option Word} (h : fetch t s = .ok v s') :
    s.registers.Idle s'.registers ∧
      ∀ w, v = some w → t.wordAt? s.registers s.ports s'.registers.last = some w := by
  by_cases hb : t = .bak
  · subst hb
    cases h
  by_cases ha : t = .any
  · subst ha
    rcases fetch_any_cases s with ⟨s₁, hf, hr⟩ | ⟨p, s₁, hf, hr⟩
    · cases hf.symm.trans h
      rw [hr]
      exact ⟨⟨rfl, rfl, rfl⟩, by simp⟩
    · cases hf.symm.trans h
      rw [hr]
      refine ⟨⟨rfl, rfl, rfl⟩, ?_⟩
      rintro w ⟨⟩
      rfl
  rw [fetch_eq hb fun e => absurd e ha] at h
  cases hi : t.instant? s.registers with
  | some v =>
    rw [hi] at h
    cases h
    refine ⟨⟨rfl, rfl, rfl⟩, ?_⟩
    rintro w ⟨⟩
    cases t <;> first | exact hi | cases hi
  | none =>
    rw [hi] at h
    cases hc : (s.attend t).chosen? t with
    | none =>
      simp only [hc] at h
      cases h
      exact ⟨⟨rfl, rfl, rfl⟩, by simp⟩
    | some p =>
      simp only [hc] at h
      cases h
      rw [Site.registers_grab, if_neg ha]
      refine ⟨⟨rfl, rfl, rfl⟩, ?_⟩
      rintro w ⟨⟩
      have hh := (Site.chosen?_eq_some _ hc).1
      cases t with
      | acc | nil => cases hi
      | bak => exact absurd rfl hb
      | any => exact absurd rfl ha
      | port q =>
        cases beq_iff_eq.mp hh
        rfl
      | last =>
        have hl : s.registers.last = some p := beq_iff_eq.mp hh
        simp only [Target.wordAt?, Site.registers_attend, hl]
        rfl

theorem withOperand_ok {k : Word → Action Progress} (h : withOperand i mode k s = .ok x s') :
    x = .waiting ∧ s.registers.Idle s'.registers ∨
    ∃ v s₁, s.registers.Idle s₁.registers ∧
      i.operandAt? s.registers s.ports s₁.registers.last mode = some v ∧ k v s₁ = .ok x s' := by
  cases mode with
  | immediate => exact .inr ⟨i.value, s, ⟨rfl, rfl, rfl⟩, rfl, h⟩
  | target =>
    obtain ⟨v, s₁, hf, hk⟩ := Outcome.ok_of_bind h
    obtain ⟨hr, hv⟩ := fetch_ok hf
    cases v with
    | none =>
      cases hk
      exact .inl ⟨rfl, hr⟩
    | some v => exact .inr ⟨v, s₁, hr, hv v rfl, hk⟩

end Execution

/-! ## Writing -/

/-- Only a write to `ACC` changes what a program computes with. -/
theorem Site.Writes.idle {s s' : Site} {b : Bool} (h : s.Writes (.ok b s')) :
    s.registers.Idle s'.registers := by
  cases h with
  | rests => exact ⟨rfl, rfl, rfl⟩
  | holds t v =>
    rw [registers_hold]
    split <;> exact ⟨rfl, rfl, rfl⟩
  | files t v b hw =>
    rw [registers_file]
    split <;> exact ⟨rfl, rfl, rfl⟩

/-- A `MOV` that has its word waits, or it is done and goes on to the next instruction. -/
inductive Execution.Moves (r : Registers) : Progress → Registers → Prop
  | waits {r' : Registers} (h : r.Idle r') : Moves r .waiting r'
  | goes {r' : Registers} (hpc : r'.pc = r.pc + 1) (hbak : r'.bak = r.bak) : Moves r .complete r'

namespace Execution

variable {t : Target} {s s' : Site} {v : Word} {x : Progress}

theorem deliver_ok (h : deliver t v s = .ok x s') : Moves s.registers x s'.registers := by
  by_cases ht : t = .acc
  · subst ht
    cases h
    exact .goes rfl rfl
  · obtain ⟨b, s₁, hb, hk⟩ := Outcome.ok_of_bind h
    have hi := (hb ▸ t.writes_beginWrite s ht v).idle
    cases b with
    | true =>
      cases hk
      exact .goes (congrArg (· + 1) hi.pc) hi.bak
    | false =>
      cases hk
      exact .waits ⟨hi.pc, hi.acc, hi.bak⟩

theorem awaitTaken_ok (h : awaitTaken t s = .ok x s') : Moves s.registers x s'.registers := by
  obtain ⟨b, s₁, hb, hk⟩ := Outcome.ok_of_bind h
  have hi := (hb ▸ t.writes_isWriting s).idle
  cases b with
  | true =>
    cases hk
    exact .waits hi
  | false =>
    cases hk
    exact .goes (congrArg (· + 1) hi.pc) hi.bak

theorem move_ok {program : Program} {i : Instruction} {mode : Mode} (hop : i.op = .move mode)
    (h : execute program i s = .ok x s') : Moves s.registers x s'.registers := by
  cases hw : s.registers.writeInFlight with
  | true =>
    rw [Program.execute_flight program hop hw] at h
    exact awaitTaken_ok h
  | false =>
    rw [Program.execute_move program hop hw] at h
    rcases withOperand_ok h with ⟨rfl, hi⟩ | ⟨v, s₁, hi, -, hk⟩
    · exact .waits hi
    · cases deliver_ok hk with
      | waits hd => exact .waits (hi.trans hd)
      | goes hpc hbak => exact .goes (hpc.trans (congrArg (· + 1) hi.pc)) (hbak.trans hi.bak)

end Execution

/-! ## Instructions -/

namespace Program

/-- Where the program counter goes from instruction `i`, executed at `r.pc`. -/
inductive Leads (program : Program) (i : Instruction) (r : Registers) (ports : Ports)
    (last : Option Port) : Int → Prop
  /-- To the next instruction, and from the last one to the first. -/
  | next (hj : ∀ cond, i.op = .jump cond → cond.holds r.acc = false)
    (ho : ∀ mode, i.op ≠ .jumpBy mode) :
    Leads program i r ports last
      (if r.pc + 1 = program.instructions.length then 0 else r.pc + 1)
  /-- To a label, or to the first instruction if none follows the label. -/
  | label {cond : Condition} {index : Int} (h : i.op = .jump cond)
    (hc : cond.holds r.acc = true) (hl : program.labels.find? i.label = some index) :
    Leads program i r ports last (if index < program.instructions.length then index else 0)
  /-- As far as the operand says, but no further than the first and the last instruction. -/
  | offset {mode : Mode} {v : Word} (h : i.op = .jumpBy mode)
    (hv : i.operandAt? r ports last mode = some v) :
    Leads program i r ports last
      (min (max (r.pc + v.toInt) 0) (program.instructions.length - 1))

variable {program : Program} {i : Instruction} {r r' : Registers} {ports : Ports}
  {last : Option Port} {pc : Int}

/-- An instruction that goes on to the next one. -/
theorem Leads.of_next (h : r.pc < program.instructions.length)
    (hj : ∀ cond, i.op = .jump cond → cond.holds r.acc = false)
    (ho : ∀ mode, i.op ≠ .jumpBy mode) (hpc : pc = r.pc + 1) :
    program.Leads i r ports last (Execution.wrapPc program.instructions.length pc) := by
  have hw : Execution.wrapPc program.instructions.length pc =
      if r.pc + 1 = program.instructions.length then 0 else r.pc + 1 := by
    unfold Execution.wrapPc
    split <;> split <;> omega
  rw [hw]
  exact .next hj ho

theorem Leads.of_label {cond : Condition} {index : Int} (h : i.op = .jump cond)
    (hc : cond.holds r.acc = true) (hl : program.labels.find? i.label = some index) :
    program.Leads i r ports last (Execution.wrapPc program.instructions.length index) := by
  have hw : Execution.wrapPc program.instructions.length index =
      if index < program.instructions.length then index else 0 := by
    unfold Execution.wrapPc
    split <;> split <;> omega
  rw [hw]
  exact .label h hc hl

/-- The wrap never comes into play after an offset. -/
theorem Leads.of_offset {mode : Mode} {v : Word} (h : i.op = .jumpBy mode)
    (hv : i.operandAt? r ports last mode = some v)
    (hpc : pc = min (max (r.pc + v.toInt) 0) (program.instructions.length - 1)) :
    program.Leads i r ports last (Execution.wrapPc program.instructions.length pc) := by
  have hw : Execution.wrapPc program.instructions.length pc = pc := by
    unfold Execution.wrapPc
    split <;> omega
  rw [hw, hpc]
  exact .offset h hv

theorem Leads.bounds (h : program.Leads i r ports last pc) (hp : program.Sound)
    (hr : 0 ≤ r.pc ∧ r.pc < program.instructions.length) :
    0 ≤ pc ∧ pc < program.instructions.length := by
  cases h with
  | next =>
    split <;> omega
  | label _ _ hl =>
    have := hp.labels _ _ hl
    split <;> omega
  | offset => omega

/-- An instruction waits and leaves what the program computes with alone, or it is done and leads
somewhere. -/
theorem execute_ok {s s' : Site} {x : Progress}
    (hr : 0 ≤ s.registers.pc ∧ s.registers.pc < program.instructions.length)
    (h : Execution.execute program i s = .ok x s') :
    x = .waiting ∧ s.registers.Idle s'.registers ∨
      x = .complete ∧
      program.Leads i s.registers s.ports s'.registers.last
        (Execution.wrapPc program.instructions.length s'.registers.pc) ∧
      (s'.registers.bak ≠ s.registers.bak → i.op = .simple .save ∨ i.op = .simple .swap) := by
  have hnext : (∀ cond, i.op = .jump cond → cond.holds s.registers.acc = false) →
      (∀ mode, i.op ≠ .jumpBy mode) → s'.registers.pc = s.registers.pc + 1 →
      program.Leads i s.registers s.ports s'.registers.last
        (Execution.wrapPc program.instructions.length s'.registers.pc) :=
    fun hj ho => Leads.of_next hr.2 hj ho
  cases hop : i.op with
  | missing =>
    simp only [Execution.execute, hop] at h
    cases h
  | simple op =>
    simp only [Execution.execute, hop] at h
    cases h
    refine .inr ⟨rfl, hnext (by simp [hop]) (by simp [hop]) ?_, ?_⟩
    · cases op <;> rfl
    · intro hb
      cases op with
      | save => exact .inl rfl
      | swap => exact .inr rfl
      | negate | invert | idle => exact absurd rfl hb
  | arith op mode =>
    simp only [Execution.execute, hop] at h
    rcases Execution.withOperand_ok h with hwait | ⟨v, s₁, hi, -, hk⟩
    · exact .inl hwait
    · cases hk
      exact .inr ⟨rfl, hnext (by simp [hop]) (by simp [hop]) (congrArg (· + 1) hi.pc),
        fun hb => absurd hi.bak hb⟩
  | move mode =>
    cases Execution.move_ok hop h with
    | waits hi => exact .inl ⟨rfl, hi⟩
    | goes hpc hbak =>
      exact .inr ⟨rfl, hnext (by simp [hop]) (by simp [hop]) hpc, fun hb => absurd hbak hb⟩
  | jump cond =>
    simp only [Execution.execute, hop] at h
    replace h := (Outcome.bind_ok (s := s) rfl).symm.trans h
    cases hc : cond.holds s.registers.acc with
    | true =>
      simp only [hc, if_true, Execution.jump] at h
      cases hl : program.labels.find? i.label with
      | none =>
        rw [hl] at h
        cases h
      | some index =>
        rw [hl] at h
        cases h
        exact .inr ⟨rfl, .of_label hop hc hl, fun hb => absurd rfl hb⟩
    | false =>
      simp only [hc, Bool.false_eq_true, if_false] at h
      cases h
      refine .inr ⟨rfl, hnext ?_ (by simp [hop]) rfl, fun hb => absurd rfl hb⟩
      rintro cond' e
      cases hop.symm.trans e
      exact hc
  | jumpBy mode =>
    simp only [Execution.execute, hop] at h
    rcases Execution.withOperand_ok h with hwait | ⟨v, s₁, hi, hv, hk⟩
    · exact .inl hwait
    · cases hk
      refine .inr ⟨rfl, .of_offset hop hv ?_, fun hb => absurd hi.bak hb⟩
      rw [← hi.pc]
      rfl

/-- What a step that does not fault makes of the registers, if it executes `i` at `r.pc`. -/
structure Paced (program : Program) (i : Instruction) (r : Registers) (ports : Ports)
    (r' : Registers) : Prop where
  pc : 0 ≤ r'.pc ∧ r'.pc < program.instructions.length
  waits : r'.stalled = true → r'.pc = r.pc ∧ r'.acc = r.acc ∧ r'.bak = r.bak
  goes : r'.stalled = false → program.Leads i r ports r'.last r'.pc
  bak : r'.bak ≠ r.bak → i.op = .simple .save ∨ i.op = .simple .swap

theorem startPc_bounds (h : program.instructions ≠ []) (pc : Int) :
    0 ≤ Execution.startPc program.instructions.length pc ∧
      Execution.startPc program.instructions.length pc < program.instructions.length := by
  have := List.length_pos_iff.mpr h
  unfold Execution.startPc
  split <;> omega

theorem step_paced {s s' : Site} (hp : program.Sound) (hne : program.instructions ≠ [])
    (h : program.step s = .ok () s') :
    ∃ i, program.current? s.registers = some i ∧
      program.Paced i { s.registers with
        pc := Execution.startPc program.instructions.length s.registers.pc } s.ports
        s'.registers := by
  have hb := startPc_bounds hne s.registers.pc
  obtain ⟨i, hi⟩ : ∃ i, program.current? s.registers = some i := by
    refine ⟨_, List.getElem?_eq_getElem (by omega)⟩
  rw [step_of_current? hi] at h
  obtain ⟨x, s₁, he, hk⟩ := Outcome.ok_of_bind h
  cases hk
  refine ⟨i, hi, ?_⟩
  rcases execute_ok hb he with ⟨rfl, hidle⟩ | ⟨rfl, hl, hbak⟩
  · -- a program counter inside the program is kept by the wrap
    have hpc : Execution.wrapPc program.instructions.length s₁.registers.pc =
        Execution.startPc program.instructions.length s.registers.pc := by
      rw [hidle.pc]
      exact if_neg (Int.not_le.mpr hb.2)
    refine ⟨?_, fun _ => ⟨hpc, hidle.acc, hidle.bak⟩, fun hs => ?_, fun hb => ?_⟩
    · show 0 ≤ Execution.wrapPc _ _ ∧ Execution.wrapPc _ _ < _
      rw [hpc]
      exact hb
    · cases hs
    · exact absurd hidle.bak hb
  · refine ⟨hl.bounds hp hb, fun hs => ?_, fun _ => hl, hbak⟩
    cases hs

end Program

/-- After a step of a compiled program that does not fault, the program counter is that of an
instruction. A step that has to wait leaves it, the accumulator and its backup alone; any other goes
on as the instruction says, and only `SAV` and `SWP` change the backup. -/
theorem Machine.step_counter (source : Bytes) (m m' : Machine) (ports ports' : Ports)
    (hp : Assembler.assemble source = .ok m.program) (hne : m.program.instructions ≠ [])
    (h : Machine.step (m, ports) = .ok () (m', ports')) :
    ∃ (pc : Int) (i : Instruction),
      pc = (if 0 ≤ m.registers.pc ∧ m.registers.pc < m.program.instructions.length
        then m.registers.pc else 0) ∧
      m.program.instructions[pc.toNat]? = some i ∧
      m.program.Paced i { m.registers with pc := pc } ports m'.registers := by
  have hs := (Assembler.assemble_sound hp).1
  cases ho : m.program.step { registers := m.registers, ports } with
  | error e s' =>
    simp only [step, act, ho] at h
    cases h
  | ok u s' =>
    simp only [step, act, ho] at h
    cases h
    obtain ⟨i, hi, hpaced⟩ := Program.step_paced hs hne ho
    exact ⟨_, i, rfl, hi, hpaced⟩

/-- A machine whose program counter is past the end of its program. -/
def Machine.overrun : Machine where
  program :=
    { instructions := [{ op := .jumpBy .target, source := .any }, { op := .simple .swap }]
      lines := [0, 1]
      code := [ascii "JRO ANY", ascii "SWP"] }
  registers := { pc := 9, acc := 2 }

/-- A word to read at the left port, and at the right one a word that was taken. -/
def Ports.halfTaken : Ports where
  incoming := ((PerPort.replicate {}).set .left ⟨.transferring, true, true, false, 5⟩).set .right
    ⟨.transferring, true, true, true, 7⟩
  outgoing := PerPort.replicate {}

/-- The machine starts over with its `JRO`, which goes 5 instructions on: to the last one. -/
theorem Machine.step_counter_overrun :
    Assembler.assemble (ascii "JRO ANY\nSWP") = .ok overrun.program ∧
    overrun.program.instructions ≠ [] ∧
    ∃ m' ports', Machine.step (overrun, .halfTaken) = .ok () (m', ports') ∧
      overrun.program.Paced { op := .jumpBy .target, source := .any } { pc := 0, acc := 2 }
        .halfTaken m'.registers ∧
      m'.registers.pc = 1 ∧ m'.registers.stalled = false := by
  have hp : Assembler.assemble (ascii "JRO ANY\nSWP") = .ok overrun.program := rfl
  have hne : overrun.program.instructions ≠ [] := by decide
  have h : Machine.step (overrun, .halfTaken) =
      .ok () (Outcome.state (Machine.step (overrun, .halfTaken))) := rfl
  obtain ⟨pc, i, hpc, hi, hpaced⟩ := step_counter _ overrun _ .halfTaken _ hp hne h
  cases hpc
  cases hi
  exact ⟨hp, hne, _, _, h, hpaced, by decide, by decide⟩

end NodeCube
