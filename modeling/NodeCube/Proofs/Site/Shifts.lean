import NodeCube.Proofs.Site.Narrow

/-!
# Steps that shift

A step whose instruction has its operand, be it in the instruction or read from a target, applies
its operation to the accumulator and that operand (`Program.Applies.step`). So the laws of shifts
are laws of steps: `SHL` multiplies by a power of two modulo 2^16 and `SHR` divides by one and
rounds down, for all counts from zero on, and two steps in a row shift by the sum of their counts
(`Program.shifts_exact`).
-/

namespace NodeCube

namespace Program

/-- The site at the instruction that the next step executes. -/
def poised (program : Program) (s : Site) : Site :=
  s.setRegisters { s.registers with
    pc := Execution.startPc program.instructions.length s.registers.pc }

/-- The next step applies `op` to the accumulator and `v`, which stands in the instruction or is
there to be read. -/
def Applies (program : Program) (op : Arith) (v : Word) (s : Site) : Prop :=
  ∃ i mode s₁, program.current? s.registers = some i ∧ i.op = .arith op mode ∧
    Execution.operand i mode (program.poised s) = .ok (some v) s₁

variable {program : Program} {op : Arith} {v : Word} {s s' : Site}

theorem Applies.step (h : program.Applies op v s) :
    ∃ s', program.step s = .ok () s' ∧ s'.registers.acc = op.apply s.registers.acc v := by
  obtain ⟨i, mode, s₁, hi, hop, hv⟩ := h
  have hacc : s₁.registers.acc = (program.poised s).registers.acc :=
    (Execution.idle_of_operand hv).acc
  have hexecute : Execution.execute program i (program.poised s) = .ok .complete
      (s₁.setRegisters { s₁.registers with
        acc := op.apply s₁.registers.acc v
        pc := s₁.registers.pc + 1 }) := by
    simp only [Execution.execute, hop]
    exact Outcome.bind_ok hv
  refine ⟨_, (step_of_current? hi).trans (Outcome.bind_ok hexecute), ?_⟩
  show op.apply s₁.registers.acc v = op.apply s.registers.acc v
  rw [hacc]
  rfl

theorem Applies.acc_eq (h : program.Applies op v s) (hs : program.step s = .ok () s') :
    s'.registers.acc = op.apply s.registers.acc v := by
  obtain ⟨s₁, hstep, hacc⟩ := h.step
  cases hstep.symm.trans hs
  exact hacc

/-- A shift in two steps is one by the sum of the counts. -/
theorem acc_of_two_shifts {p₁ p₂ p₃ : Program} {j k : Word} {s₁ s₂ t : Site}
    (hop : op = .shiftLeft ∨ op = .shiftRight) (hj : 0 ≤ j.toInt) (hk : 0 ≤ k.toInt)
    (hjk : j.toInt + k.toInt ≤ 32767) (h₁ : p₁.Applies op j s) (hs₁ : p₁.step s = .ok () s₁)
    (h₂ : p₂.Applies op k s₁) (hs₂ : p₂.step s₁ = .ok () s₂) (h₃ : p₃.Applies op (j.add k) s)
    (ht : p₃.step s = .ok () t) : s₂.registers.acc = t.registers.acc := by
  rw [h₂.acc_eq hs₂, h₁.acc_eq hs₁, h₃.acc_eq ht]
  rcases hop with rfl | rfl
  · exact Word.shiftLeft_shiftLeft hj hk hjk _
  · exact Word.shiftRight_shiftRight hj hk hjk _

/-- No program of the assembler is too long for 32-bit arithmetic. -/
theorem compile_le_maxSize (source : Bytes) :
    (Assembler.compile source).1.instructions.length ≤ Narrow.maxSize :=
  Nat.le_trans (Assembler.compile_sound source).2 (by decide)

/-- A step that shifts yields the product with 2^`k` modulo 2^16, or the quotient by 2^`k` rounded
down, whether `k` stands in the instruction or is read; for negative `k` it yields zero, or the
sign. Two such steps are one with the sum of their counts. The results on the way of every step fit
32 bits, if the program has at most `Narrow.maxSize` instructions, as each that is assembled has. -/
theorem shifts_exact :
    (∀ (program : Program) (k : Word) (s : Site), program.Applies .shiftLeft k s →
      ∃ s', program.step s = .ok () s' ∧
        (0 ≤ k.toInt → s'.registers.acc.toInt =
          (s.registers.acc.toInt * 2 ^ k.toInt.toNat).bmod 65536) ∧
        (k.toInt < 0 → s'.registers.acc = 0)) ∧
    (∀ (program : Program) (k : Word) (s : Site), program.Applies .shiftRight k s →
      ∃ s', program.step s = .ok () s' ∧
        (0 ≤ k.toInt → s'.registers.acc.toInt = s.registers.acc.toInt / 2 ^ k.toInt.toNat) ∧
        (k.toInt < 0 → s'.registers.acc = if s.registers.acc.toInt < 0 then -1 else 0)) ∧
    (∀ (op : Arith) (p₁ p₂ p₃ : Program) (j k : Word) (s s₁ s₂ t : Site),
      op = .shiftLeft ∨ op = .shiftRight →
      0 ≤ j.toInt → 0 ≤ k.toInt → j.toInt + k.toInt ≤ 32767 →
      p₁.Applies op j s → p₁.step s = .ok () s₁ → p₂.Applies op k s₁ → p₂.step s₁ = .ok () s₂ →
      p₃.Applies op (j.add k) s → p₃.step s = .ok () t → s₂.registers.acc = t.registers.acc) ∧
    (∀ (program : Program) (s : Site), program.instructions.length ≤ Narrow.maxSize →
      Narrow.step program s = Narrow.faulting (program.step s)) ∧
    ∀ source : Bytes, (Assembler.compile source).1.instructions.length ≤ Narrow.maxSize := by
  refine ⟨fun program k s h => ?_, fun program k s h => ?_, fun _ _ _ _ _ _ _ _ _ _ => ?_,
    fun program s h => Narrow.step_eq h s, compile_le_maxSize⟩
  · obtain ⟨s', hstep, hacc⟩ := h.step
    refine ⟨s', hstep, fun hk => ?_, fun hk => ?_⟩
    · rw [hacc]
      exact Word.toInt_shiftLeft _ hk
    · rw [hacc]
      exact Word.shiftLeft_of_neg _ hk
  · obtain ⟨s', hstep, hacc⟩ := h.step
    refine ⟨s', hstep, fun hk => ?_, fun hk => ?_⟩
    · rw [hacc]
      exact Word.toInt_shiftRight _ hk
    · rw [hacc]
      exact Word.shiftRight_of_neg _ hk
  · exact acc_of_two_shifts

/-- `SHL LEFT` and `SHL 3`. -/
def twoShifts : Program where
  instructions :=
    [{ op := .arith .shiftLeft .target, source := .port .left },
      { op := .arith .shiftLeft .immediate, value := 3 }]

/-- `SHL 17`. -/
def oneShift : Program where
  instructions := [{ op := .arith .shiftLeft .immediate, value := 17 }]

end Program

/-- A site with 14 to be read at its left port. -/
def Site.fourteen : Site where
  registers := { acc := -3 }
  ports :=
    { incoming := (PerPort.replicate {}).set .left ⟨.transferring, true, true, false, 14⟩
      outgoing := PerPort.replicate {} }

/-- Shifts by 14 and 3, neither of them beyond 15, are one by 17, which is. -/
theorem Program.shifts_exact_across : ∃ s₁ s₂ t : Site,
    twoShifts.Applies .shiftLeft 14 .fourteen ∧ twoShifts.step .fourteen = .ok () s₁ ∧
    s₁.registers.acc.toInt = (-3 * 2 ^ 14 : Int).bmod 65536 ∧
    twoShifts.Applies .shiftLeft 3 s₁ ∧ twoShifts.step s₁ = .ok () s₂ ∧
    oneShift.Applies .shiftLeft (Word.add 14 3) .fourteen ∧ oneShift.step .fourteen = .ok () t ∧
    s₂.registers.acc = t.registers.acc ∧
    twoShifts.instructions.length ≤ Narrow.maxSize ∧
    Narrow.step twoShifts .fourteen = Narrow.faulting (twoShifts.step .fourteen) := by
  obtain ⟨hleft, -, htwo, hnarrow, -⟩ := shifts_exact
  have h₁ : twoShifts.Applies .shiftLeft 14 .fourteen := ⟨_, .target, _, rfl, rfl, rfl⟩
  obtain ⟨s₁, hs₁, hacc, -⟩ := hleft twoShifts 14 .fourteen h₁
  have h₂ : twoShifts.Applies .shiftLeft 3 s₁ := by
    cases hs₁
    exact ⟨_, .immediate, _, rfl, rfl, rfl⟩
  obtain ⟨s₂, hs₂, -⟩ := hleft twoShifts 3 s₁ h₂
  have h₃ : oneShift.Applies .shiftLeft (Word.add 14 3) .fourteen :=
    ⟨_, .immediate, _, rfl, rfl, rfl⟩
  obtain ⟨t, ht, -⟩ := hleft oneShift _ .fourteen h₃
  have hsize : twoShifts.instructions.length ≤ Narrow.maxSize := by decide
  exact ⟨s₁, s₂, t, h₁, hs₁, hacc (by decide), h₂, hs₂, h₃, ht,
    htwo .shiftLeft twoShifts twoShifts oneShift 14 3 .fourteen s₁ s₂ t (.inl rfl) (by decide)
      (by decide) (by decide) h₁ hs₁ h₂ hs₂ h₃ ht, hsize, hnarrow twoShifts .fourteen hsize⟩

end NodeCube
