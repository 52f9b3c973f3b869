import NodeCube.Proofs.Site.Passages

/-!
# The turn of a node that waits

A node waits for its word to be taken or for a word to read, and then its next turn is given by one
equation. A word that was handed over at a port is still there, and nothing happens, or it is gone
and the `MOV` is done (`Program.Turned.eq_of_hands`). A node that waits for a word to read has filed
all its requests, so no pipe is ready and nothing happens, or it takes the word of the first pipe
that is ready and carries its instruction out (`Program.Turned.eq_of_listening`).
-/

namespace NodeCube

/-- A pipe shows a transfer if it was stepped with both requests on it. -/
theorem Phase.ofRequests_eq_transferring {write read : Bool} :
    ofRequests write read = .transferring ↔ write = true ∧ read = true := by
  cases write <;> cases read <;> simp [ofRequests]

/-- Whether an instruction hands a word over to a pipe. -/
def Instruction.delivers (i : Instruction) : Bool :=
  match i.op with
  | .move _ => i.destination.remote
  | _ => false

theorem Instruction.delivers_of_move {i : Instruction} {mode : Mode} (h : i.op = .move mode) :
    i.delivers = i.destination.remote := by
  simp only [delivers, h]

/-- What is left of an instruction that has its operand: a `MOV` to a pipe hands the word over or
keeps it back, and any other instruction is done. -/
def Program.carryOut (program : Program) (i : Instruction) (v : Word) (s : Site) : Site :=
  if i.delivers then
    match s.addressee? i.destination with
    | some p => (s.file i.destination p v).expect
    | none => (s.hold i.destination v).expect
  else s.setRegisters (program.done i v s.registers)

/-- The registers after a `MOV` whose word was taken. -/
def Program.delivered (program : Program) (r : Registers) : Registers :=
  { r with
    pc := Execution.wrapPc program.instructions.length (r.pc + 1)
    writeInFlight := false
    stalled := false }

namespace Program

variable {program : Program} {s s' : Site} {i : Instruction} {v : Word}

@[simp] theorem incoming_carryOut (p : Port) :
    (program.carryOut i v s).incoming p = s.incoming p := by
  unfold carryOut
  split
  · split <;> simp
  · rfl

/-- Carrying an instruction out takes no word from a pipe. -/
theorem took_mem_carryOut {p : Port} {w : Word} :
    .took p w ∈ (program.carryOut i v s).passed ↔ .took p w ∈ s.passed := by
  unfold carryOut
  split
  · split <;> simp
  · rfl

/-- Each turn of a node whose current instruction has no word under way listens, or it draws the
operand and carries the instruction out. -/
theorem Turned.listens_or_carries (h : program.Turned s s')
    (hi : program.current? s.registers = some i) (hf : s.registers.writeInFlight = false) :
    (i.op.readsSource = true ∧ i.source.remote = true ∧
      (s.attend i.source).chosen? i.source = none ∧
      s' = (s.attend i.source).setRegisters { s.registers with stalled := true }) ∨
      ∃ v s₁, s.Draws i v s₁ ∧ s' = program.carryOut i v s₁ := by
  cases h with
  | rests hn => cases hi.symm.trans hn
  | listens hj _ hs hr hc =>
    cases hi.symm.trans hj
    exact .inl ⟨hs, hr, hc, rfl⟩
  | @completes j v s₁ hj _ hm hd =>
    cases hi.symm.trans hj
    have hno : i.delivers = false := by
      unfold Instruction.delivers
      split
      · exact hm _ ‹_›
      · rfl
    refine .inr ⟨v, s₁, hd, ?_⟩
    rw [carryOut, hno, if_neg Bool.false_ne_true]
  | @keeps j _ v s₁ hj _ hm hr hd ha =>
    cases hi.symm.trans hj
    refine .inr ⟨v, s₁, hd, ?_⟩
    rw [carryOut, Instruction.delivers_of_move hm, if_pos hr, ha]
  | @files j _ v s₁ p hj _ hm hr hd ha =>
    cases hi.symm.trans hj
    refine .inr ⟨v, s₁, hd, ?_⟩
    rw [carryOut, Instruction.delivers_of_move hm, if_pos hr, ha]
  | expects _ hf' | commits _ hf' | finishes _ hf' => cases hf.symm.trans hf'

/-- A node that takes its word to wait at port `p`. -/
theorem Turned.eq_of_hands {p : Port} (h : program.Turned s s') (hfit : program.Fits s.registers)
    (hh : program.Hands s.registers p) :
    s' = if (s.outgoing p).writing then s else s.setRegisters (program.delivered s.registers) := by
  obtain ⟨hfl, hany, i, hi, hres⟩ := hh
  cases h with
  | rests hn => cases hi.symm.trans hn
  | listens _ hf | completes _ hf | keeps _ hf | files _ hf => cases hfl.symm.trans hf
  | expects hj _ _ hw =>
    cases hi.symm.trans hj
    rcases hw with ⟨q, -, hq, hw⟩ | hw | ⟨hd, hl⟩
    · cases Target.resolves_unique hres hq
      rw [if_pos hw, hfit.expect_eq hfl]
    · rw [hany] at hw
      cases hw
    · simp [hd, Target.resolves, hl] at hres
  | commits _ _ _ _ hv => cases hany.symm.trans hv
  | finishes hj _ _ _ hq hw =>
    cases hi.symm.trans hj
    cases Target.resolves_unique hres hq
    rw [if_neg (by simp [hw])]
    rfl

/-! ## Waiting for a word to read -/

/-- While the pipes show what is pending, the pipes that are ready are those that show a
transfer. -/
theorem Attends.chosen?_eq (ha : program.Attends s) (hu : s.Untaken)
    (hi : program.current? s.registers = some i)
    (hp : ∀ p, (s.incoming p).phase =
      Phase.ofRequests (s.incoming p).writing (s.incoming p).reading) :
    s.chosen? i.source = Port.all.find? fun p => (s.incoming p).phase == .transferring := by
  refine congrArg (List.find? · Port.all) (funext fun p => Bool.eq_iff_iff.mpr ?_)
  rw [Bool.and_eq_true, Pipe.ready_iff, beq_iff_eq]
  refine ⟨fun h => h.2.1, fun h => ?_⟩
  obtain ⟨hw, hr⟩ := Phase.ofRequests_eq_transferring.mp ((hp p).symm.trans h)
  exact ⟨(ha.hears hu hi hr).2, h, hw, hr, hu p⟩

section Listening

variable (ha : program.Attends s) (hst : s.registers.stalled = true)
  (hf : s.registers.writeInFlight = false) (hi : program.current? s.registers = some i)
  (hs : i.op.readsSource = true)
include ha hst hf hi hs

/-- The node has filed its requests already. -/
theorem Attends.attend_eq : s.attend i.source = s := by
  refine Site.ext_pipes rfl rfl (fun p => ?_) fun _ => rfl
  rw [Site.incoming_attend]
  cases hr : (s.incoming p).reading with
  | true => rw [Bool.true_or, ← hr]
  | false =>
    have hno : s.opens i.source p = false := by
      cases hh : i.source.hears s.registers.last p with
      | false => simp [Site.opens, hh]
      | true => cases hr.symm.trans ((ha p).mpr ⟨hst, hf, i, hi, hs, hh⟩).1
    rw [Bool.false_or, hno, ← hr]

/-- If no pipe is ready nothing happens. Else the node takes the word of the first one and carries
its instruction out. -/
theorem Turned.eq_of_listening (h : program.Turned s s') (hr : i.source.remote = true) :
    s.chosen? i.source = none ∧ s' = s ∨ ∃ p, s.chosen? i.source = some p ∧
      s' = program.carryOut i (s.incoming p).value (s.grab i.source p) := by
  have hsame := ha.attend_eq hst hf hi hs
  rcases h.listens_or_carries hi hf with ⟨-, -, hc, rfl⟩ | ⟨v, s₁, hd, rfl⟩
  · rw [hsame] at hc ⊢
    refine .inl ⟨hc, ?_⟩
    show { s with registers := { s.registers with stalled := true } } = s
    rw [← hst]
  · cases hd with
    | literal hs' => cases hs.symm.trans hs'
    | instant _ hv =>
      have hbak : i.source ≠ .bak := fun e => by rw [e] at hr; cases hr
      rw [(Target.instant?_eq_none_iff hbak).mpr hr] at hv
      cases hv
    | @taken p _ _ hp =>
      rw [hsame] at hp ⊢
      exact .inr ⟨p, hp, rfl⟩

end Listening

end Program

end NodeCube
