import NodeCube.Proofs.Site.Counter
import NodeCube.Proofs.Word.Shifts

/-!
# Steps in 32-bit arithmetic

Execution reckons with integers of any size. `Narrow.step` is a step in which the result of every
operation on integers has to fit 32 bits: each sum, difference, product, power and quotient on the
way to a new accumulator, and each sum on the way to a new program counter. It halts with
`Halt.overflow` at the first result that does not fit. There is none in a program of at most
`Narrow.maxSize` instructions, whatever the registers and the pipes, so the step is the same
(`Narrow.step_eq`).

The program counter is inside the program while an instruction is executed, and neither reading nor
writing moves it; that is all the sums need.
-/

namespace NodeCube

/-- Coming by an operand changes nothing that a program computes with. -/
theorem Execution.idle_of_operand {i : Instruction} {mode : Mode} {s s' : Site} {x : Option Word}
    (h : operand i mode s = .ok x s') : s.registers.Idle s'.registers := by
  cases mode with
  | immediate =>
    cases h
    exact ⟨rfl, rfl, rfl⟩
  | target => exact (fetch_ok h).1

/-- What ends a step in 32-bit arithmetic. -/
inductive Halt where
  | fault (f : Fault)
  /-- A result does not fit. -/
  | overflow
  deriving DecidableEq, Repr

/-- Something that happens at a site in 32-bit arithmetic. -/
abbrev Narrow (α : Type) := EStateM Halt Site α

/-- The integers that 32 bits in two's complement stand for. -/
def Fits32 (v : Int) : Prop := -2147483648 ≤ v ∧ v ≤ 2147483647

instance (v : Int) : Decidable (Fits32 v) := inferInstanceAs (Decidable (_ ∧ _))

namespace Narrow

variable {α β : Type}

/-- The outcome of an action as that of one in which all results fit. -/
def faulting : Outcome Fault Site α → Outcome Halt Site α
  | .ok x s => .ok x s
  | .error f s => .error (.fault f) s

/-- An action that does not reckon. -/
def lift (a : Action α) : Narrow α := fun s => faulting (a s)

/-- The result of an operation on integers. -/
def int (v : Int) : Narrow Int := fun s => if Fits32 v then .ok v s else .error .overflow s

/-! ## The step -/

/-- The word of the low 16 bits. -/
def wrap (v : Int) : Narrow Word := do
  let low ← int (v % 65536)
  return Word.wrap low

def shiftLeft (acc count : Word) : Narrow Word :=
  if count.toInt < 0 ∨ 15 < count.toInt then pure 0
  else do
    let factor ← int (Int.pow 2 count.toInt.toNat)
    let product ← int (acc.toInt * factor)
    wrap product

def shiftRight (acc count : Word) : Narrow Word :=
  if count.toInt < 0 ∨ 15 < count.toInt then pure (if acc.toInt < 0 then -1 else 0)
  else do
    let divisor ← int (Int.pow 2 count.toInt.toNat)
    let quotient ← int (acc.toInt / divisor)
    return Word.wrap quotient

def apply (acc v : Word) : Arith → Narrow Word
  | .add => do
    let sum ← int (acc.toInt + v.toInt)
    wrap sum
  | .sub => do
    let difference ← int (acc.toInt - v.toInt)
    wrap difference
  | .shiftLeft => shiftLeft acc v
  | .shiftRight => shiftRight acc v
  | .bitAnd => pure (acc &&& v)
  | .bitOr => pure (acc ||| v)
  | .bitXor => pure (acc ^^^ v)

def simple (r : Registers) : Simple → Narrow Registers
  | .negate => do
    let v ← int (-r.acc.toInt)
    let acc ← wrap v
    return { r with acc }
  | .invert => pure (Execution.simple .invert r)
  | .save => pure (Execution.simple .save r)
  | .swap => pure (Execution.simple .swap r)
  | .idle => pure r

def advance : Narrow Progress := do
  let r ← lift Action.registers
  let pc ← int (r.pc + 1)
  lift (Action.update ({ · with pc }))
  return .complete

def jumpBy (size : Nat) (offset : Word) : Narrow Progress := do
  let size ← int size
  let last ← int (size - 1)
  let r ← lift Action.registers
  let pc ← int (r.pc + offset.toInt)
  lift (Action.update ({ · with pc := min (max pc 0) last }))
  return .complete

def withOperand (i : Instruction) (mode : Mode) (k : Word → Narrow Progress) : Narrow Progress := do
  let v ← lift (Execution.operand i mode)
  match v with
  | none => return .waiting
  | some v => k v

def deliver (t : Target) (v : Word) : Narrow Progress := do
  let done ← lift (t.beginWrite v)
  if done then advance
  else
    lift (Action.update ({ · with writeInFlight := true }))
    return .waiting

def awaitTaken (t : Target) : Narrow Progress := do
  let writing ← lift t.isWriting
  if writing then return .waiting
  else
    lift (Action.update ({ · with writeInFlight := false }))
    advance

def move (i : Instruction) (mode : Mode) : Narrow Progress := do
  let r ← lift Action.registers
  if r.writeInFlight then awaitTaken i.destination
  else withOperand i mode (deliver i.destination)

def execute (program : Program) (i : Instruction) : Narrow Progress :=
  match i.op with
  | .missing => do
    let r ← lift Action.registers
    throw (.fault (.missingInstruction r.pc))
  | .simple op => do
    let r ← lift Action.registers
    let r ← simple r op
    lift (Action.update fun _ => r)
    advance
  | .arith op mode =>
    withOperand i mode fun v => do
      let r ← lift Action.registers
      let acc ← apply r.acc v op
      lift (Action.update ({ · with acc }))
      advance
  | .move mode => move i mode
  | .jump cond => do
    let r ← lift Action.registers
    if cond.holds r.acc then lift (Execution.jump program.labels i.label) else advance
  | .jumpBy mode => withOperand i mode (jumpBy program.instructions.length)

/-- One step of a program, whose size is an integer like any other. -/
def step (program : Program) : Narrow Unit := do
  let r ← lift Action.registers
  let _ ← int program.instructions.length
  let pc := Execution.startPc program.instructions.length r.pc
  match program.instructions[pc.toNat]? with
  | none => return ()
  | some i =>
    lift (Action.update ({ · with pc }))
    let progress ← execute program i
    lift (Action.update (Execution.conclude program.instructions.length progress))

/-! ## Results that fit -/

variable {s : Site}

theorem int_of_fits {v : Int} (h : Fits32 v) (s : Site) : int v s = .ok v s := if_pos h

theorem bind_int {v : Int} (h : Fits32 v) (k : Int → Narrow α) (s : Site) :
    (int v >>= k) s = k v s := Outcome.bind_ok (int_of_fits h s)

theorem wrap_eq (v : Int) (s : Site) : wrap v s = .ok (Word.wrap v) s := by
  have hfits : Fits32 (v % 65536) := by
    have hlow := Int.emod_nonneg v (show (65536 : Int) ≠ 0 by decide)
    have hhigh := Int.emod_lt_of_pos v (show (0 : Int) < 65536 by decide)
    exact ⟨by omega, by omega⟩
  have hword : Word.wrap (v % 65536) = Word.wrap v := by
    rw [← Int16.toInt_inj, Word.toInt_wrap, Word.toInt_wrap]
    exact Int.emod_bmod v 65536
  refine (bind_int hfits _ s).trans ?_
  exact congrArg (EStateM.Result.ok · s) hword

theorem pow_bounds : ∀ k < 16, 0 < Int.pow 2 k ∧ Int.pow 2 k ≤ 32768 := by decide

/-- The largest factor takes the smallest word to -2^30. -/
theorem fits32_mul (a : Word) {f : Int} (hf : 0 < f ∧ f ≤ 32768) : Fits32 (a.toInt * f) := by
  obtain ⟨hlow, hhigh⟩ := a.toInt_bounds
  have hl : -32768 * f ≤ a.toInt * f := Int.mul_le_mul_of_nonneg_right hlow (by omega)
  have hh : a.toInt * f ≤ 32767 * f := Int.mul_le_mul_of_nonneg_right hhigh (by omega)
  exact ⟨by omega, by omega⟩

theorem shiftLeft_eq (acc count : Word) (s : Site) :
    shiftLeft acc count s = .ok (acc.shiftLeft count) s := by
  unfold shiftLeft Word.shiftLeft
  split
  · rfl
  · rename_i hin
    have hpow := pow_bounds count.toInt.toNat (by omega)
    have hfactor : Fits32 (Int.pow 2 count.toInt.toNat) := ⟨by omega, by omega⟩
    refine (bind_int hfactor _ s).trans ((bind_int (fits32_mul acc hpow) _ s).trans ?_)
    exact wrap_eq _ s

theorem shiftRight_eq (acc count : Word) (s : Site) :
    shiftRight acc count s = .ok (acc.shiftRight count) s := by
  unfold shiftRight Word.shiftRight
  split
  · rfl
  · rename_i hin
    have hpow := pow_bounds count.toInt.toNat (by omega)
    have hdivisor : Fits32 (Int.pow 2 count.toInt.toNat) := ⟨by omega, by omega⟩
    obtain ⟨hlow, hhigh⟩ := acc.ediv_bounds hpow.1
    have hquotient : Fits32 (acc.toInt / Int.pow 2 count.toInt.toNat) := ⟨by omega, by omega⟩
    exact (bind_int hdivisor _ s).trans (bind_int hquotient _ s)

theorem apply_eq (op : Arith) (acc v : Word) (s : Site) :
    apply acc v op s = .ok (op.apply acc v) s := by
  have ha := acc.toInt_bounds
  have hv := v.toInt_bounds
  cases op with
  | add =>
    have hsum : Fits32 (acc.toInt + v.toInt) := ⟨by omega, by omega⟩
    exact (bind_int hsum _ s).trans (wrap_eq _ s)
  | sub =>
    have hdifference : Fits32 (acc.toInt - v.toInt) := ⟨by omega, by omega⟩
    exact (bind_int hdifference _ s).trans (wrap_eq _ s)
  | shiftLeft => exact shiftLeft_eq acc v s
  | shiftRight => exact shiftRight_eq acc v s
  | bitAnd => rfl
  | bitOr => rfl
  | bitXor => rfl

theorem simple_eq (op : Simple) (r : Registers) (s : Site) :
    simple r op s = .ok (Execution.simple op r) s := by
  cases op with
  | negate =>
    have ha := r.acc.toInt_bounds
    have hneg : Fits32 (-r.acc.toInt) := ⟨by omega, by omega⟩
    exact (bind_int hneg _ s).trans (Outcome.bind_ok (wrap_eq _ s))
  | invert => rfl
  | save => rfl
  | swap => rfl
  | idle => rfl

/-! ## The two steps agree -/

theorem bind_eq {n : Narrow α} {a : Action α} {k : α → Narrow β} {l : α → Action β}
    (hn : n s = faulting (a s)) (hk : ∀ x s', a s = .ok x s' → k x s' = faulting (l x s')) :
    (n >>= k) s = faulting ((a >>= l) s) := by
  cases ha : a s with
  | ok x s' =>
    rw [ha] at hn
    rw [Outcome.bind_ok hn, Outcome.bind_ok ha]
    exact hk x s' ha
  | error f s' =>
    rw [ha] at hn
    rw [Outcome.bind_error hn, Outcome.bind_error ha]
    rfl

/-- The largest number of instructions at which the index of the last one and the largest offset
have a sum that fits. -/
def maxSize : Nat := 2147450881

/-- The program counter is that of an instruction of a program that is not too long. -/
structure Within (size : Nat) (r : Registers) : Prop where
  room : size ≤ maxSize
  pc : 0 ≤ r.pc ∧ r.pc < size

theorem Within.of_pc {size : Nat} {r r' : Registers} (h : Within size r) (hpc : r'.pc = r.pc) :
    Within size r' := ⟨h.room, by rw [hpc]; exact h.pc⟩

section Agreement

variable {size : Nat} (h : Within size s.registers)
include h

theorem advance_eq : advance s = faulting (Execution.advance s) := by
  obtain ⟨hsize, hpc⟩ := h
  have hnext : Fits32 (s.registers.pc + 1) := by
    unfold maxSize at hsize
    exact ⟨by omega, by omega⟩
  refine (Outcome.bind_ok (s := s) rfl).trans ?_
  exact bind_int hnext _ s

theorem jumpBy_eq (offset : Word) :
    jumpBy size offset s = faulting (Execution.jumpBy size offset s) := by
  obtain ⟨hsize, hpc⟩ := h
  have ho := offset.toInt_bounds
  unfold maxSize at hsize
  have hcount : Fits32 size := ⟨by omega, by omega⟩
  have hlast : Fits32 ((size : Int) - 1) := ⟨by omega, by omega⟩
  have hpc' : Fits32 (s.registers.pc + offset.toInt) := ⟨by omega, by omega⟩
  refine (bind_int hcount _ s).trans ((bind_int hlast _ s).trans ?_)
  refine (Outcome.bind_ok (s := s) rfl).trans ?_
  exact bind_int hpc' _ s

theorem withOperand_eq {k : Word → Narrow Progress} {l : Word → Action Progress}
    (i : Instruction) (mode : Mode)
    (hk : ∀ v s', Within size s'.registers → k v s' = faulting (l v s')) :
    withOperand i mode k s = faulting (Execution.withOperand i mode l s) := by
  refine bind_eq rfl fun x s' hx => ?_
  cases x with
  | none => rfl
  | some v => exact hk v s' (h.of_pc (Execution.idle_of_operand hx).pc)

theorem deliver_eq (t : Target) (v : Word) :
    deliver t v s = faulting (Execution.deliver t v s) := by
  refine bind_eq rfl fun done s' hdone => ?_
  have hpc : s'.registers.pc = s.registers.pc := by
    by_cases ht : t = .acc
    · subst ht
      cases hdone
      rfl
    · exact (hdone ▸ t.writes_beginWrite s ht v).idle.pc
  cases done with
  | true => exact advance_eq (h.of_pc hpc)
  | false => rfl

theorem awaitTaken_eq (t : Target) : awaitTaken t s = faulting (Execution.awaitTaken t s) := by
  refine bind_eq rfl fun writing s' hwriting => ?_
  have hpc := (hwriting ▸ t.writes_isWriting s).idle.pc
  cases writing with
  | true => rfl
  | false =>
    refine bind_eq rfl fun _ s'' hupdate => ?_
    cases hupdate
    exact advance_eq (h.of_pc hpc)

theorem move_eq (i : Instruction) (mode : Mode) :
    move i mode s = faulting (Execution.move i mode s) := by
  refine bind_eq rfl fun r s' hr => ?_
  cases hr
  cases s.registers.writeInFlight with
  | true => exact awaitTaken_eq h i.destination
  | false =>
    exact withOperand_eq h i mode fun v s' h' => deliver_eq h' i.destination v

end Agreement

theorem execute_eq {program : Program} (i : Instruction)
    (h : Within program.instructions.length s.registers) :
    execute program i s = faulting (Execution.execute program i s) := by
  cases hop : i.op with
  | missing =>
    simp only [execute, Execution.execute, hop]
    rfl
  | simple op =>
    simp only [execute, Execution.execute, hop]
    have hpc : (Execution.simple op s.registers).pc = s.registers.pc := by cases op <;> rfl
    refine (Outcome.bind_ok (s := s) rfl).trans ?_
    refine (Outcome.bind_ok (simple_eq op s.registers s)).trans ?_
    exact advance_eq (s := s.setRegisters (Execution.simple op s.registers)) (h.of_pc hpc)
  | arith op mode =>
    simp only [execute, Execution.execute, hop]
    refine withOperand_eq h i mode fun v s' h' => ?_
    refine (Outcome.bind_ok (s := s') rfl).trans ?_
    refine (Outcome.bind_ok (apply_eq op s'.registers.acc v s')).trans ?_
    exact advance_eq (h'.of_pc rfl)
  | move mode =>
    simp only [execute, Execution.execute, hop]
    exact move_eq h i mode
  | jump cond =>
    simp only [execute, Execution.execute, hop]
    refine bind_eq rfl fun r s' hr => ?_
    cases hr
    cases cond.holds s.registers.acc with
    | true => rfl
    | false => exact advance_eq h
  | jumpBy mode =>
    simp only [execute, Execution.execute, hop]
    exact withOperand_eq h i mode fun v s' h' => jumpBy_eq h' v

/-- All results in a step of a program that is not too long fit 32 bits. -/
theorem step_eq {program : Program} (h : program.instructions.length ≤ maxSize) (s : Site) :
    step program s = faulting (program.step s) := by
  have hcount : Fits32 program.instructions.length := by
    unfold maxSize at h
    exact ⟨by omega, by omega⟩
  refine (Outcome.bind_ok (s := s) rfl).trans ((bind_int hcount _ s).trans ?_)
  cases hi : program.current? s.registers with
  | none =>
    rw [Program.step_of_none hi]
    simp only [Program.current?] at hi
    simp only [hi]
    rfl
  | some i =>
    have hne : program.instructions ≠ [] := List.ne_nil_of_mem (Program.mem_of_current? hi)
    have hpc := Program.startPc_bounds hne s.registers.pc
    rw [Program.step_of_current? hi]
    simp only [Program.current?] at hi
    simp only [hi]
    refine (Outcome.bind_ok (a := lift (Action.update _)) (s := s) rfl).trans ?_
    exact bind_eq (execute_eq i ⟨h, hpc⟩) fun _ _ _ => rfl

end Narrow

end NodeCube
