import NodeCube.Word

/-!
# Pipes

A pipe carries words from one node to its neighbour, one at a time. Both sides file requests, and
at the end of each tick the pipe publishes what is pending: its `phase`. A word can be taken only
while a transfer is published, and the tick after that it is over for both sides.
-/

namespace NodeCube

/-- What a pipe has published. -/
inductive Phase where
  | idle
  | writing
  | reading
  | transferring
  deriving DecidableEq, Repr

namespace Phase

def name : Phase → Bytes
  | .idle => ascii "IDLE"
  | .writing => ascii "WRITING"
  | .reading => ascii "READING"
  | .transferring => ascii "TRANSFERRING"

/-- The phase that fits the pending requests. -/
def ofRequests : (write read : Bool) → Phase
  | true, true => .transferring
  | true, false => .writing
  | false, true => .reading
  | false, false => .idle

end Phase

structure Pipe where
  phase : Phase := .idle
  /-- The writer waits for its word to be taken. -/
  writing : Bool := false
  /-- The reader waits for a word. -/
  reading : Bool := false
  /-- The word was taken since the last step. -/
  taken : Bool := false
  value : Word := 0
  deriving DecidableEq, Repr

namespace Pipe

/-- Files a write request; there is room for one. -/
def beginWrite? (p : Pipe) (v : Word) : Option Pipe :=
  if p.writing then none else some { p with writing := true, value := v }

/-- Files a read request; there is room for one. -/
def beginRead? (p : Pipe) : Option Pipe :=
  if p.reading then none else some { p with reading := true }

/-- Ends a transfer for both sides if its word was taken. -/
def settle (p : Pipe) : Pipe :=
  if p.taken then { p with taken := false, writing := false, reading := false } else p

/-- Withdraws the write request. A word that was taken stays delivered. -/
def cancelWrite (p : Pipe) : Pipe := { p.settle with writing := false }

/-- Withdraws the read request. -/
def cancelRead (p : Pipe) : Pipe := { p.settle with reading := false }

/-- Whether a word can be taken. -/
def ready (p : Pipe) : Bool := p.phase == .transferring && p.writing && p.reading && !p.taken

/-- Takes the word. -/
def take? (p : Pipe) : Option (Word × Pipe) :=
  if p.ready then some (p.value, { p with taken := true }) else none

/-- Ends a finished transfer and publishes what is pending. -/
def step (p : Pipe) : Pipe :=
  { p.settle with phase := Phase.ofRequests p.settle.writing p.settle.reading }

@[simp] theorem taken_settle (p : Pipe) : p.settle.taken = false := by
  unfold settle; split <;> simp_all

@[simp] theorem value_settle (p : Pipe) : p.settle.value = p.value := by
  unfold settle; split <;> rfl

@[simp] theorem phase_settle (p : Pipe) : p.settle.phase = p.phase := by
  unfold settle; split <;> rfl

@[simp] theorem taken_step (p : Pipe) : p.step.taken = false := by simp [step]

@[simp] theorem value_step (p : Pipe) : p.step.value = p.value := by simp [step]

theorem settle_of_not_taken {p : Pipe} (h : p.taken = false) : p.settle = p := by simp [settle, h]

theorem cancelWrite_of_not_taken {p : Pipe} (h : p.taken = false) :
    p.cancelWrite = { p with writing := false } := by simp [cancelWrite, settle_of_not_taken h]

theorem cancelRead_of_not_taken {p : Pipe} (h : p.taken = false) :
    p.cancelRead = { p with reading := false } := by simp [cancelRead, settle_of_not_taken h]

end Pipe

end NodeCube
