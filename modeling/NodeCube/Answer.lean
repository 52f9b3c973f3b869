import NodeCube.Casing
import NodeCube.Snapshot.Error

/-!
# Answers and failures

What an operation of a workshop reports, and how it can fail.
-/

namespace NodeCube

inductive Failure where
  | fault (f : Fault)
  | snapshot (e : SnapshotError)
  | misfit (m : Misfit)
  | diagnostic (d : Diagnostic)
  /-- There is no device of the kind that the operation is for. -/
  | noDevice
  deriving DecidableEq, Repr

inductive Answer where
  | done
  | flag (b : Bool)
  | word (w : Word)
  | bytes (s : Bytes)
  /-- A source was assembled, or refused. -/
  | verdict (d : Option Diagnostic)
  /-- The source of a node, why it was refused, and its lines. -/
  | listing (source : Bytes) (diagnostic : Option Diagnostic) (code : List Bytes)
  /-- A module was made; if it is a node, its source was assembled or refused. -/
  | made (verdict : Option (Option Diagnostic))
  /-- A module was made and put in place of another. -/
  | installed (verdict : Option (Option Diagnostic)) (old : Option Device.Kind)
  /-- What sat on a face before. -/
  | removed (old : Option Device.Kind)
  deriving DecidableEq, Repr

/-- An operation on a `σ` that reports an answer. A failed one leaves what it did before. -/
abbrev Performance (σ : Type) := EStateM Failure σ Answer

/-- Reports how something that may fault went. -/
def Performance.ofFaulting {σ α : Type} (answer : α → Answer) (a : EStateM Fault σ α) :
    Performance σ := fun s =>
  match a s with
  | .ok x s => .ok (answer x) s
  | .error e s => .error (.fault e) s

end NodeCube
