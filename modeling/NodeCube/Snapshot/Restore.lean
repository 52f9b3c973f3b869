import NodeCube.Outcome
import NodeCube.Snapshot.Reader

/-!
# Restoring

A value is restored field by field over the one that is there. If reading fails on the way, the
fields restored so far stay and the others keep what they had.
-/

namespace NodeCube.Snapshot

/-- Reads fields of a `σ` off the input. -/
abbrev Restore (σ α : Type) := EStateM SnapshotError (σ × Cursor) α

namespace Restore

variable {σ τ α : Type}

/-- Reads without touching the value. -/
def read (r : Reader α) : Restore σ α := fun (s, c) => Outcome.within (fun c => (s, c)) (r c)

/-- Does something to the value without reading. -/
def act (a : EStateM SnapshotError σ α) : Restore σ α := fun (s, c) =>
  Outcome.within (fun s => (s, c)) (a s)

/-- Changes the value. -/
def update (g : σ → σ) : Restore σ Unit := fun (s, c) => .ok () (g s, c)

/-- Restores a part of the value. -/
def part (get : σ → τ) (put : τ → σ → σ) (r : Restore τ α) : Restore σ α := fun (s, c) =>
  Outcome.within (fun (t, c) => (put t s, c)) (r (get s, c))

/-- Restores from bytes of its own, and leaves what is not used of them. -/
def ofBytes (r : Restore σ α) (bytes : Bytes) : EStateM SnapshotError σ α := fun s =>
  Outcome.within Prod.fst (r (s, Cursor.start bytes))

end Restore

end NodeCube.Snapshot
