import NodeCube.Answer
import NodeCube.Pipe.Snapshot

/-!
# Calls of a pipe

The operations of a pipe as data, so that a history of a pipe is a list of calls.
-/

namespace NodeCube.Pipe

open Snapshot

inductive Call where
  | beginWrite (v : Word)
  | beginRead
  | cancelWrite
  | cancelRead
  | isWriting
  | isReading
  | canTransfer
  | read
  | step
  | load (bytes : Bytes)
  deriving DecidableEq, Repr

/-- Does a call. Filing a request answers whether there was room for it, and loading whether all
bytes were used. -/
def perform : Call → Performance Pipe
  | .beginWrite v => fun p =>
    match p.beginWrite? v with
    | some q => .ok (.flag true) q
    | none => .ok (.flag false) p
  | .beginRead => fun p =>
    match p.beginRead? with
    | some q => .ok (.flag true) q
    | none => .ok (.flag false) p
  | .cancelWrite => fun p => .ok .done p.cancelWrite
  | .cancelRead => fun p => .ok .done p.cancelRead
  | .isWriting => fun p => .ok (.flag p.writing) p
  | .isReading => fun p => .ok (.flag p.reading) p
  | .canTransfer => fun p => .ok (.flag p.ready) p
  | .read => fun p =>
    match p.take? with
    | some (v, q) => .ok (.word v) q
    | none => .error (.fault .pipeNotReady) p
  | .step => fun p => .ok .done p.step
  | .load bytes => fun p =>
    match restore (p, Cursor.start bytes) with
    | .ok _ (q, c) => .ok (.flag c.atEnd) q
    | .error e (q, _) => .error (.snapshot e) q

end NodeCube.Pipe
