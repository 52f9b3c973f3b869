import NodeCube.Proofs.Site.Fetch

/-!
# Writing to a target

What `Target.beginWrite` and `Target.isWriting` do to a site. A word for a pipe goes to the port
where it can be handed over now (`Site.addressee?`) and leaves a write request there (`Site.file`);
if there is no such port it is kept back (`Site.hold`). At a port whose pipe has a write request
already the node faults. `Site.Writes` says in one place what either can come to, at any site.
-/

namespace NodeCube

namespace Target

/-- Whether a target is reached through a pipe. -/
def remote : Target → Bool
  | .port _ | .any | .last => true
  | .acc | .bak | .nil => false

/-- Whether a word that was handed to a target waits at port `p`, when `last` is the port that
`ANY` chose last. -/
def resolves (last : Option Port) (p : Port) : Target → Bool
  | .port q => q == p
  | .any | .last => last == some p
  | .acc | .bak | .nil => false

theorem instant?_eq_none_iff {t : Target} {r : Registers} (ht : t ≠ .bak) :
    t.instant? r = none ↔ t.remote = true := by
  cases t <;> simp_all [instant?, remote]

theorem resolves_unique {t : Target} {l : Option Port} {p q : Port} (hp : t.resolves l p = true)
    (hq : t.resolves l q = true) : p = q := by
  cases t <;> simp_all [resolves]

end Target

namespace Site

variable (s : Site)

/-- The port where a word for `t` can be handed over now. -/
def addressee? : Target → Option Port
  | .port p => some p
  | .any => AnyPort.listener? s
  | .last => s.registers.last
  | .acc | .bak | .nil => none

/-- Hands a word for `t` over at port `p`. `ANY` remembers the port. -/
def file (t : Target) (p : Port) (v : Word) : Site :=
  { (s.setOutgoing p { s.outgoing p with writing := true, value := v }).note (.filed p v) with
    registers := if t = .any then { s.registers with anyWrite := none, last := some p }
      else s.registers }

/-- Keeps a word for `t` that cannot be handed over yet; only `ANY` holds it. -/
def hold (t : Target) (v : Word) : Site :=
  if t = .any then s.setRegisters { s.registers with anyWrite := some v } else s

/-- Notes that a word is under way and the node waits for it to be taken. -/
def expect : Site := s.setRegisters { s.registers with writeInFlight := true, stalled := true }

@[simp] theorem incoming_file (t : Target) (p q : Port) (v : Word) :
    (s.file t p v).incoming q = s.incoming q := rfl

@[simp] theorem passed_file (t : Target) (p : Port) (v : Word) :
    (s.file t p v).passed = s.passed ++ [.filed p v] := rfl

theorem outgoing_file (t : Target) (p q : Port) (v : Word) : (s.file t p v).outgoing q =
    if q = p then { s.outgoing q with writing := true, value := v } else s.outgoing q := by
  split
  · rename_i e
    subst e
    simp [file, outgoing, note, setOutgoing]
  · rename_i e
    simp [file, outgoing, note, setOutgoing, PerPort.get_set_of_ne _ _ e]

@[simp] theorem registers_file (t : Target) (p : Port) (v : Word) : (s.file t p v).registers =
    if t = .any then { s.registers with anyWrite := none, last := some p } else s.registers := rfl

@[simp] theorem registers_hold (t : Target) (v : Word) : (s.hold t v).registers =
    if t = .any then { s.registers with anyWrite := some v } else s.registers := by
  unfold hold
  split <;> rfl

theorem pc_file (t : Target) (p : Port) (v : Word) :
    (s.file t p v).registers.pc = s.registers.pc := by
  rw [registers_file]
  split <;> rfl

theorem pc_hold (t : Target) (v : Word) : (s.hold t v).registers.pc = s.registers.pc := by
  rw [registers_hold]
  split <;> rfl

@[simp] theorem incoming_hold (t : Target) (v : Word) (p : Port) :
    (s.hold t v).incoming p = s.incoming p := by
  unfold hold
  split <;> rfl

@[simp] theorem outgoing_hold (t : Target) (v : Word) (p : Port) :
    (s.hold t v).outgoing p = s.outgoing p := by
  unfold hold
  split <;> rfl

@[simp] theorem passed_hold (t : Target) (v : Word) : (s.hold t v).passed = s.passed := by
  unfold hold
  split <;> rfl

theorem expect_of_flight {s : Site} (h : s.registers.writeInFlight = true) :
    s.expect = s.setRegisters { s.registers with stalled := true } := by
  simp only [expect, h]

@[simp] theorem incoming_expect (p : Port) : s.expect.incoming p = s.incoming p := rfl

@[simp] theorem outgoing_expect (p : Port) : s.expect.outgoing p = s.outgoing p := rfl

@[simp] theorem passed_expect : s.expect.passed = s.passed := rfl

end Site

theorem AnyPort.free_of_listener? {s : Site} {p : Port} (h : listener? s = some p) :
    (s.outgoing p).phase = .reading ∧ (s.outgoing p).writing = false := by
  have := List.find?_some (p := fun p => (s.outgoing p).phase == .reading &&
    !(s.outgoing p).writing) h
  simpa using this

theorem Port.beginWrite_of_free {p : Port} {s : Site} (v : Word)
    (h : (s.outgoing p).writing = false) : p.beginWrite v s =
      .ok () ((s.setOutgoing p { s.outgoing p with writing := true, value := v }).note
        (.filed p v)) := by
  simp [beginWrite, Pipe.beginWrite?, h]

theorem Port.beginWrite_of_busy {p : Port} {s : Site} (v : Word)
    (h : (s.outgoing p).writing = true) : p.beginWrite v s = .error (.concurrentWrite p) s := by
  simp [beginWrite, Pipe.beginWrite?, h]

namespace AnyPort

variable {s : Site} {v : Word}

theorem offer_of_held {p : Port} (hv : s.registers.anyWrite = some v)
    (hp : listener? s = some p) : offer s = .ok () (s.file .any p v) := by
  have hw := (free_of_listener? hp).2
  refine (Outcome.bind_ok (s := s) rfl).trans ((Outcome.bind_ok (s := s) rfl).trans ?_)
  rw [hv, hp]
  exact Port.beginWrite_of_free (p := p) (s := s.setRegisters
    { s.registers with anyWrite := none, last := some p }) v hw

theorem offer_of_none (h : s.registers.anyWrite = none ∨ listener? s = none) :
    offer s = .ok () s := by
  refine (Outcome.bind_ok (s := s) rfl).trans ((Outcome.bind_ok (s := s) rfl).trans ?_)
  rcases h with h | h
  · rw [h]; rfl
  · rw [h]
    cases s.registers.anyWrite <;> rfl

end AnyPort

namespace Target

variable {t : Target} {s : Site} {v : Word}

theorem beginWrite_of_free {p : Port} (ha : s.addressee? t = some p)
    (hw : (s.outgoing p).writing = false) : t.beginWrite v s = .ok false (s.file t p v) := by
  cases t with
  | acc | bak | nil => cases ha
  | port q =>
    cases ha
    exact Outcome.bind_ok (Port.beginWrite_of_free v hw)
  | any =>
    have ho := AnyPort.offer_of_held (s := s.setRegisters { s.registers with anyWrite := some v })
      rfl (show AnyPort.listener? s = some p from ha)
    exact Outcome.bind_ok ho
  | last =>
    refine (atLast_some ha).trans ?_
    exact Outcome.bind_ok (Port.beginWrite_of_free v hw)

theorem beginWrite_of_busy {p : Port} (ha : s.addressee? t = some p)
    (hw : (s.outgoing p).writing = true) : t.beginWrite v s = .error (.concurrentWrite p) s := by
  cases t with
  | acc | bak | nil => cases ha
  | port q =>
    cases ha
    exact Outcome.bind_error (Port.beginWrite_of_busy v hw)
  | any =>
    rw [(AnyPort.free_of_listener? ha).2] at hw
    cases hw
  | last =>
    refine (atLast_some ha).trans ?_
    exact Outcome.bind_error (Port.beginWrite_of_busy v hw)

theorem beginWrite_of_none (ht : t.remote = true) (ha : s.addressee? t = none) :
    t.beginWrite v s = .ok false (s.hold t v) := by
  cases t with
  | acc | bak | nil => cases ht
  | port q => cases ha
  | any =>
    have ho := AnyPort.offer_of_none (s := s.setRegisters { s.registers with anyWrite := some v })
      (.inr (show AnyPort.listener? s = none from ha))
    exact Outcome.bind_ok ho
  | last => exact atLast_none ha

/-- Whether a word that was handed over at port `p` was taken shows at that port. -/
theorem isWriting_of_resolves {p : Port} (hp : t.resolves s.registers.last p = true)
    (hv : s.registers.anyWrite = none) : t.isWriting s = .ok (s.outgoing p).writing s := by
  cases t with
  | acc | bak | nil => cases hp
  | port q =>
    cases beq_iff_eq.mp hp
    rfl
  | any =>
    have hl : s.registers.last = some p := beq_iff_eq.mp hp
    refine (Outcome.bind_ok (AnyPort.offer_of_none (.inl hv))).trans ?_
    refine (Outcome.bind_ok (s := s) rfl).trans ?_
    rw [hv, hl]
    rfl
  | last => exact atLast_some (beq_iff_eq.mp hp)

theorem isWriting_any_of_none (hv : s.registers.anyWrite = some v)
    (hl : AnyPort.listener? s = none) : Target.any.isWriting s = .ok true s := by
  refine (Outcome.bind_ok (AnyPort.offer_of_none (.inr hl))).trans ?_
  refine (Outcome.bind_ok (s := s) rfl).trans ?_
  rw [hv]
  rfl

theorem isWriting_any_of_listener {p : Port} (hv : s.registers.anyWrite = some v)
    (hl : AnyPort.listener? s = some p) :
    Target.any.isWriting s = .ok true (s.file .any p v) := by
  refine (Outcome.bind_ok (AnyPort.offer_of_held hv hl)).trans ?_
  refine (Outcome.bind_ok (s := s.file .any p v) rfl).trans ?_
  simp only [Site.registers_file, if_true]
  refine congrArg (EStateM.Result.ok · _) ?_
  simp [Site.outgoing_file]

end Target

/-- What beginning a write to a target other than `ACC`, or asking whether a write still goes on,
can come to. -/
inductive Site.Writes (s : Site) : Outcome Fault Site Bool → Prop
  | rests (b : Bool) : Writes s (.ok b s)
  | holds (t : Target) (v : Word) : Writes s (.ok false (s.hold t v))
  | files {p : Port} (t : Target) (v : Word) (b : Bool) (h : (s.outgoing p).writing = false) :
    Writes s (.ok b (s.file t p v))
  | faults (e : Fault) : Writes s (.error e s)

namespace Target

variable (t : Target) (s : Site)

theorem writes_beginWrite (ht : t ≠ .acc) (v : Word) : s.Writes (t.beginWrite v s) := by
  cases hr : t.remote with
  | false =>
    cases t with
    | acc => exact absurd rfl ht
    | bak => exact .faults _
    | nil => exact .rests true
    | port p | any | last => cases hr
  | true =>
    cases ha : s.addressee? t with
    | none =>
      rw [beginWrite_of_none hr ha]
      exact .holds t v
    | some p =>
      cases hw : (s.outgoing p).writing with
      | false =>
        rw [beginWrite_of_free ha hw]
        exact .files t v false hw
      | true =>
        rw [beginWrite_of_busy ha hw]
        exact .faults _

theorem writes_isWriting : s.Writes (t.isWriting s) := by
  cases t with
  | acc | nil => exact .rests false
  | bak => exact .faults _
  | port p => exact .rests _
  | any =>
    cases hv : s.registers.anyWrite with
    | none =>
      cases hl : s.registers.last with
      | none =>
        have hrest : Target.any.isWriting s = .ok false s := by
          refine (Outcome.bind_ok (AnyPort.offer_of_none (.inl hv))).trans ?_
          refine (Outcome.bind_ok (s := s) rfl).trans ?_
          rw [hv, hl]
          rfl
        rw [hrest]
        exact .rests _
      | some p =>
        have hres : Target.any.resolves s.registers.last p = true := beq_iff_eq.mpr hl
        rw [isWriting_of_resolves hres hv]
        exact .rests _
    | some v =>
      cases hl : AnyPort.listener? s with
      | none =>
        rw [isWriting_any_of_none hv hl]
        exact .rests _
      | some p =>
        rw [isWriting_any_of_listener hv hl]
        exact .files .any v true (AnyPort.free_of_listener? hl).2
  | last =>
    cases hl : s.registers.last with
    | none =>
      rw [isWriting, atLast_none hl]
      exact .rests true
    | some p =>
      rw [isWriting, atLast_some hl]
      exact .rests _

end Target

namespace Execution

variable {t : Target} {s s' : Site} {v : Word}

theorem deliver_of_waiting (h : t.beginWrite v s = .ok false s') : deliver t v s =
    .ok .waiting (s'.setRegisters { s'.registers with writeInFlight := true }) :=
  (Outcome.bind_ok h).trans rfl

/-- Advancing, seen from the registers. -/
def next (r : Registers) : Registers := { r with pc := r.pc + 1 }

theorem deliver_of_error {e : Fault} (h : t.beginWrite v s = .error e s') :
    deliver t v s = .error e s' := Outcome.bind_error h

theorem awaitTaken_of_waiting (h : t.isWriting s = .ok true s') :
    awaitTaken t s = .ok .waiting s' := (Outcome.bind_ok h).trans rfl

theorem awaitTaken_of_taken (h : t.isWriting s = .ok false s') : awaitTaken t s =
    .ok .complete (s'.setRegisters (next { s'.registers with writeInFlight := false })) :=
  (Outcome.bind_ok h).trans rfl

end Execution

end NodeCube
