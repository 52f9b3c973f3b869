import Mathlib.Data.List.Forall2
import NodeCube.Proofs.Pipe.Fates
import NodeCube.Proofs.Site.Sight

/-!
# Both sides of a pipe

Within a tick neither side of a pipe notices what the other one does. A call of one side leaves a
pipe that looks the same to the other (`Pipe.sameTo_performed`), as long as a transfer that is shown
has both its requests, which each step sees to. So in a tick in which nothing is withdrawn, each
side gets the replies that it would get if it were alone with the pipe (`Pipe.replies_alone`), and
together they leave the pipe that they would leave one after the other. Hence it does not matter, in
a history of any length, how their calls are interleaved (`Pipe.records_interleaved`).
-/

namespace NodeCube.Pipe

/-! ## Ticks -/

/-- The sides of a pipe. -/
inductive Side where
  | writer
  | reader
  deriving DecidableEq, Repr

/-- The side that makes a call. Withdrawals are left out: they end a transfer for both sides at
once. -/
def Call.side? : Call → Option Side
  | .beginWrite _ | .isWriting => some .writer
  | .beginRead | .isReading | .canTransfer | .read => some .reader
  | .cancelWrite | .cancelRead | .step | .load _ => none

def Call.isOf (side : Side) (call : Call) : Bool := call.side? == some side

/-- The answer to a call, or how it failed. -/
def reply (p : Pipe) (call : Call) : Except Failure Answer := Outcome.result (perform call p)

/-- Some calls with their replies. -/
def replies (p : Pipe) : List Call → List (Call × Except Failure Answer)
  | [] => []
  | call :: calls => (call, p.reply call) :: replies (p.performed call) calls

/-- The calls of both sides in a tick, each in its order. -/
structure Tick where
  writer : List Call
  reader : List Call

def Tick.of (t : Tick) : Side → List Call
  | .writer => t.writer
  | .reader => t.reader

/-- The calls of a tick in an order in which they may reach the pipe. -/
structure Tick.Interleaved (t : Tick) (calls : List Call) : Prop where
  sided : ∀ call ∈ calls, call.side?.isSome = true
  order : ∀ side, calls.filter (·.isOf side) = t.of side

theorem Tick.interleaved_iff {t : Tick} {calls : List Call} : t.Interleaved calls ↔
    calls.all (·.side?.isSome) = true ∧ calls.filter (·.isOf .writer) = t.writer ∧
      calls.filter (·.isOf .reader) = t.reader := by
  rw [List.all_eq_true]
  refine ⟨fun h => ⟨h.sided, h.order .writer, h.order .reader⟩, fun h => ⟨h.1, fun side => ?_⟩⟩
  cases side with
  | writer => exact h.2.1
  | reader => exact h.2.2

instance (t : Tick) (calls : List Call) : Decidable (t.Interleaved calls) :=
  decidable_of_iff _ Tick.interleaved_iff.symm

/-- What comes of a tick: the replies to each side, and the pipe after its step. -/
structure Record where
  writer : List (Call × Except Failure Answer)
  reader : List (Call × Except Failure Answer)
  pipe : Pipe
  deriving DecidableEq

/-- What comes of some calls and the step after them. -/
def record (p : Pipe) (calls : List Call) : Record where
  writer := (p.replies calls).filter (·.1.isOf .writer)
  reader := (p.replies calls).filter (·.1.isOf .reader)
  pipe := (p.after calls).step

def records (p : Pipe) : List (List Call) → List Record
  | [] => []
  | calls :: ticks => p.record calls :: records (p.record calls).pipe ticks

/-- What would come of a tick if each side were alone with the pipe, but for the pipe after it,
which both leave one after the other. -/
def recordApart (p : Pipe) (t : Tick) : Record where
  writer := p.replies t.writer
  reader := p.replies t.reader
  pipe := ((p.after t.writer).after t.reader).step

def recordsApart (p : Pipe) : List Tick → List Record
  | [] => []
  | t :: ticks => p.recordApart t :: recordsApart (p.recordApart t).pipe ticks

/-! ## What calls do -/

section Calls

variable (p : Pipe)

@[simp] theorem performed_beginWrite (v : Word) : p.performed (.beginWrite v) =
    if p.writing then p else { p with writing := true, value := v } := by
  cases hw : p.writing <;> simp [performed, perform, beginWrite?, hw, Outcome.state]

@[simp] theorem reply_beginWrite (v : Word) : p.reply (.beginWrite v) =
    .ok (.flag !p.writing) := by
  cases hw : p.writing <;> simp [reply, perform, beginWrite?, hw, Outcome.result]

@[simp] theorem performed_beginRead : p.performed .beginRead = { p with reading := true } := by
  obtain ⟨phase, writing, reading, taken, value⟩ := p
  cases reading <;> rfl

@[simp] theorem reply_beginRead : p.reply .beginRead = .ok (.flag !p.reading) := by
  cases hr : p.reading <;> simp [reply, perform, beginRead?, hr, Outcome.result]

@[simp] theorem performed_read : p.performed .read =
    if p.ready then { p with taken := true } else p := by
  cases hr : p.ready <;> simp [performed, perform, take?, hr, Outcome.state]

@[simp] theorem reply_read : p.reply .read =
    if p.ready then .ok (.word p.value) else .error (.fault .pipeNotReady) := by
  cases hr : p.ready <;> simp [reply, perform, take?, hr, Outcome.result]

@[simp] theorem performed_isWriting : p.performed .isWriting = p := rfl

@[simp] theorem reply_isWriting : p.reply .isWriting = .ok (.flag p.writing) := rfl

@[simp] theorem performed_isReading : p.performed .isReading = p := rfl

@[simp] theorem reply_isReading : p.reply .isReading = .ok (.flag p.reading) := rfl

@[simp] theorem performed_canTransfer : p.performed .canTransfer = p := rfl

@[simp] theorem reply_canTransfer : p.reply .canTransfer = .ok (.flag p.ready) := rfl

end Calls

/-! ## What a side sees -/

/-- Two pipes that look the same to a side. -/
def SameTo : Side → Pipe → Pipe → Prop
  | .writer => SameToWriter
  | .reader => SameToReader

/-- A transfer is shown only if both sides have requests. -/
def Shown (p : Pipe) : Prop := p.phase = .transferring → p.writing = true ∧ p.reading = true

variable {p a b c : Pipe} {side : Side}

namespace SameTo

theorem refl (side : Side) (p : Pipe) : SameTo side p p :=
  match side with
  | .writer => SameToWriter.refl p
  | .reader => SameToReader.refl p

theorem symm (h : SameTo side a b) : SameTo side b a := by
  cases side with
  | writer => exact ⟨h.phase.symm, h.writing.symm, h.value.symm⟩
  | reader =>
    refine ⟨h.phase.symm, h.reading.symm, h.taken.symm, fun hb => ?_⟩
    obtain ⟨hw, hv⟩ := h.published (h.phase.trans hb)
    exact ⟨hw.symm, hv.symm⟩

theorem trans (h : SameTo side a b) (k : SameTo side b c) : SameTo side a c := by
  cases side with
  | writer =>
    exact ⟨h.phase.trans k.phase, h.writing.trans k.writing, h.value.trans k.value⟩
  | reader =>
    refine ⟨h.phase.trans k.phase, h.reading.trans k.reading, h.taken.trans k.taken, fun ha => ?_⟩
    obtain ⟨hw, hv⟩ := h.published ha
    obtain ⟨kw, kv⟩ := k.published (h.phase.symm.trans ha)
    exact ⟨hw.trans kw, hv.trans kv⟩

/-- Both sides together see all there is. -/
theorem eq (h : ∀ side, SameTo side a b) : a = b := by
  have hr : SameToReader a b := h .reader
  have hw : SameToWriter a b := h .writer
  obtain ⟨phase, writing, reading, taken, value⟩ := a
  obtain ⟨phase', writing', reading', taken', value'⟩ := b
  obtain rfl : phase = phase' := hr.phase
  obtain rfl : reading = reading' := hr.reading
  obtain rfl : taken = taken' := hr.taken
  obtain rfl : writing = writing' := hw.writing
  obtain rfl : value = value' := hw.value
  rfl

end SameTo

theorem SameToWriter.performed (h : SameToWriter a b) {call : Call}
    (hc : call.side? = some .writer) :
    a.reply call = b.reply call ∧ SameToWriter (a.performed call) (b.performed call) := by
  cases call with
  | beginWrite v =>
    simp only [reply_beginWrite, performed_beginWrite, h.writing]
    refine ⟨trivial, ?_⟩
    split
    · exact h
    · exact h.file v
  | isWriting =>
    simp only [reply_isWriting, performed_isWriting, h.writing]
    exact ⟨trivial, h⟩
  | _ => cases hc

theorem SameToReader.performed (h : SameToReader a b) {call : Call}
    (hc : call.side? = some .reader) :
    a.reply call = b.reply call ∧ SameToReader (a.performed call) (b.performed call) := by
  cases call with
  | beginRead =>
    simp only [reply_beginRead, performed_beginRead, h.reading]
    exact ⟨trivial, h.listen⟩
  | isReading =>
    simp only [reply_isReading, performed_isReading, h.reading]
    exact ⟨trivial, h⟩
  | canTransfer =>
    simp only [reply_canTransfer, performed_canTransfer, h.ready]
    exact ⟨trivial, h⟩
  | read =>
    simp only [reply_read, performed_read, ← h.ready]
    split
    · rename_i hr
      exact ⟨by rw [(h.published (phase_eq_of_ready hr)).2], h.take⟩
    · exact ⟨rfl, h⟩
  | _ => cases hc

/-- A side gets the same reply wherever it sees the same, and sees the same again. -/
theorem SameTo.performed (h : SameTo side a b) {call : Call} (hc : call.side? = some side) :
    a.reply call = b.reply call ∧ SameTo side (a.performed call) (b.performed call) := by
  cases side with
  | writer => exact SameToWriter.performed h hc
  | reader => exact SameToReader.performed h hc

/-- A side does not see what the other one does. While a transfer is shown, the writer finds its
own request there, so it changes neither the request nor the word. -/
theorem sameTo_performed (hp : p.Shown) {other : Side} (ho : other ≠ side) {call : Call}
    (hc : call.side? = some other) : SameTo side (p.performed call) p := by
  cases side with
  | writer =>
    cases call with
    | beginRead =>
      rw [performed_beginRead]
      exact ⟨rfl, rfl, rfl⟩
    | read =>
      rw [performed_read]
      split <;> exact ⟨rfl, rfl, rfl⟩
    | isReading | canTransfer => exact SameTo.refl _ p
    | beginWrite | isWriting =>
      cases hc
      exact absurd rfl ho
    | _ => cases hc
  | reader =>
    cases call with
    | beginWrite v =>
      rw [performed_beginWrite]
      split
      · exact SameTo.refl _ p
      · rename_i hw
        exact ⟨rfl, rfl, rfl, fun ht => absurd (hp ht).1 hw⟩
    | isWriting => exact SameTo.refl _ p
    | beginRead | isReading | canTransfer | read =>
      cases hc
      exact absurd rfl ho
    | _ => cases hc

theorem Shown.performed (hp : p.Shown) {call : Call} (hc : call.side?.isSome = true) :
    (p.performed call).Shown := by
  cases call with
  | beginWrite v =>
    rw [performed_beginWrite]
    split
    · exact hp
    · exact fun ht => ⟨rfl, (hp ht).2⟩
  | beginRead =>
    rw [performed_beginRead]
    exact fun ht => ⟨(hp ht).1, rfl⟩
  | read =>
    rw [performed_read]
    split <;> exact hp
  | isWriting | isReading | canTransfer => exact hp
  | _ => cases hc

theorem shown_step (p : Pipe) : p.step.Shown := by
  intro h
  have h : Phase.ofRequests p.settle.writing p.settle.reading = .transferring := h
  show p.settle.writing = true ∧ p.settle.reading = true
  cases hw : p.settle.writing <;> cases hr : p.settle.reading <;> simp_all [Phase.ofRequests]

/-! ## Ticks and histories -/

/-- Each side gets the replies that it would get alone, and sees what it would see then. -/
theorem replies_alone (hp : a.Shown) (h : SameTo side a b) {calls : List Call}
    (hc : ∀ call ∈ calls, call.side?.isSome = true) :
    (a.replies calls).filter (·.1.isOf side) = b.replies (calls.filter (·.isOf side)) ∧
      SameTo side (a.after calls) (b.after (calls.filter (·.isOf side))) := by
  induction calls generalizing a b with
  | nil => exact ⟨rfl, h⟩
  | cons call calls ih =>
    obtain ⟨hcall, hcalls⟩ := List.forall_mem_cons.mp hc
    obtain ⟨other, ho⟩ := Option.isSome_iff_exists.mp hcall
    have hshown := hp.performed hcall
    by_cases e : other = side
    · subst e
      obtain ⟨hreply, hsame⟩ := h.performed ho
      have hof : call.isOf other = true := beq_iff_eq.mpr ho
      obtain ⟨hr, hs⟩ := ih hshown hsame hcalls
      simp only [replies, List.filter_cons, hof, if_true, hreply, hr]
      exact ⟨trivial, hs⟩
    · have hof : call.isOf side = false := by
        rw [Call.isOf, ho, beq_eq_false_iff_ne]
        exact fun h => e (Option.some.inj h)
      simp only [replies, List.filter_cons, hof, Bool.false_eq_true, if_false]
      exact ih hshown ((sameTo_performed hp e ho).trans h) hcalls

theorem filter_isOf (calls : List Call) (s t : Side) :
    (calls.filter (·.isOf s)).filter (·.isOf t) =
      if t = s then calls.filter (·.isOf s) else [] := by
  split
  · rename_i e
    subst e
    exact List.filter_eq_self.mpr fun call hc => (List.mem_filter.mp hc).2
  · rename_i e
    refine List.filter_eq_nil_iff.mpr fun call hc ht => e ?_
    have hs : call.side? = some s := beq_iff_eq.mp (List.mem_filter.mp hc).2
    exact Option.some.inj ((beq_iff_eq.mp ht).symm.trans hs)

namespace Tick.Interleaved

variable {t : Tick} {calls : List Call}

/-- Any two interleavings of the same calls leave the same pipe. -/
theorem after_eq (hp : p.Shown) {calls' : List Call} (h : t.Interleaved calls)
    (h' : t.Interleaved calls') : p.after calls = p.after calls' := by
  refine SameTo.eq fun side => ?_
  have hs := (replies_alone hp (SameTo.refl side p) h.sided).2
  have hs' := (replies_alone hp (SameTo.refl side p) h'.sided).2
  rw [h.order side] at hs
  rw [h'.order side] at hs'
  exact hs.trans hs'.symm

/-- The writer may make all its calls before the reader. -/
theorem writerFirst (h : t.Interleaved calls) : t.Interleaved (t.writer ++ t.reader) := by
  have hw : t.writer = calls.filter (·.isOf .writer) := (h.order .writer).symm
  have hr : t.reader = calls.filter (·.isOf .reader) := (h.order .reader).symm
  refine ⟨fun call hc => ?_, fun side => ?_⟩
  · rw [hw, hr, List.mem_append, List.mem_filter, List.mem_filter] at hc
    exact h.sided call (hc.elim And.left And.left)
  · rw [hw, hr, List.filter_append, filter_isOf, filter_isOf, ← h.order side]
    cases side <;> simp

theorem record_eq (hp : p.Shown) (h : t.Interleaved calls) : p.record calls = p.recordApart t := by
  have hreplies := fun side => (replies_alone hp (SameTo.refl side p) h.sided).1
  have hafter : p.after calls = (p.after t.writer).after t.reader :=
    (h.after_eq hp h.writerFirst).trans List.foldl_append
  simp only [record, recordApart, hreplies, h.order, hafter]
  rfl

end Tick.Interleaved

theorem records_eq_recordsApart (hp : p.Shown) {ticks : List Tick} {a : List (List Call)}
    (h : List.Forall₂ Tick.Interleaved ticks a) : p.records a = p.recordsApart ticks := by
  induction h generalizing p with
  | nil => rfl
  | @cons t calls ticks a ht _ ih =>
    have hr : p.record calls = p.recordApart t := ht.record_eq hp
    have hs : (p.recordApart t).pipe.Shown := shown_step _
    rw [records, recordsApart, hr, ih hs]

/-- It does not matter how the calls of the two sides are interleaved in each tick of a history
without withdrawals. The replies to all calls, failed reads among them, and the pipe after each tick
are the same in any two interleavings, and they are those of both sides apart. -/
theorem records_interleaved {ticks : List Tick} {a b : List (List Call)}
    (ha : List.Forall₂ Tick.Interleaved ticks a) (hb : List.Forall₂ Tick.Interleaved ticks b) :
    ({} : Pipe).records a = ({} : Pipe).records b ∧
      ({} : Pipe).records a = ({} : Pipe).recordsApart ticks := by
  have hnew : ({} : Pipe).Shown := fun h => by cases h
  have hrec := records_eq_recordsApart hnew ha
  exact ⟨hrec.trans (records_eq_recordsApart hnew hb).symm, hrec⟩

/-- The reader asks before, between and after the calls of the writer; the word is read once, and a
second read in the same tick fails, as does one in the tick in which the requests are filed. -/
theorem records_interleaved_eager :
    let ticks : List Tick := [⟨[.beginWrite 1, .beginWrite 2], [.read, .beginRead, .canTransfer]⟩,
      ⟨[.isWriting, .beginWrite 3], [.canTransfer, .read, .read]⟩,
      ⟨[.beginWrite 4], [.isReading]⟩]
    let a : List (List Call) := [[.beginWrite 1, .read, .beginRead, .beginWrite 2, .canTransfer],
      [.canTransfer, .read, .isWriting, .read, .beginWrite 3], [.beginWrite 4, .isReading]]
    let b : List (List Call) := [[.read, .beginRead, .canTransfer, .beginWrite 1, .beginWrite 2],
      [.isWriting, .beginWrite 3, .canTransfer, .read, .read], [.isReading, .beginWrite 4]]
    List.Forall₂ Tick.Interleaved ticks a ∧ List.Forall₂ Tick.Interleaved ticks b ∧
      ({} : Pipe).records a = ({} : Pipe).records b ∧
      (({} : Pipe).records b).map (fun r => r.reader.map Prod.snd) =
        [[.error (.fault .pipeNotReady), .ok (.flag true), .ok (.flag false)],
          [.ok (.flag true), .ok (.word 1), .error (.fault .pipeNotReady)],
          [.ok (.flag false)]] := by
  intro ticks a b
  have ha : List.Forall₂ Tick.Interleaved ticks a :=
    .cons (by decide) (.cons (by decide) (.cons (by decide) .nil))
  have hb : List.Forall₂ Tick.Interleaved ticks b :=
    .cons (by decide) (.cons (by decide) (.cons (by decide) .nil))
  exact ⟨ha, hb, (records_interleaved ha hb).1, by decide⟩

end NodeCube.Pipe
