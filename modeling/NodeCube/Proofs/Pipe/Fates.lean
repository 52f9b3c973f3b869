import NodeCube.Pipe.Call

/-!
# The fate of a word in a pipe

Whoever calls a pipe, and in whatever order, a word that it accepts is returned once, withdrawn, or
still waiting. `Pipe.Moves` says what one call can do to the word that waits, and `Pipe.Tidy` what
that makes of a history: each word is followed by its return or its withdrawal before another one is
accepted (`Pipe.tidy_events`). So the words that are returned are those that were accepted, less
those that were withdrawn first and the one that waits (`Pipe.returned_eq_delivered`).
-/

namespace NodeCube.Pipe

/-! ## Histories -/

/-- What a call does with a word. -/
inductive Event where
  /-- A word was handed over, and there was room for it. -/
  | accepts (v : Word)
  /-- The writer withdrew its request, if it had one. -/
  | withdraws
  /-- A word was taken. -/
  | returns (v : Word)
  deriving DecidableEq, Repr

/-- The event that a call and its answer tell of. -/
def Call.event? : Call → Except Failure Answer → Option Event
  | .beginWrite v, .ok (.flag true) => some (.accepts v)
  | .cancelWrite, .ok .done => some .withdraws
  | .read, .ok (.word v) => some (.returns v)
  | _, _ => none

/-- Whether a call replaces the whole state of the pipe. -/
def Call.loads : Call → Bool
  | .load _ => true
  | _ => false

/-- The pipe after a call; one that fails leaves what it did before. -/
def performed (p : Pipe) (call : Call) : Pipe := Outcome.state (perform call p)

/-- The event of a call. -/
def told (p : Pipe) (call : Call) : Option Event := call.event? (Outcome.result (perform call p))

/-- The pipe after some calls. -/
def after (p : Pipe) (calls : List Call) : Pipe := calls.foldl performed p

/-- The events of some calls. -/
def events (p : Pipe) : List Call → List Event
  | [] => []
  | call :: calls => (p.told call).toList ++ events (p.performed call) calls

/-- What became of a word. -/
inductive Fate where
  | returned
  | withdrawn
  | pending
  deriving DecidableEq, Repr

/-- The fate of a word that was accepted before these events: it is told by the first return or
withdrawal. -/
def fate : List Event → Fate
  | [] => .pending
  | .accepts _ :: l => fate l
  | .withdraws :: _ => .withdrawn
  | .returns _ :: _ => .returned

/-- The words that were accepted, with their fates. -/
def fates : List Event → List (Word × Fate)
  | [] => []
  | .accepts v :: l => (v, fate l) :: fates l
  | .withdraws :: l => fates l
  | .returns _ :: l => fates l

def Event.accepted? : Event → Option Word
  | .accepts v => some v
  | _ => none

def Event.returned? : Event → Option Word
  | .returns v => some v
  | _ => none

/-! ## What one call can do -/

/-- The word that waits to be taken, if there is one. -/
def waiting (p : Pipe) : List Word := if p.writing && !p.taken then [p.value] else []

/-- A word was taken only if both sides have requests and a transfer is shown. -/
def Coherent (p : Pipe) : Prop :=
  p.taken = true → p.writing = true ∧ p.reading = true ∧ p.phase = .transferring

/-- What can happen to the word that waits. -/
inductive Moves (a b : Pipe) : Option Event → Prop
  | rests (h : b.waiting = a.waiting) : Moves a b none
  | accepts {v : Word} (ha : a.waiting = []) (hb : b.waiting = [v]) : Moves a b (some (.accepts v))
  | withdraws (hb : b.waiting = []) : Moves a b (some .withdraws)
  | returns {v : Word} (ha : a.waiting = [v]) (hb : b.waiting = []) : Moves a b (some (.returns v))

variable {p : Pipe}

theorem waiting_cases (p : Pipe) : p.waiting = [] ∨ p.waiting = [p.value] := by
  unfold waiting
  split
  · exact .inr rfl
  · exact .inl rfl

theorem coherent_of_not_taken (h : p.taken = false) : p.Coherent := by
  intro ht
  rw [h] at ht
  cases ht

/-- No word waits in a pipe whose word was taken, so it does not matter that the transfer ends. -/
theorem waiting_settle (p : Pipe) : p.settle.waiting = p.waiting := by
  unfold settle
  split
  · rename_i ht
    simp [waiting, ht]
  · rfl

theorem moves_beginWrite (h : p.Coherent) (v : Word) :
    (p.performed (.beginWrite v)).Coherent ∧
      Moves p (p.performed (.beginWrite v)) (p.told (.beginWrite v)) := by
  unfold performed told
  cases hw : p.writing with
  | true =>
    have hp : perform (.beginWrite v) p = .ok (.flag false) p := by
      simp only [perform, beginWrite?, hw, if_true]
    rw [hp]
    exact ⟨h, .rests rfl⟩
  | false =>
    -- without a request of the writer, no word was taken since the last step
    have ht : p.taken = false := by
      cases ht : p.taken with
      | false => rfl
      | true => cases hw.symm.trans (h ht).1
    have hp : perform (.beginWrite v) p =
        .ok (.flag true) { p with writing := true, value := v } := by
      simp only [perform, beginWrite?, hw, Bool.false_eq_true, if_false]
    rw [hp]
    refine ⟨coherent_of_not_taken ht, .accepts ?_ ?_⟩
    · simp only [waiting, hw, Bool.false_and, Bool.false_eq_true, if_false]
    · simp [waiting, Outcome.state, ht]

theorem moves_beginRead (h : p.Coherent) :
    (p.performed .beginRead).Coherent ∧ Moves p (p.performed .beginRead) (p.told .beginRead) := by
  unfold performed told
  cases hr : p.reading with
  | true =>
    have hp : perform .beginRead p = .ok (.flag false) p := by
      simp only [perform, beginRead?, hr, if_true]
    rw [hp]
    exact ⟨h, .rests rfl⟩
  | false =>
    have hp : perform .beginRead p = .ok (.flag true) { p with reading := true } := by
      simp only [perform, beginRead?, hr, Bool.false_eq_true, if_false]
    rw [hp]
    exact ⟨fun ht => ⟨(h ht).1, rfl, (h ht).2.2⟩, .rests rfl⟩

theorem moves_read (h : p.Coherent) :
    (p.performed .read).Coherent ∧ Moves p (p.performed .read) (p.told .read) := by
  unfold performed told
  cases hr : p.ready with
  | false =>
    have hp : perform .read p = .error (.fault .pipeNotReady) p := by
      simp only [perform, take?, hr, Bool.false_eq_true, if_false]
    rw [hp]
    exact ⟨h, .rests rfl⟩
  | true =>
    have hp : perform .read p = .ok (.word p.value) { p with taken := true } := by
      simp only [perform, take?, hr, if_true]
    rw [hp]
    simp only [ready, Bool.and_eq_true, beq_iff_eq, Bool.not_eq_true'] at hr
    obtain ⟨⟨⟨hphase, hw⟩, hread⟩, ht⟩ := hr
    refine ⟨fun _ => ⟨hw, hread, hphase⟩, .returns ?_ ?_⟩
    · simp [waiting, hw, ht]
    · simp [waiting, Outcome.state]

theorem waiting_cancelWrite (p : Pipe) : p.cancelWrite.waiting = [] := by
  simp [waiting, cancelWrite]

/-- What a call can do, unless it loads a snapshot. -/
theorem moves_performed (h : p.Coherent) {call : Call} (hl : call.loads = false) :
    (p.performed call).Coherent ∧ Moves p (p.performed call) (p.told call) := by
  cases call with
  | beginWrite v => exact moves_beginWrite h v
  | beginRead => exact moves_beginRead h
  | read => exact moves_read h
  | cancelWrite =>
    exact ⟨coherent_of_not_taken p.taken_settle, .withdraws p.waiting_cancelWrite⟩
  | cancelRead => exact ⟨coherent_of_not_taken p.taken_settle, .rests p.waiting_settle⟩
  | step => exact ⟨coherent_of_not_taken p.taken_step, .rests p.waiting_settle⟩
  | isWriting | isReading | canTransfer => exact ⟨h, .rests rfl⟩
  | load bytes => cases hl

/-! ## What a history can be -/

/-- The events of a history at whose end the words of `last` wait. -/
inductive Tidy (last : List Word) : List Event → Prop
  | nil (h : last = []) : Tidy last []
  | waits {v : Word} (h : last = [v]) : Tidy last [.accepts v]
  | withdraws {l : List Event} (h : Tidy last l) : Tidy last (.withdraws :: l)
  | withdrawn {v : Word} {l : List Event} (h : Tidy last l) :
    Tidy last (.accepts v :: .withdraws :: l)
  | returned {v : Word} {l : List Event} (h : Tidy last l) :
    Tidy last (.accepts v :: .returns v :: l)

/-- The events of some calls, after the acceptance of the word that waits before them. -/
theorem tidy_events {calls : List Call} (h : p.Coherent)
    (hl : ∀ call ∈ calls, call.loads = false) :
    (p.after calls).Coherent ∧
      Tidy (p.after calls).waiting (p.waiting.map .accepts ++ p.events calls) := by
  induction calls generalizing p with
  | nil =>
    refine ⟨h, ?_⟩
    show Tidy p.waiting (p.waiting.map .accepts ++ [])
    rcases p.waiting_cases with hw | hw
    · rw [hw]
      exact .nil rfl
    · rw [hw]
      exact .waits rfl
  | cons call calls ih =>
    obtain ⟨hq, hm⟩ := moves_performed h (hl call List.mem_cons_self)
    obtain ⟨hc, ht⟩ := ih hq fun c hc => hl c (List.mem_cons_of_mem call hc)
    refine ⟨hc, ?_⟩
    show Tidy ((p.performed call).after calls).waiting
      (p.waiting.map .accepts ++ ((p.told call).toList ++ (p.performed call).events calls))
    generalize p.told call = e at hm
    cases hm with
    | rests hw =>
      rw [hw] at ht
      exact ht
    | accepts ha hb =>
      rw [hb] at ht
      rw [ha]
      exact ht
    | withdraws hb =>
      rw [hb] at ht
      rcases p.waiting_cases with hw | hw
      · rw [hw]
        exact ht.withdraws
      · rw [hw]
        exact ht.withdrawn
    | returns ha hb =>
      rw [hb] at ht
      rw [ha]
      exact ht.returned

namespace Tidy

variable {last : List Word} {l : List Event}

theorem returned_eq (h : Tidy last l) :
    l.filterMap Event.returned? = ((fates l).filter (·.2 = .returned)).map Prod.fst := by
  induction h with
  | nil | waits => rfl
  | withdraws _ ih => exact ih
  | withdrawn _ ih => exact ih
  | @returned v _ _ ih => exact congrArg (v :: ·) ih

theorem fates_eq (h : Tidy last l) :
    ∃ settled, fates l = settled ++ last.map (·, Fate.pending) ∧
      ∀ x ∈ settled, x.2 ≠ .pending := by
  induction h with
  | nil h => exact ⟨[], by rw [h]; rfl, by simp⟩
  | waits h => exact ⟨[], by rw [h]; rfl, by simp⟩
  | withdraws _ ih => exact ih
  | @withdrawn v _ _ ih =>
    obtain ⟨settled, hs, hn⟩ := ih
    exact ⟨(v, .withdrawn) :: settled, congrArg _ hs, by simpa using hn⟩
  | @returned v _ _ ih =>
    obtain ⟨settled, hs, hn⟩ := ih
    exact ⟨(v, .returned) :: settled, congrArg _ hs, by simpa using hn⟩

/-- A word is returned right after it was accepted: nothing happened to it before. -/
theorem accepts_before (h : Tidy last l) {i : Nat} {v : Word} (hi : l[i]? = some (.returns v)) :
    ∃ j, i = j + 1 ∧ l[j]? = some (.accepts v) := by
  induction h generalizing i with
  | nil => simp at hi
  | waits => cases i <;> simp at hi
  | withdraws _ ih =>
    cases i with
    | zero => simp at hi
    | succ i =>
      obtain ⟨j, rfl, hj⟩ := ih hi
      exact ⟨j + 1, rfl, hj⟩
  | withdrawn _ ih =>
    match i with
    | 0 | 1 => simp at hi
    | i + 2 =>
      obtain ⟨j, rfl, hj⟩ := ih hi
      exact ⟨j + 2, rfl, hj⟩
  | returned _ ih =>
    match i with
    | 0 => simp at hi
    | 1 =>
      cases hi
      exact ⟨0, rfl, rfl⟩
    | i + 2 =>
      obtain ⟨j, rfl, hj⟩ := ih hi
      exact ⟨j + 2, rfl, hj⟩

end Tidy

theorem map_fst_fates (l : List Event) : (fates l).map Prod.fst = l.filterMap Event.accepted? := by
  induction l with
  | nil => rfl
  | cons e l ih =>
    cases e with
    | accepts v => exact congrArg (v :: ·) ih
    | withdraws | returns => exact ih

/-- Whoever calls a new pipe, and in whatever order, the words that are returned are those that were
accepted, in their order, less those that were withdrawn first and the one that waits at the end.
Each is returned right after it was accepted, and a word counts as taken only while both sides have
requests and a transfer is shown. -/
theorem returned_eq_delivered (calls : List Call) (hl : ∀ call ∈ calls, call.loads = false) :
    let l := ({} : Pipe).events calls
    let p := ({} : Pipe).after calls
    (fates l).map Prod.fst = l.filterMap Event.accepted? ∧
    l.filterMap Event.returned? = ((fates l).filter (·.2 = .returned)).map Prod.fst ∧
    (∃ settled, fates l = settled ++ p.waiting.map (·, Fate.pending) ∧
      ∀ x ∈ settled, x.2 ≠ .pending) ∧
    (∀ i v, l[i]? = some (.returns v) → ∃ j, i = j + 1 ∧ l[j]? = some (.accepts v)) ∧
    (p.taken = true → p.writing = true ∧ p.reading = true ∧ p.phase = .transferring) := by
  intro l p
  obtain ⟨hc, ht⟩ := tidy_events (p := {}) (coherent_of_not_taken rfl) hl
  have ht : Tidy p.waiting l := ht
  exact ⟨map_fst_fates l, ht.returned_eq, ht.fates_eq, fun i v hi => ht.accepts_before hi, hc⟩

/-- A word that is withdrawn, one that is taken and ended by the reader before the pipe is stepped,
and one that still waits. -/
theorem returned_eq_delivered_withdrawn :
    let calls : List Call :=
      [.beginWrite 1, .cancelWrite, .beginWrite 2, .beginRead, .step, .read, .cancelRead,
        .beginWrite 3, .read]
    let l := ({} : Pipe).events calls
    fates l = [(1, .withdrawn), (2, .returned), (3, .pending)] ∧
      l.filterMap Event.returned? = [2] := by
  intro calls l
  have hf : fates l = [(1, .withdrawn), (2, .returned), (3, .pending)] := by decide
  refine ⟨hf, (returned_eq_delivered calls (by decide)).2.1.trans ?_⟩
  rw [hf]
  decide

end NodeCube.Pipe
