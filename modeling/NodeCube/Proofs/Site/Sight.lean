import NodeCube.Execution
import NodeCube.Outcome

/-!
# What a node can see

Both ends of a pipe belong to different nodes, and each node sees less of it than there is. A
`Pipe.View` says which pipes look the same to a reader and which to a writer. `Site.Same` says that
two sites look the same to the node that sits there, and `Action.Blind` that an action does the same
at both and leaves two sites that look the same again. Every action that an instruction is made of
is blind in every view, whatever the program and the state (`Program.blind_step`).

There are two views. Within a tick, what the writer did since the last one shows to the reader only
if a transfer was published already, and what the reader did does not show to the writer at all
(`Pipe.view_same`). And nobody sees the value of a pipe without a word (`Pipe.view_alike`).
-/

namespace NodeCube

namespace Pipe

/-- What a node may see of the pipes it reads from (`R`) and of those it writes to (`W`): all that
it asks of them is the same, and stays the same whatever it does to them. -/
structure View (R W : Pipe → Pipe → Prop) : Prop where
  reading : ∀ a b, R a b → a.reading = b.reading
  ready : ∀ a b, R a b → a.ready = b.ready
  value : ∀ a b, R a b → a.ready = true → a.value = b.value
  listen : ∀ a b, R a b → R { a with reading := true } { b with reading := true }
  cancelRead : ∀ a b, R a b → R a.cancelRead b.cancelRead
  take : ∀ a b, R a b → R { a with taken := true } { b with taken := true }
  phase : ∀ a b, W a b → a.phase = b.phase
  writing : ∀ a b, W a b → a.writing = b.writing
  file : ∀ a b v, W a b →
    W { a with writing := true, value := v } { b with writing := true, value := v }

/-- Two pipes that look the same to their readers. -/
structure SameToReader (a b : Pipe) : Prop where
  phase : a.phase = b.phase
  reading : a.reading = b.reading
  taken : a.taken = b.taken
  published : a.phase = .transferring → a.writing = b.writing ∧ a.value = b.value

/-- Two pipes that look the same to their writers. -/
structure SameToWriter (a b : Pipe) : Prop where
  phase : a.phase = b.phase
  writing : a.writing = b.writing
  value : a.value = b.value

theorem phase_eq_of_ready {p : Pipe} (h : p.ready = true) : p.phase = .transferring := by
  simp only [ready, Bool.and_eq_true, beq_iff_eq] at h
  exact h.1.1.1

namespace SameToReader

variable {a b : Pipe}

theorem refl (a : Pipe) : SameToReader a a := ⟨rfl, rfl, rfl, fun _ => ⟨rfl, rfl⟩⟩

theorem ready (h : SameToReader a b) : a.ready = b.ready := by
  by_cases hp : a.phase = .transferring
  · simp only [Pipe.ready, h.phase, h.reading, h.taken, (h.published hp).1]
  · have hb : ¬ b.phase = .transferring := by rw [← h.phase]; exact hp
    have ha' : (a.phase == .transferring) = false := by simpa using hp
    have hb' : (b.phase == .transferring) = false := by simpa using hb
    simp only [Pipe.ready, ha', hb', Bool.false_and]

theorem cancelRead (h : SameToReader a b) : SameToReader a.cancelRead b.cancelRead := by
  obtain ⟨hp, hr, ht, hw⟩ := h
  unfold Pipe.cancelRead settle
  rw [← ht]
  split
  · exact ⟨hp, rfl, rfl, fun e => ⟨rfl, (hw e).2⟩⟩
  · exact ⟨hp, rfl, ht, hw⟩

theorem listen (h : SameToReader a b) :
    SameToReader { a with reading := true } { b with reading := true } :=
  ⟨h.phase, rfl, h.taken, h.published⟩

theorem take (h : SameToReader a b) :
    SameToReader { a with taken := true } { b with taken := true } :=
  ⟨h.phase, h.reading, rfl, h.published⟩

end SameToReader

namespace SameToWriter

variable {a b : Pipe}

theorem refl (a : Pipe) : SameToWriter a a := ⟨rfl, rfl, rfl⟩

theorem file (h : SameToWriter a b) (v : Word) :
    SameToWriter { a with writing := true, value := v } { b with writing := true, value := v } :=
  ⟨h.phase, rfl, rfl⟩

end SameToWriter

/-- What a node sees in the middle of a tick. -/
theorem view_same : View SameToReader SameToWriter where
  reading _ _ h := h.reading
  ready _ _ h := h.ready
  value _ _ h hr := (h.published (phase_eq_of_ready hr)).2
  listen _ _ h := h.listen
  cancelRead _ _ h := h.cancelRead
  take _ _ h := h.take
  phase _ _ h := h.phase
  writing _ _ h := h.writing
  file _ _ v h := h.file v

/-- Two pipes that differ at most in the value that is left while no word is there. -/
structure Alike (a b : Pipe) : Prop where
  phase : a.phase = b.phase
  writing : a.writing = b.writing
  reading : a.reading = b.reading
  taken : a.taken = b.taken
  value : a.writing = true → a.value = b.value

namespace Alike

variable {a b : Pipe}

theorem settle (h : Alike a b) : Alike a.settle b.settle := by
  unfold Pipe.settle
  rw [← h.taken]
  split
  · exact ⟨h.phase, rfl, rfl, rfl, fun e => by cases e⟩
  · exact h

theorem step (h : Alike a b) : Alike a.step b.step := by
  have hs := h.settle
  refine ⟨?_, hs.writing, hs.reading, hs.taken, hs.value⟩
  show Phase.ofRequests _ _ = Phase.ofRequests _ _
  rw [hs.writing, hs.reading]

theorem cancelRead (h : Alike a b) : Alike a.cancelRead b.cancelRead :=
  ⟨h.settle.phase, h.settle.writing, rfl, h.settle.taken, h.settle.value⟩

theorem ready (h : Alike a b) : a.ready = b.ready := by
  simp only [Pipe.ready, h.phase, h.writing, h.reading, h.taken]

end Alike

/-- The value of a pipe without a word is never seen. -/
theorem view_alike : View Alike Alike where
  reading _ _ h := h.reading
  ready _ _ h := h.ready
  value a _ h hr := by
    simp only [ready, Bool.and_eq_true] at hr
    exact h.value hr.1.1.2
  listen _ _ h := ⟨h.phase, h.writing, rfl, h.taken, h.value⟩
  cancelRead _ _ h := h.cancelRead
  take _ _ h := ⟨h.phase, h.writing, h.reading, rfl, h.value⟩
  phase _ _ h := h.phase
  writing _ _ h := h.writing
  file _ _ _ h := ⟨h.phase, rfl, h.reading, h.taken, fun _ => rfl⟩

end Pipe

variable {R W : Pipe → Pipe → Prop}

namespace Site

/-- Two sites that look the same to the node there, as far as it sees of the pipes. -/
structure Same (R W : Pipe → Pipe → Prop) (s t : Site) : Prop where
  registers : s.registers = t.registers
  passed : s.passed = t.passed
  incoming : ∀ p, R (s.incoming p) (t.incoming p)
  outgoing : ∀ p, W (s.outgoing p) (t.outgoing p)

namespace Same

variable {s t : Site}

theorem setRegisters (h : Same R W s t) (r : Registers) :
    Same R W (s.setRegisters r) (t.setRegisters r) :=
  ⟨rfl, h.passed, h.incoming, h.outgoing⟩

theorem note (h : Same R W s t) (w : Passage) : Same R W (s.note w) (t.note w) :=
  ⟨h.registers, by simp [h.passed], h.incoming, h.outgoing⟩

theorem setIncoming (h : Same R W s t) (p : Port) {a b : Pipe} (hp : R a b) :
    Same R W (s.setIncoming p a) (t.setIncoming p b) := by
  refine ⟨h.registers, h.passed, fun q => ?_, h.outgoing⟩
  by_cases e : q = p
  · subst e
    simpa using hp
  · simpa only [incoming_setIncoming_of_ne _ _ e] using h.incoming q

theorem setOutgoing (h : Same R W s t) (p : Port) {a b : Pipe} (hp : W a b) :
    Same R W (s.setOutgoing p a) (t.setOutgoing p b) := by
  refine ⟨h.registers, h.passed, h.incoming, fun q => ?_⟩
  by_cases e : q = p
  · subst e
    simpa using hp
  · simpa only [outgoing_setOutgoing_of_ne _ _ e] using h.outgoing q

theorem readyPort? (hV : Pipe.View R W) (h : Same R W s t) :
    AnyPort.readyPort? s = AnyPort.readyPort? t := by
  have hr : (fun p => (s.incoming p).ready) = fun p => (t.incoming p).ready :=
    funext fun p => hV.ready _ _ (h.incoming p)
  simp only [AnyPort.readyPort?, hr]

theorem listener? (hV : Pipe.View R W) (h : Same R W s t) :
    AnyPort.listener? s = AnyPort.listener? t := by
  have hl : (fun p => (s.outgoing p).phase == .reading && !(s.outgoing p).writing) =
      fun p => (t.outgoing p).phase == .reading && !(t.outgoing p).writing :=
    funext fun p => by rw [hV.phase _ _ (h.outgoing p), hV.writing _ _ (h.outgoing p)]
  simp only [AnyPort.listener?, hl]

end Same

end Site

namespace Action

variable {α β : Type}

/-- An action that does the same at any two sites that look the same. -/
def Blind (R W : Pipe → Pipe → Prop) (a : Action α) : Prop :=
  ∀ s t : Site, Site.Same R W s t →
    Outcome.result (a s) = Outcome.result (a t) ∧
      Site.Same R W (Outcome.state (a s)) (Outcome.state (a t))

namespace Blind

theorem pure (x : α) : Blind R W (Pure.pure x : Action α) := fun _ _ h => ⟨rfl, h⟩

theorem throw (e : Fault) : Blind R W (MonadExcept.throw e : Action α) := fun _ _ h => ⟨rfl, h⟩

theorem bind {a : Action α} {k : α → Action β} (ha : Blind R W a) (hk : ∀ x, Blind R W (k x)) :
    Blind R W (a >>= k) := by
  intro s t h
  have ⟨hr, hs⟩ := ha s t h
  change Outcome.result (EStateM.bind a k s) = Outcome.result (EStateM.bind a k t) ∧
    Site.Same R W (Outcome.state (EStateM.bind a k s)) (Outcome.state (EStateM.bind a k t))
  unfold EStateM.bind
  cases has : a s with
  | ok x s' =>
    cases hat : a t with
    | ok y t' =>
      rw [has, hat] at hr hs
      cases hr
      exact hk x s' t' hs
    | error e t' => rw [has, hat] at hr; cases hr
  | error e s' =>
    cases hat : a t with
    | ok y t' => rw [has, hat] at hr; cases hr
    | error e' t' =>
      rw [has, hat] at hr hs
      cases hr
      exact ⟨rfl, hs⟩

theorem look {g : Site → α} (hg : ∀ s t, Site.Same R W s t → g s = g t) : Blind R W (look g) :=
  fun _ _ h => ⟨by simp only [Action.look, Outcome.result, hg _ _ h], h⟩

theorem registers : Blind R W Action.registers := look fun _ _ h => h.registers

theorem update (g : Registers → Registers) : Blind R W (update g) := by
  refine fun _ _ h => ⟨rfl, ?_⟩
  simpa only [Action.update, Outcome.state, h.registers] using h.setRegisters _

theorem note (w : Passage) : Blind R W (note w) := fun _ _ h => ⟨rfl, h.note w⟩

theorem forM {ι : Type} (l : List ι) {f : ι → Action PUnit} (hf : ∀ i, Blind R W (f i)) :
    Blind R W (l.forM f) := by
  induction l with
  | nil => exact pure _
  | cons i l ih => exact (hf i).bind fun _ => ih

theorem ite {c : Prop} [Decidable c] {a b : Action α} (ha : Blind R W a) (hb : Blind R W b) :
    Blind R W (if c then a else b) := by
  split
  · exact ha
  · exact hb

end Blind

end Action

section

variable (hV : Pipe.View R W)
include hV

namespace Port

open NodeCube.Action

theorem blind_beginWrite (p : Port) (v : Word) : Blind R W (p.beginWrite v) := by
  intro s t h
  have hp := h.outgoing p
  unfold Port.beginWrite Pipe.beginWrite?
  rw [hV.writing _ _ hp]
  cases (t.outgoing p).writing
  · exact ⟨rfl, (h.setOutgoing p (hV.file _ _ v hp)).note _⟩
  · exact ⟨rfl, h⟩

theorem blind_isWriting (p : Port) : Blind R W p.isWriting :=
  .look fun _ _ h => hV.writing _ _ (h.outgoing p)

theorem blind_beginRead (p : Port) : Blind R W p.beginRead := by
  intro s t h
  have hp := h.incoming p
  unfold Port.beginRead Pipe.beginRead?
  rw [hV.reading _ _ hp]
  cases (t.incoming p).reading
  · exact ⟨rfl, h.setIncoming p (hV.listen _ _ hp)⟩
  · exact ⟨rfl, h⟩

theorem blind_cancelRead (p : Port) : Blind R W p.cancelRead :=
  fun _ _ h => ⟨rfl, h.setIncoming p (hV.cancelRead _ _ (h.incoming p))⟩

theorem blind_isReading (p : Port) : Blind R W p.isReading :=
  .look fun _ _ h => hV.reading _ _ (h.incoming p)

theorem blind_canTransfer (p : Port) : Blind R W p.canTransfer :=
  .look fun _ _ h => hV.ready _ _ (h.incoming p)

theorem blind_read (p : Port) : Blind R W p.read := by
  intro s t h
  have hp := h.incoming p
  unfold Port.read Pipe.take?
  rw [hV.ready _ _ hp]
  cases hr : (t.incoming p).ready
  · exact ⟨rfl, h⟩
  · -- both see the same word when it can be taken
    have hv := hV.value _ _ hp ((hV.ready _ _ hp).trans hr)
    refine ⟨congrArg Except.ok hv, ?_⟩
    have hs := (h.setIncoming p (hV.take _ _ hp)).note (.took p (s.incoming p).value)
    rwa [hv] at hs ⊢

end Port

namespace AnyPort

open NodeCube.Action

theorem blind_offer : Blind R W offer := by
  refine Blind.registers.bind fun r => (Blind.look fun _ _ h => h.listener? hV).bind fun l => ?_
  split
  · exact (Blind.update _).bind fun _ => Port.blind_beginWrite hV _ _
  · exact .pure _

theorem blind_beginWrite (v : Word) : Blind R W (beginWrite v) :=
  (Blind.update _).bind fun _ => blind_offer hV

theorem blind_isWriting : Blind R W isWriting := by
  refine (blind_offer hV).bind fun _ => Blind.registers.bind fun r => ?_
  split
  · exact .pure _
  · exact Port.blind_isWriting hV _
  · exact .pure _

theorem blind_beginRead : Blind R W beginRead :=
  .forM _ fun p => (Port.blind_isReading hV p).bind fun _ =>
    .ite (.pure _) (Port.blind_beginRead hV p)

theorem blind_isReading : Blind R W isReading :=
  .look fun s t h => by
    have hr : (fun p => (s.incoming p).reading) = fun p => (t.incoming p).reading :=
      funext fun p => hV.reading _ _ (h.incoming p)
    simp only [hr]

theorem blind_canTransfer : Blind R W canTransfer := by
  refine (Blind.look fun _ _ h => h.readyPort? hV).bind fun ready => ?_
  split
  · exact .pure _
  · exact ((Blind.update _).bind fun _ => .forM _ (Port.blind_cancelRead hV)).bind fun _ => .pure _

theorem blind_read : Blind R W read := by
  refine Blind.registers.bind fun r => ?_
  split
  · exact .throw _
  · exact (Port.blind_canTransfer hV _).bind fun _ => .ite (Port.blind_read hV _) (.throw _)

end AnyPort

namespace Target

open NodeCube.Action

omit hV in
theorem blind_atLast {α : Type} {default : Action α} {act : Port → Action α}
    (hd : Blind R W default) (ha : ∀ p, Blind R W (act p)) : Blind R W (atLast default act) := by
  refine Blind.registers.bind fun r => ?_
  split
  · exact hd
  · exact ha _

theorem blind_beginWrite (v : Word) (t : Target) : Blind R W (t.beginWrite v) := by
  cases t with
  | acc => exact (Blind.update _).bind fun _ => .pure _
  | bak => exact .throw _
  | nil => exact .pure _
  | port p => exact (Port.blind_beginWrite hV p v).bind fun _ => .pure _
  | any => exact (AnyPort.blind_beginWrite hV v).bind fun _ => .pure _
  | last =>
    exact blind_atLast (.pure _) fun p => (Port.blind_beginWrite hV p v).bind fun _ => .pure _

theorem blind_isWriting (t : Target) : Blind R W t.isWriting := by
  cases t with
  | acc | nil => exact .pure _
  | bak => exact .throw _
  | port p => exact Port.blind_isWriting hV p
  | any => exact AnyPort.blind_isWriting hV
  | last => exact blind_atLast (.pure _) (Port.blind_isWriting hV)

theorem blind_beginRead (t : Target) : Blind R W t.beginRead := by
  cases t with
  | acc | nil => exact .pure _
  | bak => exact .throw _
  | port p => exact Port.blind_beginRead hV p
  | any => exact AnyPort.blind_beginRead hV
  | last => exact blind_atLast (.pure _) (Port.blind_beginRead hV)

theorem blind_isReading (t : Target) : Blind R W t.isReading := by
  cases t with
  | acc | nil => exact .pure _
  | bak => exact .throw _
  | port p => exact Port.blind_isReading hV p
  | any => exact AnyPort.blind_isReading hV
  | last => exact blind_atLast (.pure _) (Port.blind_isReading hV)

theorem blind_canTransfer (t : Target) : Blind R W t.canTransfer := by
  cases t with
  | acc | nil => exact .pure _
  | bak => exact .throw _
  | port p => exact Port.blind_canTransfer hV p
  | any => exact AnyPort.blind_canTransfer hV
  | last => exact blind_atLast (.pure _) (Port.blind_canTransfer hV)

theorem blind_word (t : Target) : Blind R W t.word := by
  cases t with
  | acc => exact Blind.registers.bind fun _ => .pure _
  | bak => exact .throw _
  | nil => exact .pure _
  | port p => exact Port.blind_read hV p
  | any => exact AnyPort.blind_read hV
  | last => exact blind_atLast (.throw _) (Port.blind_read hV)

theorem blind_read (t : Target) : Blind R W t.read :=
  (blind_word hV t).bind fun _ => (Blind.note _).bind fun _ => .pure _

end Target

namespace Execution

open NodeCube.Action

omit hV in
theorem blind_advance : Blind R W advance := (Blind.update _).bind fun _ => .pure _

theorem blind_fetch (t : Target) : Blind R W (fetch t) := by
  have rest : Blind R W (do
      let ready ← t.canTransfer
      if ready then
        let v ← t.read
        return some v
      else return none) :=
    (Target.blind_canTransfer hV t).bind fun _ =>
      .ite ((Target.blind_read hV t).bind fun _ => .pure _) (.pure _)
  exact (Target.blind_isReading hV t).bind fun _ =>
    .ite rest ((Target.blind_beginRead hV t).bind fun _ => rest)

theorem blind_withOperand (i : Instruction) (mode : Mode) {k : Word → Action Progress}
    (hk : ∀ v, Blind R W (k v)) : Blind R W (withOperand i mode k) := by
  have ho : Blind R W (operand i mode) := by
    cases mode with
    | immediate => exact .pure _
    | target => exact blind_fetch hV _
  refine ho.bind fun v => ?_
  split
  · exact .pure _
  · exact hk _

theorem blind_deliver (t : Target) (v : Word) : Blind R W (deliver t v) :=
  (Target.blind_beginWrite hV v t).bind fun _ =>
    .ite blind_advance ((Blind.update _).bind fun _ => .pure _)

theorem blind_awaitTaken (t : Target) : Blind R W (awaitTaken t) :=
  (Target.blind_isWriting hV t).bind fun _ =>
    .ite (.pure _) ((Blind.update _).bind fun _ => blind_advance)

theorem blind_execute (program : Program) (i : Instruction) : Blind R W (execute program i) := by
  unfold execute
  split
  · exact Blind.registers.bind fun _ => .throw _
  · exact (Blind.update _).bind fun _ => blind_advance
  · exact blind_withOperand hV _ _ fun _ => (Blind.update _).bind fun _ => blind_advance
  · exact Blind.registers.bind fun _ =>
      .ite (blind_awaitTaken hV _) (blind_withOperand hV _ _ fun _ => blind_deliver hV _ _)
  · refine Blind.registers.bind fun _ => .ite ?_ blind_advance
    unfold jump
    split
    · exact .throw _
    · exact (Blind.update _).bind fun _ => .pure _
  · exact blind_withOperand hV _ _ fun _ => (Blind.update _).bind fun _ => .pure _

end Execution

/-- A step does the same at any two sites that look the same. -/
theorem Program.blind_step (program : Program) : Action.Blind R W program.step := by
  refine Action.Blind.registers.bind fun r => ?_
  dsimp only
  split
  · exact .pure _
  · exact (Action.Blind.update _).bind fun _ =>
      (Execution.blind_execute hV program _).bind fun _ => .update _

end

end NodeCube
