import NodeCube.Proofs.Casing.Operations
import NodeCube.Proofs.Casing.Round
import NodeCube.Workshop.Command

/-!
# What an exchange touches

When a module is exchanged, the requests of its face go and those of the neighbours stay: a pipe
that the face reads from becomes `unread`, one that it writes to `unwritten`, and no other pipe and
no other slot changes (`Casing.Exchanged`). So every neighbour still waits for what it waited for
(`Casing.Exchanged.reading`, `Casing.Exchanged.written`). A module made for another mount is
refused.
-/

namespace NodeCube

namespace Pipe

/-- A pipe whose reader is gone: only a write request can be left. -/
def unread (p : Pipe) : Pipe :=
  { p with reading := false, phase := if p.writing then .writing else .idle }

/-- A pipe whose writer is gone: only a read request can be left. -/
def unwritten (p : Pipe) : Pipe :=
  { p with writing := false, phase := if p.reading then .reading else .idle }

variable {p : Pipe}

theorem step_cancelRead (h : p.taken = false) : p.cancelRead.step = p.unread := by
  have hs : settle { p with reading := false } = { p with reading := false } :=
    settle_of_not_taken h
  rw [cancelRead_of_not_taken h, step, hs, unread]
  cases p.writing <;> rfl

theorem step_cancelWrite (h : p.taken = false) : p.cancelWrite.step = p.unwritten := by
  have hs : settle { p with writing := false } = { p with writing := false } :=
    settle_of_not_taken h
  rw [cancelWrite_of_not_taken h, step, hs, unwritten]
  cases p.reading <;> rfl

end Pipe

namespace Casing

/-- What putting a device or nothing on a face makes of a casing. -/
structure Exchanged (c : Casing) (f : Face) (d : Option Device) (c' : Casing) : Prop where
  stand : c'.stand = c.stand
  enabled : c'.enabled = c.enabled
  slot : c'.slots.get f = d.map c.receive
  others : ∀ g, g ≠ f → c'.slots.get g = c.slots.get g
  receiving : ∀ p, c'.pipes.pipe ⟨f, p⟩ = (c.pipes.pipe ⟨f, p⟩).unread
  sending : ∀ p, c'.pipes.pipe (Socket.opposite ⟨f, p⟩) =
    (c.pipes.pipe (Socket.opposite ⟨f, p⟩)).unwritten
  apart : ∀ s : Socket, s.face ≠ f → s.opposite.face ≠ f → c'.pipes.pipe s = c.pipes.pipe s

variable {c c' : Casing} {f g : Face} {d : Option Device}

theorem exchanged_exchange (hu : ∀ s, (c.pipes.pipe s).taken = false) (f : Face)
    (d : Option Device) : c.Exchanged f d (c.exchange f d).1 := by
  rw [exchange_eq]
  refine ⟨rfl, rfl, PerFace.get_set_self _ _ _, fun g hg => ?_, fun p => ?_, fun p => ?_,
    fun s hs ho => ?_⟩
  · exact (PerFace.get_set _ _ _ _).trans (if_neg hg)
  · rw [← Pipes.incoming_ports, Pipes.ports_withPorts, Ports.incoming_step,
      Ports.incoming_cancelRequests, Pipes.incoming_ports, Pipe.step_cancelRead (hu _)]
  · rw [← Pipes.outgoing_ports, Pipes.ports_withPorts, Ports.outgoing_step,
      Ports.outgoing_cancelRequests, Pipes.outgoing_ports, Pipe.step_cancelWrite (hu _)]
  · rw [Pipes.pipe_withPorts, if_neg hs, if_neg ho]

namespace Exchanged

/-- The pipe from the exchanged face to a neighbour. -/
theorem pipe_of_opposite (h : c.Exchanged f d c') {s : Socket} (hs : s.opposite.face = f) :
    c'.pipes.pipe s = (c.pipes.pipe s).unwritten := by
  have hp := h.sending s.opposite.port
  rwa [← hs, show (⟨s.opposite.face, s.opposite.port⟩ : Socket) = s.opposite from rfl,
    Socket.opposite_opposite] at hp

/-- A neighbour that waits for a word still does. -/
theorem reading (h : c.Exchanged f d c') (hg : g ≠ f) (p : Port) :
    (c'.pipes.pipe ⟨g, p⟩).reading = (c.pipes.pipe ⟨g, p⟩).reading := by
  by_cases ho : (Socket.opposite ⟨g, p⟩).face = f
  · rw [h.pipe_of_opposite ho]
    rfl
  · rw [h.apart _ hg ho]

/-- A neighbour that offers a word still does, and offers the same. -/
theorem written (h : c.Exchanged f d c') (hg : g ≠ f) (p : Port) :
    (c'.pipes.pipe (Socket.opposite ⟨g, p⟩)).writing =
        (c.pipes.pipe (Socket.opposite ⟨g, p⟩)).writing ∧
      (c'.pipes.pipe (Socket.opposite ⟨g, p⟩)).value =
        (c.pipes.pipe (Socket.opposite ⟨g, p⟩)).value := by
  by_cases ho : (Socket.opposite ⟨g, p⟩).face = f
  · have hp := h.receiving (Socket.opposite ⟨g, p⟩).port
    rw [← ho] at hp
    rw [hp]
    exact ⟨rfl, rfl⟩
  · rw [h.apart _ ho (by rwa [Socket.opposite_opposite])]
    exact ⟨rfl, rfl⟩

end Exchanged

/-- A module made for another mount is refused and changes nothing. Any other exchange hands back
what was on the face and touches only the face's own side of its pipes, so that its neighbours still
wait as they did. -/
theorem setModule_own_side (c : Casing) (f : Face) (m : Option Module)
    (hu : ∀ s, (c.pipes.pipe s).taken = false) :
    (∀ x, m = some x → x.mount ≠ ⟨c.stand, f⟩ →
      c.setModule f m = .error ⟨f⟩ ∧
      ∀ (w : Workshop) (s : Stand) (answer : Option Device.Kind → Answer),
        (w.bench s).casing = c → Workshop.exchange s f m answer w = .error (.misfit ⟨f⟩) w) ∧
    ((∀ x, m = some x → x.mount = ⟨c.stand, f⟩) →
      ∃ c', c.setModule f m = .ok (c', (c.slots.get f).map fun d => ⟨⟨c.stand, f⟩, c.retire d⟩) ∧
        c.Exchanged f (m.map Module.device) c' ∧
        ∀ g, g ≠ f → ∀ p,
          (c'.pipes.pipe ⟨g, p⟩).reading = (c.pipes.pipe ⟨g, p⟩).reading ∧
          (c'.pipes.pipe (Socket.opposite ⟨g, p⟩)).writing =
            (c.pipes.pipe (Socket.opposite ⟨g, p⟩)).writing ∧
          (c'.pipes.pipe (Socket.opposite ⟨g, p⟩)).value =
            (c.pipes.pipe (Socket.opposite ⟨g, p⟩)).value) := by
  refine ⟨?_, fun hm => ?_⟩
  · rintro x rfl hx
    have hs : c.setModule f (some x) = .error ⟨f⟩ := by simp [setModule, fits, hx]
    refine ⟨hs, fun w s answer hw => ?_⟩
    simp only [Workshop.exchange, hw, hs]
  · have hall : m.all (c.fits f) = true := by
      cases m with
      | none => rfl
      | some x => simp [fits, hm x rfl]
    have hx := exchanged_exchange hu f (m.map Module.device)
    refine ⟨(c.exchange f (m.map Module.device)).1, ?_, hx, fun g hg p =>
      ⟨hx.reading hg p, hx.written hg p⟩⟩
    rw [setModule, if_pos hall, exchange_eq]

/-- A meter on a face in the middle of a transfer either way with one neighbour. -/
def meeting : Casing where
  stand := .first
  enabled := true
  slots := (PerFace.replicate none).set .zNeg (some (.meter {}))
  pipes :=
    (Pipes.fresh.setPipe ⟨.zNeg, .right⟩ ⟨.transferring, true, true, false, 7⟩).setPipe
      ⟨.xNeg, .left⟩ ⟨.transferring, true, true, false, 9⟩

/-- The neighbour keeps offering its 7 and waiting for an answer. -/
theorem setModule_own_side_meeting :
    (∀ s, (meeting.pipes.pipe s).taken = false) ∧
    meeting.setModule .zNeg (some ⟨⟨.second, .zNeg⟩, .ticker 0⟩) = .error ⟨.zNeg⟩ ∧
    ∃ c', meeting.setModule .zNeg (some ⟨⟨.first, .zNeg⟩, .ticker 0⟩) =
        .ok (c', some ⟨⟨.first, .zNeg⟩, .meter { disables := 1 }⟩) ∧
      c'.pipes.pipe ⟨.zNeg, .right⟩ = { phase := .writing, writing := true, value := 7 } ∧
      c'.pipes.pipe ⟨.xNeg, .left⟩ = { phase := .reading, reading := true, value := 9 } := by
  have hu : ∀ s, (meeting.pipes.pipe s).taken = false := by
    rintro ⟨f, p⟩
    cases f <;> cases p <;> rfl
  obtain ⟨hbad, -⟩ := setModule_own_side meeting .zNeg (some ⟨⟨.second, .zNeg⟩, .ticker 0⟩) hu
  obtain ⟨-, hgood⟩ := setModule_own_side meeting .zNeg (some ⟨⟨.first, .zNeg⟩, .ticker 0⟩) hu
  obtain ⟨c', hc', hx, -⟩ := hgood (by rintro x ⟨⟩; rfl)
  exact ⟨hu, (hbad _ rfl (by decide)).1, c', hc', hx.receiving .right, hx.sending .right⟩

end Casing

end NodeCube
