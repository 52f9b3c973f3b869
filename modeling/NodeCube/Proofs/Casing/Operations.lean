import NodeCube.Casing

/-!
# What the operations on a casing do

Equations for exchanging a module and for disabling. A node that stops withdraws its requests, and
the casing then withdraws them once more: the second time changes nothing, so an exchange comes down
to one withdrawal (`Casing.exchange_eq`), and after `disable` nothing is left of what the devices
did to the pipes on the way (`Casing.pipe_disable`).
-/

namespace NodeCube

namespace Ports

variable (ps : Ports)

@[simp] theorem incoming_cancelRequests (p : Port) :
    ps.cancelRequests.incoming.get p = (ps.incoming.get p).cancelRead := by simp [cancelRequests]

@[simp] theorem outgoing_cancelRequests (p : Port) :
    ps.cancelRequests.outgoing.get p = (ps.outgoing.get p).cancelWrite := by simp [cancelRequests]

theorem ext_get {a b : Ports} (hi : ∀ p, a.incoming.get p = b.incoming.get p)
    (ho : ∀ p, a.outgoing.get p = b.outgoing.get p) : a = b := by
  obtain ⟨i, o⟩ := a
  obtain ⟨i', o'⟩ := b
  obtain rfl : i = i' := PerPort.ext_get hi
  obtain rfl : o = o' := PerPort.ext_get ho
  rfl

theorem cancelRequests_cancelRequests : ps.cancelRequests.cancelRequests = ps.cancelRequests := by
  refine ext_get (fun p => ?_) fun p => ?_
  · simp [Pipe.cancelRead, Pipe.settle_of_not_taken]
  · simp [Pipe.cancelWrite, Pipe.settle_of_not_taken]

end Ports

theorem PerFace.set_set {α : Type} (t : PerFace α) (f : Face) (a b : α) :
    (t.set f a).set f b = t.set f b := by cases f <;> rfl

theorem PerFace.set_comm {α : Type} (t : PerFace α) {f g : Face} (h : f ≠ g) (a b : α) :
    (t.set f a).set g b = (t.set g b).set f a := by
  refine ext_get fun k => ?_
  simp only [get_set]
  split
  · rename_i e
    rw [if_neg (e ▸ Ne.symm h)]
  · rfl

theorem Pipes.withPorts_withPorts (ps : Pipes) (f : Face) (t u : Ports) :
    (ps.withPorts f t).withPorts f u = ps.withPorts f u := by
  refine ext_pipe fun s => ?_
  simp only [pipe_withPorts]
  split
  · rfl
  · split <;> rfl

namespace Device

/-- What a device becomes when it is disabled. -/
def disabled : Device → Device
  | .node n =>
    .node { n with
      machine := { n.machine with registers := n.machine.registers.clearRequests }
      running := false }
  | .meter m => .meter { m with disables := m.disables + 1 }
  | .ticker steps => .ticker steps

/-- The pipes at a device that is disabled. -/
def released (ports : Ports) : Device → Ports
  | .node _ => ports.cancelRequests
  | .meter _ | .ticker _ => ports

theorem disable_eq (d : Device) (ports : Ports) :
    disable (d, ports) = (d.disabled, d.released ports) := by cases d <;> rfl

theorem cancelRequests_released (d : Device) (ports : Ports) :
    (d.released ports).cancelRequests = ports.cancelRequests := by
  cases d with
  | node => exact Ports.cancelRequests_cancelRequests ports
  | meter | ticker => rfl

end Device

namespace Casing

variable (c : Casing)

theorem onDevice_of_none {ε : Type} {a : EStateM ε (Device × Ports) Unit} {c : Casing} {f : Face}
    (h : c.slots.get f = none) : onDevice f a c = .ok () c := by
  simp only [onDevice, h]

theorem onDevice_of_some {ε : Type} {a : EStateM ε (Device × Ports) Unit} {c : Casing} {f : Face}
    {d : Device} (h : c.slots.get f = some d) : onDevice f a c =
      Outcome.within (fun (d, ports) => c.place f d ports) (a (d, c.pipes.ports f)) := by
  simp only [onDevice, h]

theorem pipe_place_self (f : Face) (d : Device) (ports : Ports) (p : Port) :
    (c.place f d ports).pipes.pipe ⟨f, p⟩ = ports.incoming.get p := by
  rw [← Pipes.incoming_ports, place, Pipes.ports_withPorts]

theorem pipe_place_opposite (f : Face) (d : Device) (ports : Ports) (p : Port) :
    (c.place f d ports).pipes.pipe (Socket.opposite ⟨f, p⟩) = ports.outgoing.get p := by
  rw [← Pipes.outgoing_ports, place, Pipes.ports_withPorts]

theorem disableFace_of_none {c : Casing} {f : Face} (h : c.slots.get f = none) :
    c.disableFace f = c := by
  simp only [disableFace, h]

theorem disableFace_of_some {c : Casing} {f : Face} {d : Device} (h : c.slots.get f = some d) :
    c.disableFace f = c.place f d.disabled (d.released (c.pipes.ports f)) := by
  simp only [disableFace, h, Device.disable_eq]

/-- A device as it leaves a casing. -/
def retire (d : Device) : Device := if c.enabled then d.disabled else d

/-- A device as it comes into a casing. -/
def receive (d : Device) : Device := if c.enabled then d.enable else d

theorem map_receive (d : Option Device) :
    d.map c.receive = if c.enabled then d.map Device.enable else d := by
  cases d <;> simp only [Option.map_none, Option.map_some, receive] <;> split <;> rfl

theorem exchange_eq (f : Face) (d : Option Device) : c.exchange f d =
    ({ c with
        slots := c.slots.set f (d.map c.receive)
        pipes := c.pipes.withPorts f (c.pipes.ports f).cancelRequests.step },
      (c.slots.get f).map fun d => ⟨⟨c.stand, f⟩, c.retire d⟩) := by
  cases he : c.enabled with
  | false => simp [exchange, he, module?, retire, map_receive]
  | true =>
    cases hs : c.slots.get f with
    | none => simp [exchange, he, hs, disableFace_of_none hs, module?, retire, map_receive]
    | some x =>
      simp [exchange, he, disableFace_of_some hs, place, module?, retire, map_receive,
        PerFace.set_set, Pipes.withPorts_withPorts, Device.cancelRequests_released]

/-! ## Enabling and disabling -/

theorem enable_eq {c : Casing} (h : c.enabled = false) : c.enable =
    { c with enabled := true, slots := c.slots.map (Option.map Device.enable) } := by
  simp [enable, h]

@[simp] theorem enabled_enable : c.enable.enabled = true := by
  unfold enable
  split
  · assumption
  · rfl

theorem slots_disableFace (f g : Face) : (c.disableFace f).slots.get g =
    if g = f then (c.slots.get g).map Device.disabled else c.slots.get g := by
  cases hs : c.slots.get f with
  | none =>
    rw [disableFace_of_none hs]
    split
    · rename_i e
      rw [e, hs]
      rfl
    · rfl
  | some d =>
    rw [disableFace_of_some hs]
    show (c.slots.set f (some d.disabled)).get g = _
    rw [PerFace.get_set]
    split
    · rename_i e
      rw [e, hs]
      rfl
    · rfl

theorem slots_foldl_disableFace {faces : List Face} (hl : faces.Nodup) (g : Face) :
    (faces.foldl disableFace c).slots.get g =
      if g ∈ faces then (c.slots.get g).map Device.disabled else c.slots.get g := by
  induction faces generalizing c with
  | nil => simp
  | cons f faces ih =>
    obtain ⟨hf, hl⟩ := List.nodup_cons.mp hl
    rw [List.foldl_cons, ih _ hl, slots_disableFace]
    by_cases e : g = f
    · subst e
      simp [hf]
    · simp [e]

theorem enabled_disableFace (f : Face) : (c.disableFace f).enabled = c.enabled := by
  unfold disableFace
  split <;> rfl

theorem enabled_foldl_disableFace (faces : List Face) :
    (faces.foldl disableFace c).enabled = c.enabled := by
  induction faces generalizing c with
  | nil => rfl
  | cons f faces ih => rw [List.foldl_cons, ih, enabled_disableFace]

@[simp] theorem enabled_disable : c.disable.enabled = false := by
  unfold disable
  split
  · exact enabled_foldl_disableFace _ _
  · rename_i h
    simpa using h

theorem slots_disable {c : Casing} (h : c.enabled = true) (f : Face) :
    c.disable.slots.get f = (c.slots.get f).map Device.disabled := by
  unfold disable
  rw [if_pos h]
  refine (slots_foldl_disableFace _ (by decide) f).trans ?_
  rw [if_pos (Face.mem_all f)]

/-- After `disable` no pipe has a request. -/
theorem pipe_disable {c : Casing} (h : c.enabled = true) (s : Socket) :
    (c.disable.pipes.pipe s).phase = .idle ∧ (c.disable.pipes.pipe s).writing = false ∧
      (c.disable.pipes.pipe s).reading = false ∧ (c.disable.pipes.pipe s).taken = false := by
  unfold disable
  rw [if_pos h]
  simp [Pipe.step, Pipe.cancelWrite, Pipe.cancelRead, Pipe.settle_of_not_taken, Phase.ofRequests]

end Casing

end NodeCube
