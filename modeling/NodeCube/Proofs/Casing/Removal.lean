import NodeCube.Proofs.Casing.Power
import NodeCube.Proofs.Site.Waiting

/-!
# What a node remembers when it is taken out

The requests of a module that leaves a casing are always dropped from the pipes, but the module is
told to stop only if the casing is enabled. So a node that waits in a casing that is not enabled
comes out waiting, for requests that are gone. Only a load can make a node wait there: in histories
in which no load does (`Rig.Undisturbed`), every node comes out waiting for nothing
(`Rig.Undisturbed.atRest`), and in its next turn it starts its `MOV` over
(`Node.Fit.turn_of_clear`). A node that had handed a word over goes on after the `MOV` instead,
though nobody took the word (`Node.Fit.turn_of_hands`), and every node that waits somewhere can be
brought there (`Rig.setModule_laidUp`).
-/

namespace NodeCube

/-! ## Devices that wait for nothing -/

/-- A device that waits for nothing; only nodes ever wait. -/
def Device.AtRest : Device → Prop
  | .node n => n.machine.registers.Clear
  | .meter _ | .ticker _ => True

namespace Device

variable {d : Device}

theorem atRest_disabled (d : Device) : d.disabled.AtRest := by
  cases d with
  | node n => exact ⟨rfl, rfl, rfl⟩
  | meter | ticker => trivial

theorem atRest_assemble (d : Device) (source : Bytes) : (d.assemble source).AtRest := by
  cases d with
  | node n => exact n.clear_assemble source
  | meter | ticker => trivial

theorem Spare.atRest (h : d.Spare) : d.AtRest := by
  match d, h with
  | .node n, h => exact h.clear
  | .meter m, _ | .ticker k, _ => trivial

end Device

namespace Casing

variable {c c' : Casing} {f : Face}

/-- In a casing that is not enabled, no device waits. -/
def AtRest (c : Casing) : Prop :=
  c.enabled = false → ∀ f d, c.slots.get f = some d → d.AtRest

/-- A device that leaves a casing is told to stop only if the casing is enabled. -/
theorem atRest_retire_iff (c : Casing) (d : Device) :
    (c.retire d).AtRest ↔ c.enabled = true ∨ d.AtRest := by
  unfold retire
  cases c.enabled with
  | true => simp [d.atRest_disabled]
  | false => simp

theorem AtRest.retire (h : c.AtRest) {d : Device} (hd : c.slots.get f = some d) :
    (c.retire d).AtRest := by
  refine (c.atRest_retire_iff d).mpr ?_
  cases he : c.enabled with
  | true => exact .inl rfl
  | false => exact .inr (h he f d hd)

theorem exchange_of_setModule {x : Option Module} {y : Casing × Option Module}
    (h : c.setModule f x = .ok y) : c.exchange f (x.map Module.device) = y := by
  unfold setModule at h
  split at h
  · exact Except.ok.inj h
  · cases h

/-- What `setModule` hands back. -/
theorem setModule_eq_some {x : Option Module} {m : Module}
    (h : c.setModule f x = .ok (c', some m)) :
    ∃ d, c.slots.get f = some d ∧ m = ⟨⟨c.stand, f⟩, c.retire d⟩ := by
  have hx := exchange_of_setModule h
  rw [exchange_eq] at hx
  obtain ⟨d, hd, rfl⟩ := Option.map_eq_some_iff.mp (congrArg Prod.snd hx)
  exact ⟨d, hd, rfl⟩

/-- A module that was taken out can be put back. -/
theorem setModule_back {m : Module} (h : c.setModule f none = .ok (c', some m)) :
    ∃ b, c'.setModule f (some m) = .ok (b, none) := by
  obtain ⟨d, -, rfl⟩ := setModule_eq_some h
  have hc : c' = (c.exchange f none).1 := (congrArg Prod.fst (exchange_of_setModule h)).symm
  have hstand : c'.stand = c.stand := by rw [hc, exchange_eq]
  have hslot : c'.slots.get f = none := by
    rw [hc, exchange_eq]
    exact PerFace.get_set_self _ _ _
  refine ⟨(c'.exchange f (some (c.retire d))).1, ?_⟩
  simp [setModule, fits, exchange_eq, hstand, hslot]

/-- A step that faults leaves the casing as enabled as it was, too. -/
theorem enabled_step (c : Casing) : (Outcome.state (step c)).enabled = c.enabled :=
  congrArg Prod.fst (keeps_step c)

theorem step_of_disabled (h : c.enabled = false) : step c = .ok () c := by
  simp [step, h]

/-! ## What each operation does to a casing in which no device waits -/

namespace AtRest

theorem of_enabled (h : c.enabled = true) : c.AtRest := by
  intro he
  cases h.symm.trans he

theorem exchange (h : c.AtRest) (f : Face) {d : Option Device}
    (hd : ∀ x, d = some x → x.AtRest) : (c.exchange f d).1.AtRest := by
  rw [exchange_eq]
  intro he g x hx
  have hoff : c.receive = id := by
    funext y
    exact if_neg (by simpa using he)
  rw [hoff, Option.map_id, id] at hx
  simp only [PerFace.get_set] at hx
  split at hx
  · exact hd x hx
  · exact h he g x hx

theorem disable (h : c.AtRest) : c.disable.AtRest := by
  cases he : c.enabled with
  | false => simpa [Casing.disable, he] using h
  | true =>
    intro _ f d hd
    rw [slots_disable he] at hd
    obtain ⟨x, -, rfl⟩ := Option.map_eq_some_iff.mp hd
    exact x.atRest_disabled

theorem step (h : c.AtRest) : (Outcome.state (Casing.step c)).AtRest := by
  intro he
  rw [enabled_step] at he
  rw [step_of_disabled he]
  exact h he

theorem assembleAt (h : c.AtRest) (f : Face) (source : Bytes) :
    (c.assembleAt f source).AtRest := by
  intro he g d hd
  rw [enabled_assembleAt] at he
  rw [slots_assembleAt] at hd
  split at hd
  · obtain ⟨x, -, rfl⟩ := Option.map_eq_some_iff.mp hd
    exact x.atRest_assemble source
  · exact h he g d hd

end AtRest

end Casing

/-! ## Histories in which no load makes a node wait -/

/-- A rig after any acts, whether its steps fault or not, and loads of any bytes, none of which
leaves a device waiting in a casing that is not enabled. -/
inductive Rig.Undisturbed : Rig → Prop
  | new (stand : Stand) : Undisturbed (.new stand)
  | act {r : Rig} (h : Undisturbed r) (a : Act) : Undisturbed (r.perform a)
  | load {r : Rig} (h : Undisturbed r) (bytes : Bytes) (hr : (r.load bytes).casing.AtRest) :
    Undisturbed (r.load bytes)

/-- An exchange keeps the properties if the casing does and the device that leaves has the one of
the shelf. -/
theorem Rig.Kept.exchange {C : Casing → Prop} {S : Device → Prop} {r : Rig} (h : r.Kept C S)
    (f : Face) (m : Option Module) (hm : ∀ x, m = some x → S x.device)
    (hc : ∀ d, (∀ x, d = some x → S x) → C (r.casing.exchange f d).1)
    (hr : ∀ d, r.casing.slots.get f = some d → S (r.casing.retire d)) :
    (r.exchange f m).Kept C S := by
  unfold Rig.exchange
  cases hs : r.casing.setModule f m with
  | error e => exact h
  | ok y =>
    obtain ⟨c, old⟩ := y
    refine ⟨?_, fun x hx => ?_⟩
    · have hafter : C (r.casing.exchange f (m.map Module.device)).1 := by
        refine hc _ fun x hx => ?_
        obtain ⟨y, hy, rfl⟩ := Option.map_eq_some_iff.mp hx
        exact hm y hy
      rwa [Casing.exchange_of_setModule hs] at hafter
    · rcases List.mem_append.mp hx with hx | hx
      · exact h.shelf x hx
      · rw [Option.mem_toList.mp hx] at hs
        obtain ⟨d, hd, rfl⟩ := Casing.setModule_eq_some hs
        exact hr d hd

/-- A module that is taken out of its slot does not wait, either. -/
theorem Rig.Kept.exchange_atRest {r : Rig} (h : r.Kept Casing.AtRest Device.AtRest) (f : Face)
    (m : Option Module) (hm : ∀ x, m = some x → x.device.AtRest) :
    (r.exchange f m).Kept Casing.AtRest Device.AtRest :=
  h.exchange f m hm (fun _ hd => h.casing.exchange f hd) fun _ hd => h.casing.retire hd

/-- No device waits where nothing can come, be it in the casing or beside it. -/
theorem Rig.Undisturbed.atRest {r : Rig} (h : r.Undisturbed) :
    r.Kept Casing.AtRest Device.AtRest := by
  induction h with
  | new stand =>
    refine ⟨fun _ f d hd => ?_, fun m hm => ?_⟩
    · cases (slots_new stand f).symm.trans hd
    · cases hm
  | @act r _ a ih =>
    exact ih.perform a (fun order _ => order.spare_device.atRest)
      (fun _ h f m hm => h.exchange_atRest f m hm)
      (fun _ => .of_enabled r.casing.enabled_enable) (fun _ => ih.casing.disable)
      (fun _ => ih.casing.step) (fun d source _ => d.atRest_assemble source)
      fun f source _ => ih.casing.assembleAt f source
  | load _ bytes hr ih => exact ⟨hr, ih.shelf⟩

/-! ## The next turn -/

namespace Node.Fit

variable {n : Node} {ports : Ports} {i : Instruction} {mode : Mode}

/-- The turn of a node that was just installed and runs. -/
theorem turn_of_quiet (h : n.Fit) (hq : ports.Quiet) (hu : ports.Untaken) :
    ∃ s, n.machine.program.Turned (n.site ports) s ∧
      Device.step (.node n.enable, ports) =
        .ok () (.node (n.enable.withRegisters s.registers), s.ports) := by
  obtain ⟨s, hs, ht, -⟩ := (h.safe hq).turn hu
  exact ⟨s, ht, Device.step_running (n := n.enable) rfl hs⟩

/-- A node that waits for nothing starts a `MOV` over: it stays there, and if it then takes a word
to be under way the word is on its pipe. -/
theorem turn_of_clear (h : n.Fit) (hc : n.machine.registers.Clear)
    (hi : n.machine.program.current? n.machine.registers = some i) (hm : i.op = .move mode)
    (hr : i.destination.remote = true) {s : Site}
    (ht : n.machine.program.Turned (n.site ports) s) :
    s.registers.pc = n.machine.registers.pc ∧ s.registers.stalled = true ∧
      (∀ p, n.machine.program.Hands s.registers p → (s.outgoing p).writing = true) ∧
      ∀ p, mode = .immediate → i.destination = .port p →
        (s.outgoing p).writing = true ∧ (s.outgoing p).value = i.value := by
  have hidle := hc.writeInFlight
  rcases ht.listens_or_carries hi hidle with ⟨hs, -, -, rfl⟩ | ⟨v, s₁, hd, rfl⟩
  · refine ⟨rfl, rfl, fun p hp => ?_, fun p himm => ?_⟩
    · cases hidle.symm.trans hp.1
    · rw [hm, himm] at hs
      cases hs
  · have hcur := Program.current?_of_pc hd.pc hi
    rw [Program.carryOut, Instruction.delivers_of_move hm, if_pos hr]
    cases ha : s₁.addressee? i.destination with
    | none =>
      have hpc : (s₁.hold i.destination v).expect.registers.pc = s₁.registers.pc := s₁.pc_hold _ v
      refine ⟨hpc.trans hd.pc, rfl, fun p hp => ?_, fun p _ hp => ?_⟩
      · -- a word that is kept back is held by `ANY`, or `LAST` has no port for it
        obtain ⟨-, hany, j, hj, hres⟩ := hp
        cases hcur.symm.trans (Program.current?_of_pc hpc.symm hj)
        cases hdest : i.destination with
        | acc | bak | nil => rw [hdest] at hr; cases hr
        | port q => rw [hdest] at ha; cases ha
        | any => simp [Site.expect, hdest] at hany
        | last =>
          have hl : s₁.registers.last = none := by rw [hdest] at ha; exact ha
          simp [Site.expect, hdest, Target.resolves, hl] at hres
      · rw [hp] at ha
        cases ha
    | some q =>
      obtain ⟨-, -, k, hk, hq⟩ := (Program.fits_file v (h.fits.pc.congr hd.pc) hcur hm hr
        (h.fits.handed (s := n.site ports) hidle hd ha)).2
      refine ⟨(s₁.pc_file _ q v).trans hd.pc, rfl, fun p hp => ?_, fun p himm hp => ?_⟩
      · obtain ⟨-, -, j, hj, hp⟩ := hp
        cases hj.symm.trans hk
        cases Target.resolves_unique hp hq
        simp [Site.outgoing_file]
      · rw [hp] at ha
        cases ha
        obtain rfl := hd.value_of_literal (by rw [hm, himm]; rfl)
        simp [Site.outgoing_file]

/-- A node that takes its word to wait at a port, where there is none, goes on after the `MOV`. -/
theorem turn_of_hands {p : Port} (h : n.Fit)
    (hh : n.machine.program.Hands n.machine.registers p) (hq : ports.Quiet) {s : Site}
    (ht : n.machine.program.Turned (n.site ports) s) :
    s = (n.site ports).setRegisters (n.machine.program.delivered n.machine.registers) := by
  have hs := ht.eq_of_hands h.fits hh
  rwa [Node.outgoing_site, hq.writing p, if_neg Bool.false_ne_true] at hs

end Node.Fit

namespace Casing

variable {b c : Casing} {f : Face} {m : Module} {n : Node} {old : Option Module}

/-- In its turn the node `n` on face `f` stays at its `MOV`, and every word that it then takes to
wait at a port is there. -/
def WritesAnew (c : Casing) (f : Face) (n : Node) : Prop :=
  ∃ c' n', stepFace f c = .ok () c' ∧ c'.slots.get f = some (.node n') ∧
    n'.machine.registers.pc = n.machine.registers.pc ∧ n'.machine.registers.stalled = true ∧
    (∀ p, n'.machine.program.Hands n'.machine.registers p →
      (c'.pipes.pipe (Socket.opposite ⟨f, p⟩)).writing = true) ∧
    ∀ i p, n.machine.program.current? n.machine.registers = some i → i.op = .move .immediate →
      i.destination = .port p →
      (c'.pipes.pipe (Socket.opposite ⟨f, p⟩)).writing = true ∧
        (c'.pipes.pipe (Socket.opposite ⟨f, p⟩)).value = i.value

/-- In its turn the node `n` on face `f` goes on after its `MOV`, though no word of it is on a
pipe. -/
def Overlooks (c : Casing) (f : Face) (n : Node) : Prop :=
  (∀ p, (c.pipes.pipe (Socket.opposite ⟨f, p⟩)).writing = false) ∧
    ∃ c' n', stepFace f c = .ok () c' ∧ c'.slots.get f = some (.node n') ∧ c'.pipes = c.pipes ∧
      n'.machine.registers = n.machine.program.delivered n.machine.registers

/-- A node that was just installed, once the casing is enabled. -/
theorem slots_enable_setModule (h : b.setModule f (some m) = .ok (c, old))
    (hm : m.device = .node n) : c.enable.slots.get f = some (.node n.enable) := by
  have hx := exchange_of_setModule h
  rw [exchange_eq, Option.map_some, hm] at hx
  cases hx
  cases he : b.enabled with
  | true => simp [enable, receive, he, Device.enable]
  | false => simp [enable, receive, he, Device.enable]

/-- None of its requests is on the pipes. -/
theorem ports_enable_setModule (h : b.setModule f (some m) = .ok (c, old)) :
    (c.enable.pipes.ports f).Quiet ∧ (c.enable.pipes.ports f).Untaken := by
  have hx := exchange_of_setModule h
  rw [exchange_eq] at hx
  cases hx
  rw [pipes_enable, Pipes.ports_withPorts]
  exact ⟨(Ports.quiet_cancelRequests _).step, Ports.untaken_step _⟩

/-- The turn of a node that was installed, once the casing is enabled. -/
theorem turn_of_setModule (hn : n.Fit) (h : b.setModule f (some m) = .ok (c, old))
    (hm : m.device = .node n) :
    ∃ s, n.machine.program.Turned (n.site (c.enable.pipes.ports f)) s ∧ stepFace f c.enable =
      .ok () (c.enable.place f (.node (n.enable.withRegisters s.registers)) s.ports) := by
  obtain ⟨hq, hu⟩ := ports_enable_setModule h
  obtain ⟨s, ht, hs⟩ := hn.turn_of_quiet hq hu
  exact ⟨s, ht, stepFace_of_some (slots_enable_setModule h hm) hs⟩

theorem writesAnew_of_clear {i : Instruction} {mode : Mode} (hn : n.Fit)
    (hc : n.machine.registers.Clear) (h : b.setModule f (some m) = .ok (c, old))
    (hm : m.device = .node n) (hi : n.machine.program.current? n.machine.registers = some i)
    (ho : i.op = .move mode) (hr : i.destination.remote = true) : c.enable.WritesAnew f n := by
  obtain ⟨s, ht, hs⟩ := turn_of_setModule hn h hm
  obtain ⟨hpc, hst, hhands, himm⟩ := hn.turn_of_clear hc hi ho hr ht
  refine ⟨_, _, hs, PerFace.get_set_self _ _ _, hpc, hst, fun p hp => ?_, fun j p hj hjm hjp => ?_⟩
  · rw [pipe_place_opposite]
    exact hhands p hp
  · cases hi.symm.trans hj
    rw [pipe_place_opposite]
    cases ho.symm.trans hjm
    exact himm p rfl hjp

theorem overlooks_of_hands {p : Port} (hn : n.Fit)
    (hh : n.machine.program.Hands n.machine.registers p)
    (h : b.setModule f (some m) = .ok (c, old)) (hm : m.device = .node n) :
    c.enable.Overlooks f n := by
  obtain ⟨s, ht, hs⟩ := turn_of_setModule hn h hm
  have hq := (ports_enable_setModule h).1
  obtain rfl := hn.turn_of_hands hh hq ht
  refine ⟨fun q => ?_, _, _, hs, PerFace.get_set_self _ _ _, Pipes.withPorts_ports _ _, rfl⟩
  rw [← Pipes.outgoing_ports]
  exact hq.writing q

end Casing

/-! ## Every node that waits can come out waiting -/

namespace Rig

variable {r : Rig} {W : Casing → Casing → Prop} {f : Face} {n : Node}

/-- A casing that is not enabled and has one node, on face `f`, after it loads a snapshot of this
one. -/
def laidUp (r : Rig) (stand : Stand) (f : Face) : Rig := (writer stand f .left).load r.casing.save

theorem reached_laidUp (h : r.Reached W) (hc : r.casing.Compact) (stand : Stand) (f : Face) :
    (r.laidUp stand f).Reached Casing.Anything :=
  (reached_writer stand f .left).anything.load h.anything hc trivial

theorem casing_laidUp (h : r.Reached W) (hc : r.casing.Compact) (stand : Stand) (f : Face) :
    (r.laidUp stand f).casing = r.casing.restored (writer stand f .left).casing := by
  have hl := Casing.load_save (h.able.casing.portable hc) (writer stand f .left).casing
  simp only [laidUp, load, hl, Outcome.state]

/-- The node of the snapshot comes out as it was saved. -/
theorem setModule_laidUp (h : r.Reached W) (hc : r.casing.Compact) (stand : Stand)
    (hn : r.casing.slots.get f = some (.node n)) :
    ∃ c m n', (r.laidUp stand f).casing.setModule f none = .ok (c, some m) ∧ m.device = .node n' ∧
      n'.machine.registers = n.machine.registers ∧ n'.machine.program = n.machine.program := by
  have hfit : n.Fit := h.able.casing.holds f _ hn
  obtain ⟨w, hslot⟩ : ∃ w : Node,
      (r.laidUp stand f).casing.slots.get f = some (.node (n.restored w)) := by
    rw [casing_laidUp h hc]
    simp only [Casing.restored, PerFace.get_ofFn, hn, slots_writer, if_true]
    exact ⟨_, rfl⟩
  have hoff : (r.laidUp stand f).casing.enabled = false := by
    rw [casing_laidUp h hc]
    exact enabled_writer stand f .left
  have hout : ((r.laidUp stand f).casing.exchange f none).2 =
      some ⟨⟨(r.laidUp stand f).casing.stand, f⟩, .node (n.restored w)⟩ := by
    rw [Casing.exchange_eq]
    simp [hslot, Casing.retire, hoff]
  refine ⟨((r.laidUp stand f).casing.exchange f none).1, ⟨⟨(r.laidUp stand f).casing.stand, f⟩, _⟩,
    n.restored w, ?_, rfl, rfl, hfit.compiled.program_restored w⟩
  rw [← hout]
  rfl

/-- A node that `setModule` hands back waits for nothing if the casing is enabled or the node did
not wait there, and in no other case. A node that waits for nothing starts its `MOV` over when it is
installed again; one that took its word to wait at a port goes on after the `MOV`. Unless a load
makes a node wait in a casing that is not enabled, nodes always come out waiting for nothing; but
from every casing a load can bring a node into one that is not enabled, with all that it waits
for. -/
theorem removed_node_clear_iff (r : Rig) (f : Face) :
    (∀ x c m (n : Node), r.casing.setModule f x = .ok (c, some m) → m.device = .node n →
      (∃ n₀, r.casing.slots.get f = some (.node n₀) ∧
        (n.machine.registers.Clear ↔
          r.casing.enabled = true ∨ n₀.machine.registers.Clear)) ∧
      (r.Undisturbed → n.machine.registers.Clear) ∧
      (r.Reached Casing.Anything →
        ∀ (b c' : Casing) old, b.setModule f (some m) = .ok (c', old) →
          (∀ i mode, n.machine.program.current? n.machine.registers = some i →
            i.op = .move mode → i.destination.remote = true → n.machine.registers.Clear →
            c'.enable.WritesAnew f n) ∧
          ∀ p, n.machine.program.Hands n.machine.registers p → c'.enable.Overlooks f n)) ∧
    ∀ (n : Node) stand, r.Reached Casing.Anything → r.casing.Compact →
      r.casing.slots.get f = some (.node n) →
      (r.laidUp stand f).Reached Casing.Anything ∧
        ∃ c m, ∃ n' : Node, (r.laidUp stand f).casing.setModule f none = .ok (c, some m) ∧
          m.device = .node n' ∧ n'.machine.registers = n.machine.registers ∧
          n'.machine.program = n.machine.program := by
  refine ⟨fun x c m n hx hm => ?_, fun n stand h hc hn =>
    ⟨reached_laidUp h hc stand f, setModule_laidUp h hc stand hn⟩⟩
  obtain ⟨d, hd, rfl⟩ := Casing.setModule_eq_some hx
  have hiff := r.casing.atRest_retire_iff d
  replace hm : r.casing.retire d = .node n := hm
  rw [hm] at hiff
  refine ⟨?_, fun h => ?_, fun h b c' old hb => ?_⟩
  · cases d with
    | node n₀ => exact ⟨n₀, hd, hiff⟩
    | meter k | ticker k =>
      unfold Casing.retire at hm
      split at hm <;> cases hm
  · have := h.atRest.casing.retire hd
    rwa [hm] at this
  · have hfit : (r.casing.retire d).Fit := by
      have hf : d.Fit := h.able.casing.holds f d hd
      unfold Casing.retire
      split
      · exact hf.disabled
      · exact hf
    rw [hm] at hfit
    exact ⟨fun i mode hi ho hr hc => Casing.writesAnew_of_clear hfit hc hb hm hi ho hr,
      fun p hp => Casing.overlooks_of_hands hfit hp hb hm⟩

/-- A casing in which a node has just handed a word over, with an instruction after that. -/
def sending : Rig :=
  (Rig.new .first).run
    [.make ⟨⟨.first, .zNeg⟩, .node, ascii "MOV 5, RIGHT\nNOP"⟩, .install .zNeg 0, .enable, .step]

theorem reached_sending : sending.Reached Casing.Anything :=
  ((Reached.new .first).run (by decide)).anything

theorem compact_sending : sending.casing.Compact :=
  Casing.compact_of_all fun f => by cases f <;> decide +kernel

theorem hands_sending : ∃ n : Node, sending.casing.slots.get .zNeg = some (.node n) ∧
    n.machine.program.Hands n.machine.registers .right := by
  have h : (sending.casing.node? .zNeg).any (fun n => n.machine.registers.writeInFlight &&
      n.machine.registers.anyWrite.isNone && (n.machine.program.current? n.machine.registers).any
        fun i => i.destination.resolves n.machine.registers.last .right) = true := by
    decide +kernel
  obtain ⟨n, hn, h⟩ := (Option.any_eq_true _ _).mp h
  simp only [Bool.and_eq_true, Option.isNone_iff_eq_none, Option.any_eq_true] at h
  exact ⟨n, Casing.node?_eq_some.mp hn, h.1.1, h.1.2, h.2⟩

/-- The same casing after it was disabled and went back to the snapshot. -/
def resumed : Rig := (sending.perform .disable).load sending.casing.save

/-- A node comes out of a casing that is not enabled and takes its word to be on a pipe. Installed
again, it goes on to the next instruction, and nobody got the word. -/
theorem removed_node_skips_write : resumed.Reached Casing.Anything ∧
    resumed.casing.enabled = false ∧
    (resumed.run [.remove .zNeg]).shelf.map
      (fun m => m.device.node?.map fun n => n.machine.registers) =
        [some { pc := 0, writeInFlight := true, stalled := true }] ∧
    (∀ s, ((resumed.run [.remove .zNeg]).casing.pipes.pipe s).writing = false) ∧
    ((resumed.run [.remove .zNeg, .install .zNeg 0, .enable, .step]).casing.node? .zNeg).map
      (fun n => n.machine.registers) = some { pc := 1 } := by
  have hpipes : ∀ s ∈ Casing.sockets,
      ((resumed.run [.remove .zNeg]).casing.pipes.pipe s).writing = false := by decide +kernel
  refine ⟨?_, by decide +kernel, by decide +kernel, fun s => hpipes s (Casing.mem_sockets s),
    by decide +kernel⟩
  exact (reached_sending.act rfl (by simp)).load reached_sending compact_sending trivial

/-- A snapshot of `sending` brings its node into a casing that is not enabled. It comes out as it
was saved, and when it is put back it goes on without its word. -/
theorem removed_node_clear_iff_sending : sending.Reached Casing.Anything ∧ sending.casing.Compact ∧
    ∃ c c' m, ∃ n : Node,
      (sending.laidUp .second .zNeg).casing.setModule .zNeg none = .ok (c, some m) ∧
      m.device = .node n ∧ ¬ n.machine.registers.Clear ∧
      c.setModule .zNeg (some m) = .ok (c', none) ∧ c'.enable.Overlooks .zNeg n := by
  obtain ⟨n, hn, hh⟩ := hands_sending
  obtain ⟨hl, c, m, n', hx, hm, hr, hp⟩ := (removed_node_clear_iff sending .zNeg).2 n .second
    reached_sending compact_sending hn
  obtain ⟨-, -, hturn⟩ :=
    (removed_node_clear_iff (sending.laidUp .second .zNeg) .zNeg).1 none c m n' hx hm
  obtain ⟨c', hc'⟩ := Casing.setModule_back hx
  rw [← hr, ← hp] at hh
  refine ⟨reached_sending, compact_sending, c, c', m, n', hx, hm, fun hc => ?_, hc',
    (hturn hl c c' none hc').2 .right hh⟩
  cases hc.writeInFlight.symm.trans hh.1

end Rig

end NodeCube
