import NodeCube.Proofs.Casing.Collisions
import NodeCube.Proofs.Casing.Restore

/-!
# When a step can fault

In histories that also load snapshots, nodes may get write requests that they know nothing of, and
then a step can fault, by a collision only (`Rig.Reached.able`). It starts with a request that loses
its owner: loaded into a casing without a node on that face, it stays on the pipe
(`Casing.Orphan`). If a snapshot of that casing is then loaded where the face has a node, the node's
next write to that port faults (`Rig.step_of_orphan`).

As long as no orphan is loaded onto a face with a node (`Casing.Welcomes`), no step faults
(`Rig.Reached.step_ok`).
-/

namespace NodeCube

/-! ## Histories with snapshots -/

namespace Casing

/-- A write request of a face without a device. -/
def Orphan (c : Casing) (f : Face) (p : Port) : Prop :=
  c.slots.get f = none ∧ (c.pipes.pipe (Socket.opposite ⟨f, p⟩)).writing = true

/-- No orphan of `a` belongs to a face with a device in `b`. -/
def Welcomes (b a : Casing) : Prop := ∀ f p, a.Orphan f p → b.slots.get f = none

/-- Every node's part of a snapshot is shorter than 4 GiB. -/
def Compact (c : Casing) : Prop :=
  ∀ f n, c.slots.get f = some (.node n) → n.encode.length < UInt32.size

theorem compact_of_all {c : Casing} (h : ∀ f, (c.slots.get f).all
    (fun d => d.encode.length < UInt32.size) = true) : c.Compact := by
  intro f n hn
  have hf := h f
  rw [hn] at hf
  exact of_decide_eq_true hf

end Casing

/-- Loads a snapshot; if it is refused, what was restored on the way stays. -/
def Rig.load (bytes : Bytes) (r : Rig) : Rig :=
  { r with casing := Outcome.state (Casing.load bytes r.casing) }

/-- Whether all that an act makes is a node. -/
def Act.makesNodes : Act → Bool
  | .make order => order.kind == .node
  | _ => true

/-- A rig of nodes after any acts, of which no step faulted so far, and loads of compact snapshots
that were saved on such rigs, as far as `W` allows to load them. -/
inductive Rig.Reached (W : Casing → Casing → Prop) : Rig → Prop
  | new (stand : Stand) : Reached W (.new stand)
  | act {r : Rig} (h : Reached W r) {a : Act} (ha : a.makesNodes = true)
    (hs : a = .step → ∃ c, Casing.step r.casing = .ok () c) : Reached W (r.perform a)
  | load {r saved : Rig} (h : Reached W r) (hs : Reached W saved) (hc : saved.casing.Compact)
    (hw : W r.casing saved.casing) : Reached W (r.load saved.casing.save)

/-- Any snapshot may be loaded. -/
def Casing.Anything (_ _ : Casing) : Prop := True

/-! ## What is restored -/

namespace Node

variable {m n : Node} {ports : Ports}

theorem Fit.portable (h : m.Fit) (hl : m.encode.length < UInt32.size) : m.Portable := by
  have hlen := (Assembler.compile_sound m.source).2
  rw [← h.compiled] at hlen
  obtain ⟨h₀, h₁⟩ := h.fits.pc
  have : Assembler.maxLines = 20 := rfl
  exact ⟨hl, h₀, by omega⟩

/-- A node that is restored gets the program of the one that was saved. -/
theorem Compiled.program_restored (h : m.Compiled) (n : Node) :
    (m.restored n).machine.program = m.machine.program := h.symm

theorem Fit.restored (h : m.Fit) (n : Node) : (m.restored n).Fit := by
  refine ⟨n.compiled_assemble m.source, ?_⟩
  rw [h.compiled.program_restored]
  exact h.fits

theorem Safe.restored (h : m.Safe ports) (n : Node) : (m.restored n).Safe ports := by
  refine ⟨n.compiled_assemble m.source, ?_⟩
  rw [h.compiled.program_restored]
  exact h.owns

end Node

namespace Casing

variable {a b : Casing}

theorem Each.portable (h : a.Each fun d _ => Device.Able d) (hc : a.Compact) : a.Portable := by
  intro f d hd
  match d, h.holds f d hd with
  | .node m, hf => exact ⟨m, rfl, Node.Fit.portable hf (hc f m hd)⟩

theorem Each.restored_able (ha : a.Each fun d _ => Device.Able d)
    (hb : b.Each fun d _ => Device.Able d) : (a.restored b).Each fun d _ => Device.Able d where
  untaken := ha.untaken
  holds f := by
    simp only [Casing.restored, PerFace.get_ofFn]
    unfold restoredSlot
    split
    · rename_i m n hm hn
      rintro x ⟨rfl⟩
      exact Node.Fit.restored (ha.holds f _ hm) n
    · exact hb.holds f

theorem Each.restored (ha : a.Each Device.Safe) (hb : b.Each Device.Safe) (hw : b.Welcomes a) :
    (a.restored b).Each Device.Safe where
  untaken := ha.untaken
  holds f := by
    have hfa := ha.holds f
    have hfb := hb.holds f
    simp only [Casing.restored, PerFace.get_ofFn]
    cases hd : b.slots.get f with
    | none =>
      rw [restoredSlot_none]
      trivial
    | some d =>
      rw [hd] at hfb
      obtain ⟨n, rfl⟩ := Device.Safe.eq_node hfb
      have hfb : n.Safe _ := hfb
      cases ho : a.slots.get f with
      | some e =>
        rw [ho] at hfa
        obtain ⟨m, rfl⟩ := Device.Safe.eq_node hfa
        exact Node.Safe.restored hfa n
      | none =>
        -- the node keeps its registers, and the requests of its face are those of `a`
        refine ⟨hfb.compiled, .of_free hfb.owns.fits fun p => ?_⟩
        rw [Node.outgoing_site, Pipes.outgoing_ports]
        cases hp : (a.pipes.pipe (Socket.opposite ⟨f, p⟩)).writing with
        | false => rfl
        | true =>
          have := hw f p ⟨ho, hp⟩
          rw [hd] at this
          cases this

end Casing

namespace Rig.Reached

variable {r : Rig} {W : Casing → Casing → Prop}

theorem fit_of_makesNodes {a : Act} (ha : a.makesNodes = true) (order : Order)
    (ho : a = .make order) : Device.Fit order.device := by
  subst ho
  obtain ⟨mount, kind, source⟩ := order
  cases eq_of_beq ha
  exact (Order.spare_device ⟨mount, .node, source⟩).fit

/-- Whatever was loaded, the registers of all nodes fit their programs. -/
theorem able (h : r.Reached W) : r.Under (fun _ d _ => Device.Able d) Device.Fit := by
  induction h with
  | new stand => exact Device.able_regime.new stand
  | @act r _ a ha hs ih =>
    refine Device.able_regime.perform ih a (fit_of_makesNodes ha) fun e => ?_
    obtain ⟨c, hc⟩ := hs e
    rcases ih.casing.step_cases with ⟨c', hc', -, hk⟩ | ⟨-, f, p, c', hc', -⟩
    · rw [hc']
      exact hk
    · cases hc.symm.trans hc'
  | @load r saved _ _ hc _ ih ihs =>
    refine ⟨?_, ih.shelf⟩
    have hl := Casing.load_save (ihs.casing.portable hc) r.casing
    simp only [Rig.load, hl, Outcome.state]
    exact ihs.casing.restored_able ih.casing

/-- While no orphan is loaded onto a face with a node, the nodes own the write requests. -/
theorem safe (h : r.Reached Casing.Welcomes) : r.Under (fun _ => Device.Safe) Device.Fit := by
  induction h with
  | new stand => exact Device.safe_regime.new stand
  | act _ ha _ ih =>
    exact Device.safe_regime.perform_local (fun _ => Device.local_safe) ih _ (fit_of_makesNodes ha)
  | @load r saved _ hs hc hw ih ihs =>
    refine ⟨?_, ih.shelf⟩
    have hl := Casing.load_save (hs.able.casing.portable hc) r.casing
    simp only [Rig.load, hl, Outcome.state]
    exact ihs.casing.restored ih.casing hw

/-- Then no step faults. -/
theorem step_ok (h : r.Reached Casing.Welcomes) : ∃ c, Casing.step r.casing = .ok () c := by
  obtain ⟨c, hc, -⟩ := h.safe.casing.step (K := fun _ => Device.Safe) fun _ => Device.local_safe
  exact ⟨c, hc⟩

theorem anything (h : r.Reached W) : r.Reached Casing.Anything := by
  induction h with
  | new stand => exact .new stand
  | act _ ha hs ih => exact ih.act ha hs
  | load _ _ hc _ ih ihs => exact ih.load ihs hc trivial

/-- Any acts may follow. -/
theorem run (h : r.Reached Casing.Welcomes) {acts : List Act}
    (ha : ∀ a ∈ acts, a.makesNodes = true) : (r.run acts).Reached Casing.Welcomes := by
  induction acts generalizing r with
  | nil => exact h
  | cons a acts ih =>
    exact ih (h.act (ha a List.mem_cons_self) fun _ => h.step_ok)
      fun b hb => ha b (List.mem_cons_of_mem a hb)

end Rig.Reached

/-! ## A request that a node knows nothing of -/

/-- A `MOV` of a word to a port whose pipe has a word already. -/
theorem Program.collides_immediate {program : Program} {s : Site} {i : Instruction} {p : Port}
    (hi : program.current? s.registers = some i) (hm : i.op = .move .immediate)
    (hd : i.destination = .port p) (hf : s.registers.writeInFlight = false)
    (hw : (s.outgoing p).writing = true) : program.Collides s p where
  flight := hf
  move := by
    refine ⟨i, .immediate, i.value, s, hi, hm, .literal (by rw [hm]; rfl), ?_⟩
    rw [hd]
    rfl
  busy := hw

/-- The faces before one that is the only face with a device have nothing to do. -/
theorem Casing.stepFaces_of_empty {c : Casing} {faces : List Face}
    (h : ∀ g ∈ faces, c.slots.get g = none) : stepFaces faces c = .ok () c := by
  induction faces with
  | nil => rfl
  | cons g faces ih =>
    refine (Outcome.bind_ok (stepFace_of_none (h g List.mem_cons_self))).trans (ih ?_)
    exact fun g' hg => h g' (List.mem_cons_of_mem g hg)

namespace Rig

/-- A new casing whose only device is a node on face `f` that writes zero to port `p`. -/
def writer (stand : Stand) (f : Face) (p : Port) : Rig :=
  (Rig.new stand).run
    [.make ⟨⟨stand, f⟩, .node, ascii "MOV 0, " ++ p.name⟩, .install f 0]

theorem reached_writer (stand : Stand) (f : Face) (p : Port) :
    (writer stand f p).Reached Casing.Welcomes := by
  refine (Reached.new stand).run fun a ha => ?_
  rcases List.mem_cons.mp ha with rfl | ha
  · rfl
  · cases List.mem_singleton.mp ha
    rfl

theorem exchange_of_fits {r : Rig} {f : Face} {m : Module} (h : r.casing.fits f m = true) :
    r.exchange f (some m) =
      { casing := (r.casing.exchange f (some m.device)).1
        shelf := r.shelf ++ (r.casing.exchange f (some m.device)).2.toList } := by
  simp [exchange, Casing.setModule, h]

theorem casing_writer (stand : Stand) (f : Face) (p : Port) :
    (writer stand f p).casing = ((Casing.new stand).exchange f
      (some (.node (Node.ofSource (ascii "MOV 0, " ++ p.name))))).1 := by
  have hfits : (Casing.new stand).fits f
      (Order.make ⟨⟨stand, f⟩, .node, ascii "MOV 0, " ++ p.name⟩) = true :=
    beq_self_eq_true _
  exact congrArg Rig.casing (exchange_of_fits (r := { Rig.new stand with shelf := [] }) hfits)

theorem enabled_writer (stand : Stand) (f : Face) (p : Port) :
    (writer stand f p).casing.enabled = false := by
  rw [casing_writer, Casing.exchange_eq]
  rfl

theorem slots_writer (stand : Stand) (f : Face) (p : Port) (g : Face) :
    (writer stand f p).casing.slots.get g =
      if g = f then some (.node (Node.ofSource (ascii "MOV 0, " ++ p.name))) else none := by
  rw [casing_writer, Casing.exchange_eq]
  dsimp only
  rw [PerFace.get_set]
  split
  · rfl
  · exact PerFace.get_replicate none g

/-- The node of `writer` is about to write. -/
theorem node_writer (p : Port) :
    ∃ n i, Node.ofSource (ascii "MOV 0, " ++ p.name) = n ∧
      n.machine.program.current? n.machine.registers = some i ∧ i.op = .move .immediate ∧
      i.destination = .port p ∧ n.machine.registers.writeInFlight = false := by
  refine ⟨_, { op := .move .immediate, destination := .port p }, rfl, ?_, rfl, rfl,
    (Node.clear_assemble {} _).writeInFlight⟩
  cases p <;> decide +kernel

/-- The casing of `writer` after it loads a snapshot of this one and is enabled. -/
def strayed (r : Rig) (stand : Stand) (f : Face) (p : Port) : Rig :=
  ((writer stand f p).load r.casing.save).perform .enable

variable {r : Rig} {W : Casing → Casing → Prop}

theorem reached_strayed (h : r.Reached W) (hc : r.casing.Compact) (stand : Stand) (f : Face)
    (p : Port) : (r.strayed stand f p).Reached Casing.Anything :=
  ((reached_writer stand f p).anything.load h.anything hc trivial).act rfl nofun

section Strayed

variable (h : r.Reached W) (hc : r.casing.Compact) (stand : Stand) (f : Face) (p : Port)
include h hc

theorem casing_strayed : (r.strayed stand f p).casing =
    { r.casing.restored (writer stand f p).casing with
      enabled := true
      slots := (r.casing.restored (writer stand f p).casing).slots.map
        (Option.map Device.enable) } := by
  have hl := Casing.load_save (h.able.casing.portable hc) (writer stand f p).casing
  have hoff : (r.casing.restored (writer stand f p).casing).enabled = false :=
    enabled_writer stand f p
  simp only [strayed, perform, load, hl, Outcome.state, Casing.enable_eq hoff]

/-- Where there was nothing to restore, the node of `writer` is as it was. -/
theorem slots_strayed (hf : r.casing.slots.get f = none) (g : Face) :
    (r.strayed stand f p).casing.slots.get g =
      if g = f then some (.node (Node.ofSource (ascii "MOV 0, " ++ p.name)).enable) else none := by
  rw [casing_strayed h hc]
  simp only [Casing.restored, PerFace.get_map, PerFace.get_ofFn, slots_writer]
  split
  · rename_i e
    rw [e, hf]
    rfl
  · rw [Casing.restoredSlot_none]
    rfl

/-- The node of `writer` gets an orphan of its port. -/
theorem collides_strayed (ho : r.casing.Orphan f p) :
    (r.strayed stand f p).casing.enabled = true ∧
      (r.strayed stand f p).casing.Collides f p := by
  have hslots := slots_strayed h hc stand f p ho.1
  obtain ⟨n, i, hn, hi, hm, hd, hf⟩ := node_writer p
  rw [hn] at hslots
  have hround : Casing.stepFaces (Face.all.takeWhile (· != f)) (r.strayed stand f p).casing =
      .ok () (r.strayed stand f p).casing := by
    refine Casing.stepFaces_of_empty fun g hg => ?_
    have hne : g ≠ f := by simpa using List.all_eq_true.mp List.all_takeWhile g hg
    rw [hslots, if_neg hne]
  have hnode : (r.strayed stand f p).casing.slots.get f = some (.node n.enable) := by
    rw [hslots, if_pos rfl]
  refine ⟨by rw [casing_strayed h hc], _, _, hround, hnode, n.enable, rfl, rfl,
    Program.collides_immediate hi hm hd hf ?_⟩
  rw [Node.outgoing_site, Pipes.outgoing_ports, casing_strayed h hc]
  exact ho.2

end Strayed

/-- Whatever casing has an orphan, a snapshot of it makes the node of `writer` fault. -/
theorem step_of_orphan {f : Face} {p : Port} (h : r.Reached W) (hc : r.casing.Compact)
    (ho : r.casing.Orphan f p) (stand : Stand) :
    ∃ c, Casing.step (r.strayed stand f p).casing = .error (.concurrentWrite p) c := by
  obtain ⟨he, hcol⟩ := collides_strayed h hc stand f p ho
  exact (reached_strayed h hc stand f p).able.casing.step_of_collides he hcol

/-- A casing in which a node has just handed a word over. -/
def midway : Rig := (writer .first .zNeg .right).run [.enable, .step]

/-- An empty casing that loads a snapshot of `midway` is left with the word. -/
def bereft : Rig := (Rig.new .second).load midway.casing.save

theorem reached_midway : midway.Reached Casing.Welcomes := (reached_writer _ _ _).run (by decide)

theorem compact_midway : midway.casing.Compact :=
  Casing.compact_of_all fun f => by cases f <;> decide +kernel

theorem reached_bereft : bereft.Reached Casing.Welcomes :=
  (Reached.new .second).load reached_midway compact_midway fun f _ _ =>
    PerFace.get_replicate none f

theorem casing_bereft : bereft.casing = midway.casing.restored (Casing.new .second) := by
  have hl := Casing.load_save (reached_midway.able.casing.portable compact_midway)
    (Casing.new .second)
  simp only [bereft, load, Rig.new, hl, Outcome.state]

theorem slots_bereft (f : Face) : bereft.casing.slots.get f = none := by
  rw [casing_bereft, Casing.restored, PerFace.get_ofFn, Casing.new, PerFace.get_replicate]
  exact Casing.restoredSlot_none _

theorem orphan_bereft : bereft.casing.Orphan .zNeg .right := by
  refine ⟨slots_bereft .zNeg, ?_⟩
  rw [casing_bereft]
  show (midway.casing.pipes.pipe _).writing = true
  decide +kernel

theorem compact_bereft : bereft.casing.Compact := by
  intro f n hn
  rw [slots_bereft] at hn
  cases hn

/-- After any history with snapshots, a step can fault by a collision only, and it does just when a
device collides. It never does if no orphan was loaded onto a face with a node; but whenever there
is an orphan, one more snapshot leads to a fault. -/
theorem step_faults_iff_collides (r : Rig) (h : r.Reached Casing.Anything) :
    (∀ e c, Casing.step r.casing = .error e c → ∃ p, e = .concurrentWrite p) ∧
    ((∃ e c, Casing.step r.casing = .error e c) ↔
      r.casing.enabled = true ∧ ∃ f p, r.casing.Collides f p) ∧
    (r.Reached Casing.Welcomes → ∃ c, Casing.step r.casing = .ok () c) ∧
    ∀ f p stand, r.casing.Compact → r.casing.Orphan f p →
      (r.strayed stand f p).Reached Casing.Anything ∧
        ∃ c, Casing.step (r.strayed stand f p).casing = .error (.concurrentWrite p) c := by
  refine ⟨fun e c hs => ?_, h.able.casing.step_faults_iff, Reached.step_ok,
    fun f p stand hc ho => ⟨reached_strayed h hc stand f p, step_of_orphan h hc ho stand⟩⟩
  rcases h.able.casing.step_cases with ⟨c', hc, -⟩ | ⟨-, f, p, c', hc, -⟩
  · cases hs.symm.trans hc
  · cases hs.symm.trans hc
    exact ⟨p, rfl⟩

/-- A step faults: an empty casing loads a word that is under way, and a casing with a node that is
about to write there loads a snapshot of that. -/
theorem step_faults_after_two_loads :
    (bereft.strayed .first .zNeg .right).Reached Casing.Anything ∧
      ∃ c, Casing.step (bereft.strayed .first .zNeg .right).casing =
        .error (.concurrentWrite .right) c :=
  ⟨reached_strayed reached_bereft compact_bereft .first .zNeg .right,
    step_of_orphan reached_bereft compact_bereft orphan_bereft .first⟩

/-- There a device collides. -/
theorem step_faults_iff_collides_strayed :
    (bereft.strayed .first .zNeg .right).Reached Casing.Anything ∧
      ∃ f p, (bereft.strayed .first .zNeg .right).casing.Collides f p := by
  have h := reached_strayed reached_bereft compact_bereft .first .zNeg .right
  obtain ⟨c, hc⟩ := step_of_orphan reached_bereft compact_bereft orphan_bereft .first
  exact ⟨h, ((step_faults_iff_collides _ h).2.1.mp ⟨_, c, hc⟩).2⟩

end Rig

end NodeCube
