import NodeCube.Proofs.Casing.Removal
import NodeCube.Proofs.Workshop.Footprint

/-!
# Modules beside a casing

A module that is not installed still knows the ports of the face that it is made for, where another
one may be at work. Whatever it is asked (`Request`), it leaves them alone as long as it does not
run (`Request.act_of_follows`), and no module beside a casing ever runs (`Rig.Handled.kept`).
-/

namespace NodeCube

open Snapshot

open Outcome (Keeps)

/-! ## Requests to a module -/

namespace Workshop

theorem state_callDevice_load (part : Part) (bytes : Bytes) (s : Device × Ports) :
    Outcome.state (callDevice part (.load bytes) s) =
      (Outcome.state (Device.restore part.installed (s, Cursor.start bytes))).1 := by
  simp only [callDevice]
  cases Device.restore part.installed (s, Cursor.start bytes) <;> rfl

/-- Pipes that are put back as they are leave the casings as they are. -/
theorem casing_setPorts {w : Workshop} {mount : Mount} {ports : Ports}
    (h : ports = w.ports mount) (t : Stand) :
    ((w.setPorts mount ports).bench t).casing = (w.bench t).casing := by
  subst h
  unfold setPorts Workshop.ports
  rw [bench_setBench]
  split
  · rename_i e
    rw [e, Pipes.withPorts_ports]
  · rfl

theorem casing_setDevice_spare (w : Workshop) (s t : Stand) (f : Face) (m : Module) :
    ((w.setDevice s ⟨f, .spare⟩ m).bench t).casing = (w.bench t).casing := by
  simp only [setDevice, bench_setBench]
  split
  · rename_i e
    rw [e]
  · rfl

/-- What leaves the ports of a spare alone changes neither casing. -/
theorem casing_onDevice_spare {w : Workshop} {s : Stand} {f : Face} {m : Module}
    {a : Performance (Device × Ports)} (hm : (w.bench s).spare.get f = some m)
    (ha : (Outcome.state (a (m.device, w.ports m.mount))).2 = w.ports m.mount) (t : Stand) :
    ((Outcome.state (onDevice s ⟨f, .spare⟩ a w)).bench t).casing = (w.bench t).casing := by
  have hd : w.device? s ⟨f, .spare⟩ = some m := hm
  simp only [onDevice, hd, Outcome.state_within]
  refine (casing_setPorts ?_ t).trans (casing_setDevice_spare w s t f _)
  rw [ha, Workshop.ports, Workshop.ports, casing_setDevice_spare]

end Workshop

/-- What a module can be asked that is not installed. -/
inductive Request where
  | assemble (source : Bytes)
  | step
  | save
  | load (bytes : Bytes)

namespace Request

/-- The request to the spare of a face, as a command. -/
def command (f : Face) : Request → Command
  | .assemble source => .assemble ⟨f, .spare⟩ source
  | .step => .device ⟨f, .spare⟩ .step
  | .save => .device ⟨f, .spare⟩ .save
  | .load bytes => .device ⟨f, .spare⟩ (.load bytes)

/-- Gives the device a source if it is a node; a detached one. -/
def assembleDetached (source : Bytes) : Performance (Device × Ports)
  | (.node n, ports) =>
    let t := Node.assembleAt false source (n, ports)
    .ok (.verdict t.1.diagnostic) (Device.ofNode t)
  | s => .error .noDevice s

/-- What the device of face `f` does at the ports there. -/
def act (f : Face) : Request → Performance (Device × Ports)
  | .assemble source => assembleDetached source
  | .step => Workshop.callDevice ⟨f, .spare⟩ .step
  | .save => Workshop.callDevice ⟨f, .spare⟩ .save
  | .load bytes => Workshop.callDevice ⟨f, .spare⟩ (.load bytes)

theorem perform_command (q : Request) (s : Stand) (f : Face) :
    Workshop.perform s (q.command f) = Workshop.onDevice s ⟨f, .spare⟩ (q.act f) := by
  cases q with
  | assemble source =>
    rw [command, Workshop.perform]
    unfold Workshop.onNode
    refine congrArg (Workshop.onDevice s ⟨f, .spare⟩) (funext fun t => ?_)
    obtain ⟨d, ports⟩ := t
    cases d <;> rfl
  | step | save | load => rfl

/-- A device that does not run leaves the ports alone, and starts to run by no request. -/
theorem act_of_follows {d : Device} (h : d.Follows false) (q : Request) (f : Face) (ports : Ports) :
    (Outcome.state (q.act f (d, ports))).2 = ports ∧
      (Outcome.state (q.act f (d, ports))).1.Follows false := by
  cases q with
  | assemble source =>
    cases d with
    | node n => exact ⟨rfl, h⟩
    | meter | ticker => exact ⟨rfl, h⟩
  | step =>
    rw [act, Workshop.callDevice, Performance.state_ofFaulting]
    exact ⟨Device.ports_step h ports, h.congr (Device.keeps_step (d, ports))⟩
  | save => exact ⟨rfl, h⟩
  | load bytes =>
    have hkeeps : Keeps (fun x => (x.1.1.runs?, x.1.2)) (Device.restore false) :=
      Device.keeps_restore (v := fun s => (s.1.runs?, s.2)) (fun _ _ => rfl) fun _ _ _ => rfl
    have hk := hkeeps ((d, ports), Cursor.start bytes)
    rw [act, Workshop.state_callDevice_load]
    exact ⟨congrArg Prod.snd hk, h.congr (congrArg Prod.fst hk)⟩

end Request

/-! ## Histories -/

namespace Rig

/-- Asks a module on the shelf, at the ports of the face that it is made for. One that is made for
another casing has no ports here. -/
def ask (i : Nat) (q : Request) : Performance Rig := fun r =>
  match r.shelf[i]? with
  | none => .error .noDevice r
  | some m =>
    if m.mount.stand = r.casing.stand then
      Outcome.within
        (fun (d, ports) =>
          { casing := { r.casing with pipes := r.casing.pipes.withPorts m.mount.face ports }
            shelf := r.shelf.set i { m with device := d } })
        (q.act m.mount.face (m.device, r.casing.pipes.ports m.mount.face))
    else .error .noDevice r

/-- A rig after any acts, loads of any bytes and requests, whether they succeed or not. -/
inductive Handled : Rig → Prop
  | new (stand : Stand) : Handled (.new stand)
  | act {r : Rig} (h : Handled r) (a : Act) : Handled (r.perform a)
  | load {r : Rig} (h : Handled r) (bytes : Bytes) : Handled (r.load bytes)
  | ask {r : Rig} (h : Handled r) (i : Nat) (q : Request) : Handled (Outcome.state (r.ask i q))

variable {r : Rig} {i : Nat} {m : Module}

theorem Handled.run (h : r.Handled) (acts : List Act) : (r.run acts).Handled := by
  induction acts generalizing r with
  | nil => exact h
  | cons a acts ih => exact ih (h.act a)

/-- A module that does not run, whatever it is asked, changes nothing but itself. -/
theorem state_ask (hm : r.shelf[i]? = some m) (h : m.device.Follows false) (q : Request) :
    ∃ d, d.Follows false ∧
      Outcome.state (r.ask i q) = { r with shelf := r.shelf.set i { m with device := d } } := by
  by_cases hs : m.mount.stand = r.casing.stand
  · obtain ⟨hports, hd⟩ := q.act_of_follows h m.mount.face (r.casing.pipes.ports m.mount.face)
    refine ⟨_, hd, ?_⟩
    simp only [ask, hm, hs, if_true, Outcome.state_within]
    rw [hports, Pipes.withPorts_ports]
  · refine ⟨m.device, h, ?_⟩
    have hset : r.shelf.set i m = r.shelf := by
      obtain ⟨hi, rfl⟩ := List.getElem?_eq_some_iff.mp hm
      exact List.set_getElem_self hi
    simp only [ask, hm, hs, if_false, Outcome.state, hset]

/-- The nodes of the casing run just while it is enabled, and no module beside it runs. -/
theorem Handled.kept (h : r.Handled) : r.Kept Casing.InStep (Device.Follows false) := by
  induction h with
  | new stand =>
    refine ⟨fun f n hn => ?_, fun m hm => ?_⟩
    · cases (slots_new stand f).symm.trans hn
    · cases hm
  | @act r _ a ih =>
    refine ih.perform a (fun order _ => ?_) (fun r' h f m hm => ?_) (fun _ => ih.casing.enable)
      (fun _ => ih.casing.disable) (fun _ => ih.casing.of_power_eq (Casing.keeps_step r.casing))
      (fun d source hd => hd.congr (d.runs?_assemble source)) fun f source _ =>
        ih.casing.of_power_eq (r.casing.power_assembleAt f source)
    · exact order.follows_device
    · exact h.exchange f m hm (fun _ hd => h.casing.exchange f hd) fun _ hd => h.casing.retire hd
  | @load r _ bytes ih => exact ⟨ih.casing.of_power_eq (Casing.keeps_load bytes r.casing), ih.shelf⟩
  | @ask r _ i q ih =>
    cases hm : r.shelf[i]? with
    | none => simpa only [Rig.ask, hm, Outcome.state] using ih
    | some m =>
      obtain ⟨d, hd, hr⟩ := state_ask hm (ih.shelf m (List.mem_of_getElem? hm)) q
      rw [hr]
      refine ⟨ih.casing, fun x hx => ?_⟩
      rcases List.mem_or_eq_of_mem_set hx with hx | rfl
      · exact ih.shelf x hx
      · exact hd

/-- A module that is not installed, be it new or taken out of the casing, with another one on its
face or without, changes nothing but itself, whatever it is asked and whether it fails: all pipes,
what is installed and whether the casing is enabled stay. So does the command that asks the spare
of a bench: it leaves the casings of the workshop alone. -/
theorem ask_leaves_casing (h : r.Handled) (hm : r.shelf[i]? = some m) (q : Request) :
    (∃ d, Outcome.state (r.ask i q) = { r with shelf := r.shelf.set i { m with device := d } }) ∧
    ∀ (w : Workshop) s f, (w.bench s).spare.get f = some m →
      ∀ t, ((Outcome.state (Workshop.perform s (q.command f) w)).bench t).casing =
        (w.bench t).casing := by
  have hoff := h.kept.shelf m (List.mem_of_getElem? hm)
  refine ⟨?_, fun w s f hw t => ?_⟩
  · obtain ⟨d, -, hd⟩ := state_ask hm hoff q
    exact ⟨d, hd⟩
  · rw [q.perform_command]
    exact Workshop.casing_onDevice_spare hw (q.act_of_follows hoff f _).1 t

/-- A node that was writing has been taken out, and the one in its place now writes to the same
pipe. -/
def replaced : Rig :=
  (Rig.new .first).run
    [.make ⟨⟨.first, .zNeg⟩, .node, ascii "MOV 5, RIGHT"⟩,
      .make ⟨⟨.first, .zNeg⟩, .node, ascii "MOV 7, RIGHT"⟩,
      .install .zNeg 0, .enable, .step, .install .zNeg 0, .step]

theorem handled_replaced : replaced.Handled := (Handled.new .first).run _

/-- The bytes end before the registers do, so the load fails, but by then the module has the new
source. The write of the other node is not touched. -/
theorem ask_leaves_casing_replaced :
    let q := Request.load (encodeBlock (ascii "NOP"))
    replaced.Handled ∧
    replaced.casing.pipes.pipe (Socket.opposite ⟨.zNeg, .right⟩) =
      { phase := .writing, writing := true, value := 7 } ∧
    Outcome.result (replaced.ask 0 q) = .error (.snapshot (.truncated 7)) ∧
    (Outcome.state (replaced.ask 0 q)).shelf.map (fun m => m.device.node?.map Node.source) =
      [some (ascii "NOP")] ∧
    (Outcome.state (replaced.ask 0 q)).casing = replaced.casing := by
  refine ⟨handled_replaced, by decide +kernel, by decide +kernel, by decide +kernel, ?_⟩
  have hlen : 0 < replaced.shelf.length := by decide +kernel
  obtain ⟨⟨d, hd⟩, -⟩ := ask_leaves_casing handled_replaced (List.getElem?_eq_getElem hlen)
    (.load (encodeBlock (ascii "NOP")))
  rw [hd]

end Rig

end NodeCube
