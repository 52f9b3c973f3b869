import NodeCube.Proofs.Casing.Ownership
import NodeCube.Workshop.Command

/-!
# Histories of a casing

A rig is a casing with the modules that lie beside it, and a history is a list of acts: modules are
made, installed, removed and given new sources, and the casing is enabled, disabled and stepped. A
`Regime` is a local invariant together with what it asks of a module beside the casing; it holds
throughout every history (`Regime.run`). Two of them are here: `Device.safe_regime` for the write
requests and `Device.orderly_regime` for all requests.
-/

namespace NodeCube

/-- A casing and the modules beside it. -/
structure Rig where
  casing : Casing
  shelf : List Module := []

/-- What can be done with a rig. -/
inductive Act where
  /-- Makes a module and puts it on the shelf. -/
  | make (order : Order)
  /-- Installs a module from the shelf; what was on the face goes there. One that does not fit is
  lost. -/
  | install (f : Face) (i : Nat)
  /-- Takes out what is on a face and puts it on the shelf. -/
  | remove (f : Face)
  | enable
  | disable
  | step
  /-- Gives a node on the shelf a source. -/
  | assemble (i : Nat) (source : Bytes)
  /-- Gives the node on a face a source. -/
  | assembleAt (f : Face) (source : Bytes)

/-- Whether an act leaves the programs of installed nodes alone. -/
def Act.keepsPrograms : Act → Bool
  | .assembleAt _ _ => false
  | _ => true

/-- Gives a detached node a source. -/
def Device.assemble (source : Bytes) : Device → Device
  | .node n => .node (n.assemble source)
  | d => d

/-- Gives the node on a face a source. -/
def Casing.assembleAt (f : Face) (source : Bytes) (c : Casing) : Casing :=
  match c.slots.get f with
  | some (.node n) =>
    let (n, ports) := Node.assembleAt true source (n, c.pipes.ports f)
    c.place f (.node n) ports
  | _ => c

theorem Casing.enabled_assembleAt (c : Casing) (f : Face) (source : Bytes) :
    (c.assembleAt f source).enabled = c.enabled := by
  unfold assembleAt
  split <;> rfl

theorem Casing.slots_assembleAt (c : Casing) (f g : Face) (source : Bytes) :
    (c.assembleAt f source).slots.get g =
      if g = f then (c.slots.get g).map (Device.assemble source) else c.slots.get g := by
  by_cases hg : g = f
  · subst hg
    rw [if_pos rfl]
    cases hs : c.slots.get g with
    | none => simp only [assembleAt, hs, Option.map_none]
    | some d =>
      cases d with
      | node n =>
        simp only [assembleAt, hs, place, PerFace.get_set_self]
        rfl
      | meter | ticker =>
        simp only [assembleAt, hs]
        rfl
  · rw [if_neg hg]
    unfold assembleAt
    split
    · exact PerFace.get_set_of_ne _ _ hg
    · rfl

namespace Rig

def new (stand : Stand) : Rig := { casing := Casing.new stand }

theorem slots_new (stand : Stand) (f : Face) : (new stand).casing.slots.get f = none :=
  PerFace.get_replicate none f

/-- Puts a module or nothing on a face, and what was there on the shelf. -/
def exchange (f : Face) (m : Option Module) (r : Rig) : Rig :=
  match r.casing.setModule f m with
  | .error _ => r
  | .ok (casing, old) => { casing, shelf := r.shelf ++ old.toList }

def perform (r : Rig) : Act → Rig
  | .make order => { r with shelf := r.shelf ++ [order.make] }
  | .install f i =>
    match r.shelf[i]? with
    | none => r
    | some m => exchange f (some m) { r with shelf := r.shelf.eraseIdx i }
  | .remove f => r.exchange f none
  | .enable => { r with casing := r.casing.enable }
  | .disable => { r with casing := r.casing.disable }
  | .step => { r with casing := Outcome.state (Casing.step r.casing) }
  | .assemble i source =>
    { r with shelf := r.shelf.modify i fun m => { m with device := m.device.assemble source } }
  | .assembleAt f source => { r with casing := r.casing.assembleAt f source }

/-- Does some acts in turn. -/
def run (acts : List Act) (r : Rig) : Rig := acts.foldl perform r

end Rig

/-! ## Withdrawn requests -/

namespace Ports

variable (ps : Ports)

theorem quiet_cancelRequests : ps.cancelRequests.Quiet :=
  ⟨fun p => by rw [incoming_cancelRequests]; rfl, fun p => by rw [outgoing_cancelRequests]; rfl⟩

theorem untaken_cancelRequests : ps.cancelRequests.Untaken := by
  intro p
  simp [Pipe.cancelRead]

variable {ps}

theorem sparing_cancelRequests (hi : ps.Untaken) (ho : ∀ p, (ps.outgoing.get p).taken = false) :
    ps.Sparing ps.cancelRequests where
  writing p := by simp [Pipe.cancelRead_of_not_taken (hi p)]
  reading p := by simp [Pipe.cancelWrite_of_not_taken (ho p)]
  taken p := by simp [Pipe.cancelWrite_of_not_taken (ho p)]

theorem Sparing.step {a b : Ports} (h : Sparing a b) (hi : b.Untaken)
    (ho : ∀ p, (a.outgoing.get p).taken = false) : Sparing a b.step where
  writing p := by rw [incoming_step, Pipe.writing_step, hi p, h.writing]; simp
  reading p := by rw [outgoing_step, Pipe.reading_step, h.taken, ho p, h.reading]; simp
  taken p := by rw [outgoing_step, Pipe.taken_step, ho p]

end Ports

theorem Casing.Each.untaken_outgoing {K : Option Device → Ports → Prop} {c : Casing} (h : c.Each K)
    (f : Face) (p : Port) : ((c.pipes.ports f).outgoing.get p).taken = false := by
  rw [Pipes.outgoing_ports]
  exact h.untaken _

/-! ## What acts keep -/

/-- The casing has a property, and so has each device beside it. -/
structure Rig.Kept (C : Casing → Prop) (S : Device → Prop) (r : Rig) : Prop where
  casing : C r.casing
  shelf : ∀ m ∈ r.shelf, S m.device

/-- An act keeps the properties if the operation of the casing that it calls does. -/
theorem Rig.Kept.perform {C : Casing → Prop} {S : Device → Prop} {r : Rig} (h : r.Kept C S)
    (a : Act) (hm : ∀ order, a = .make order → S order.device)
    (hx : ∀ r' : Rig, r'.Kept C S → ∀ f m, (∀ x, m = some x → S x.device) →
      (r'.exchange f m).Kept C S)
    (he : a = .enable → C r.casing.enable) (hd : a = .disable → C r.casing.disable)
    (hs : a = .step → C (Outcome.state (Casing.step r.casing)))
    (hl : ∀ d source, S d → S (d.assemble source))
    (hc : ∀ f source, a = .assembleAt f source → C (r.casing.assembleAt f source)) :
    (r.perform a).Kept C S := by
  cases a with
  | make order =>
    refine ⟨h.casing, fun x hx => ?_⟩
    rcases List.mem_append.mp hx with hx | hx
    · exact h.shelf x hx
    · obtain rfl := List.mem_singleton.mp hx
      exact hm order rfl
  | install f i =>
    simp only [Rig.perform]
    split
    · exact h
    · rename_i m hi
      refine hx { r with shelf := r.shelf.eraseIdx i }
        ⟨h.casing, fun x hx => h.shelf x (List.mem_of_mem_eraseIdx hx)⟩ f _ ?_
      rintro x ⟨rfl⟩
      exact h.shelf m (List.mem_of_getElem? hi)
  | remove f => exact hx r h f none fun _ hx => by cases hx
  | enable => exact ⟨he rfl, h.shelf⟩
  | disable => exact ⟨hd rfl, h.shelf⟩
  | step => exact ⟨hs rfl, h.shelf⟩
  | assemble i source =>
    refine ⟨h.casing, fun x hx => ?_⟩
    obtain ⟨j, hj⟩ := List.mem_iff_getElem?.mp hx
    simp only [Rig.perform, List.getElem?_modify] at hj
    obtain ⟨y, hy, rfl⟩ := Option.map_eq_some_iff.mp hj
    have hS := h.shelf y (List.mem_of_getElem? hy)
    split
    · exact hl _ _ hS
    · exact hS
  | assembleAt f source => exact ⟨hc f source rfl, h.shelf⟩

/-! ## Regimes -/

/-- A local invariant `K` for enabled and disabled casings, and a property `S` of the devices
beside the casing, that go together. -/
structure Regime (K : Bool → Option Device → Ports → Prop) (S : Device → Prop) : Prop where
  spared : ∀ e d a b, Ports.Spared a b → K e d a → K e d b
  empty : ∀ e ports, ports.Quiet → K e none ports
  receive : ∀ e d ports, S d → ports.Quiet → K e (some (if e then d.enable else d)) ports
  retire : ∀ e d ports, K e (some d) ports → S (if e then d.disabled else d)
  start : ∀ d ports, K false d ports → K true (d.map Device.enable) ports
  shelve : ∀ d source, S d → S (d.assemble source)
  assemble : ∀ e n source a b, K e (some (.node n)) a → b.Quiet →
    K e (some (.node (n.assemble source))) b

/-- The regime is kept at every face and beside the casing. -/
structure Rig.Under (K : Bool → Option Device → Ports → Prop) (S : Device → Prop) (r : Rig) :
    Prop where
  casing : r.casing.Each (K r.casing.enabled)
  shelf : ∀ m ∈ r.shelf, S m.device

/-- Under a local invariant a step does not fault. -/
theorem Casing.Each.step {K : Bool → Option Device → Ports → Prop} (hK : ∀ e, Local (K e))
    {c : Casing} (h : c.Each (K c.enabled)) :
    ∃ c', Casing.step c = .ok () c' ∧ c'.stand = c.stand ∧ c'.enabled = c.enabled ∧
      c'.Each (K c'.enabled) := by
  unfold Casing.step
  split
  · obtain ⟨c', hc, hs, he, hk⟩ := h.tick (hK _) (show Face.all.Nodup by decide)
    rw [← he] at hk
    exact ⟨c', hc, hs, he, hk⟩
  · exact ⟨c, rfl, rfl, rfl, h⟩

namespace Regime

variable {K : Bool → Option Device → Ports → Prop} {S : Device → Prop} {r : Rig}

theorem new (hR : Regime K S) (stand : Stand) : (Rig.new stand).Under K S where
  casing :=
    { untaken := fun s => by simp [Rig.new, Casing.new]
      holds := fun f => by
        have hq : ((Casing.new stand).pipes.ports f).Quiet :=
          ⟨fun p => by simp [Casing.new], fun p => by simp [Casing.new]⟩
        simpa [Rig.new, Casing.new] using hR.empty false _ hq }
  shelf _ h := absurd h List.not_mem_nil

theorem exchange (hR : Regime K S) (h : r.Under K S) (f : Face) (m : Option Module)
    (hm : ∀ x, m = some x → S x.device) : (r.exchange f m).Under K S := by
  unfold Rig.exchange
  split
  · exact h
  · rename_i casing old hs
    unfold Casing.setModule at hs
    split at hs
    · rw [Casing.exchange_eq] at hs
      cases hs
      have hi := h.casing.untaken_ports f
      have ho := h.casing.untaken_outgoing f
      have hq := (r.casing.pipes.ports f).quiet_cancelRequests.step
      refine ⟨h.casing.set (hR.spared _) ((Ports.sparing_cancelRequests hi ho).step
        (Ports.untaken_cancelRequests _) ho) (Ports.untaken_step _) ?_, fun x hx => ?_⟩
      · cases m with
        | none => exact hR.empty _ _ hq
        | some x => exact hR.receive _ _ _ (hm x rfl) hq
      · rcases List.mem_append.mp hx with hx | hx
        · exact h.shelf x hx
        · obtain ⟨d, hd, rfl⟩ := Option.map_eq_some_iff.mp (Option.mem_toList.mp hx)
          refine hR.retire _ d _ (?_ : K r.casing.enabled (some d) (r.casing.pipes.ports f))
          rw [← hd]
          exact h.casing.holds f
    · cases hs

theorem enable (hR : Regime K S) {c : Casing} (h : c.Each (K c.enabled)) :
    c.enable.Each (K c.enable.enabled) := by
  cases he : c.enabled with
  | true => simpa [Casing.enable, he] using h
  | false =>
    rw [Casing.enable_eq he]
    refine ⟨h.untaken, fun f => ?_⟩
    rw [he] at h
    simpa using hR.start _ _ (h.holds f)

theorem disable (hR : Regime K S) {c : Casing} (h : c.Each (K c.enabled)) :
    c.disable.Each (K c.disable.enabled) := by
  cases he : c.enabled with
  | false => simpa [Casing.disable, he] using h
  | true =>
    rw [Casing.enabled_disable]
    refine ⟨fun s => (Casing.pipe_disable he s).2.2.2, fun f => ?_⟩
    have hq : (c.disable.pipes.ports f).Quiet :=
      ⟨fun p => by rw [Pipes.incoming_ports]; exact (Casing.pipe_disable he _).2.2.1,
        fun p => by rw [Pipes.outgoing_ports]; exact (Casing.pipe_disable he _).2.1⟩
    rw [Casing.slots_disable he]
    have hf := h.holds f
    rw [he] at hf
    cases hs : c.slots.get f with
    | none => exact hR.empty _ _ hq
    | some d =>
      rw [hs] at hf
      exact hR.receive false _ _ (hR.retire true d _ hf) hq

theorem assembleAt (hR : Regime K S) {c : Casing} (h : c.Each (K c.enabled)) (f : Face)
    (source : Bytes) : (c.assembleAt f source).Each (K (c.assembleAt f source).enabled) := by
  unfold Casing.assembleAt
  split
  · rename_i n hs
    have hf := h.holds f
    rw [hs] at hf
    exact h.set (hR.spared _)
      (Ports.sparing_cancelRequests (h.untaken_ports f) (h.untaken_outgoing f))
      (Ports.untaken_cancelRequests _)
      (hR.assemble _ n source _ _ hf (Ports.quiet_cancelRequests _))
  · exact h

/-- Every act keeps the regime, if steps do. -/
theorem perform (hR : Regime K S) (h : r.Under K S) (a : Act)
    (hm : ∀ order, a = .make order → S order.device)
    (hs : a = .step → (Outcome.state (Casing.step r.casing)).Each
      (K (Outcome.state (Casing.step r.casing)).enabled)) : (r.perform a).Under K S := by
  have hk : r.Kept (fun c => c.Each (K c.enabled)) S := ⟨h.casing, h.shelf⟩
  have hx : ∀ r' : Rig, r'.Kept (fun c => c.Each (K c.enabled)) S →
      ∀ f m, (∀ x, m = some x → S x.device) →
        (r'.exchange f m).Kept (fun c => c.Each (K c.enabled)) S := by
    intro r' h' f m hm'
    have hafter := hR.exchange ⟨h'.casing, h'.shelf⟩ f m hm'
    exact ⟨hafter.casing, hafter.shelf⟩
  have hact := hk.perform a hm hx (fun _ => hR.enable h.casing) (fun _ => hR.disable h.casing) hs
    hR.shelve fun f source _ => hR.assembleAt h.casing f source
  exact ⟨hact.casing, hact.shelf⟩

/-- Every act keeps a regime with a local invariant. -/
theorem perform_local (hR : Regime K S) (hK : ∀ e, Local (K e)) (h : r.Under K S) (a : Act)
    (hm : ∀ order, a = .make order → S order.device) : (r.perform a).Under K S := by
  refine hR.perform h a hm fun _ => ?_
  obtain ⟨c', hc, -, -, hk⟩ := h.casing.step hK
  rw [hc]
  exact hk

theorem run (hR : Regime K S) (hK : ∀ e, Local (K e)) (h : r.Under K S) {acts : List Act}
    (hm : ∀ order, .make order ∈ acts → S order.device) : (r.run acts).Under K S := by
  induction acts generalizing r with
  | nil => exact h
  | cons a acts ih =>
    refine ih (hR.perform_local hK h a ?_) fun order ho => hm order (List.mem_cons_of_mem a ho)
    rintro order rfl
    exact hm order List.mem_cons_self

end Regime

/-! ## Regimes of requests -/

/-- A node that can be installed safely. -/
structure Node.Fit (n : Node) : Prop where
  compiled : n.Compiled
  fits : n.machine.program.Fits n.machine.registers

/-- A node that waits for nothing and does not run. -/
structure Node.Spare (n : Node) : Prop where
  compiled : n.Compiled
  pc : n.machine.program.PcFits n.machine.registers
  clear : n.machine.registers.Clear
  rests : n.running = false

def Device.Fit : Device → Prop
  | .node n => n.Fit
  | _ => False

def Device.Spare : Device → Prop
  | .node n => n.Spare
  | _ => True

namespace Program

variable {program : Program} {r : Registers}

theorem Fits.of_registersClear (hp : program.PcFits r) (hc : r.Clear) : program.Fits r :=
  .of_clear hp hc.writeInFlight hc.anyWrite hc.stalled

end Program

namespace Node

variable {n : Node} {ports : Ports}

theorem compiled_assemble (n : Node) (source : Bytes) : (n.assemble source).Compiled := by
  simp only [Compiled, assemble, Machine.load]

theorem pcFits_assemble (n : Node) (source : Bytes) :
    (n.assemble source).machine.program.PcFits (n.assemble source).machine.registers :=
  ⟨Int.le_refl 0, .inr rfl⟩

theorem clear_assemble (n : Node) (source : Bytes) :
    (n.assemble source).machine.registers.Clear := ⟨rfl, rfl, rfl⟩

theorem Fit.safe (h : n.Fit) (hq : ports.Quiet) : n.Safe ports :=
  ⟨h.compiled, .of_free h.fits hq.writing⟩

theorem Spare.fit (h : n.Spare) : n.Fit := ⟨h.compiled, .of_registersClear h.pc h.clear⟩

theorem Safe.fit (h : n.Safe ports) : n.Fit := ⟨h.compiled, h.owns.fits⟩

/-- With no requests at its ports, a node that waits for nothing is in order. -/
theorem orderly_of_quiet {e : Bool} (hn : n.Fit) (hc : n.machine.registers.Clear)
    (hr : n.running = e) (hq : ports.Quiet) : n.Orderly e ports where
  safe := hn.safe hq
  attends := .of_quiet (.inl hc.stalled) fun p h => by
    have := hq.reading p
    rw [show (ports.incoming.get p).reading = true from h.1] at this
    cases this
  running := hr
  clear _ := hc

end Node

namespace Device

variable {d : Device} {ports : Ports}

theorem Fit.enable (h : d.Fit) : d.enable.Fit := by
  match d, h with
  | .node n, h => exact ⟨h.compiled, h.fits⟩

theorem Fit.disabled (h : d.Fit) : d.disabled.Fit := by
  match d, h with
  | .node n, h => exact ⟨h.compiled, .of_registersClear h.fits.pc ⟨rfl, rfl, rfl⟩⟩

theorem Fit.assemble (h : d.Fit) (source : Bytes) : (d.assemble source).Fit := by
  match d, h with
  | .node n, _ =>
    exact ⟨n.compiled_assemble source,
      .of_registersClear (n.pcFits_assemble source) (n.clear_assemble source)⟩

theorem Fit.safe (h : d.Fit) (hq : ports.Quiet) : Device.Safe (some d) ports := by
  match d, h with
  | .node n, h => exact Node.Fit.safe h hq

theorem Safe.fit (h : Device.Safe (some d) ports) : d.Fit := by
  match d, h with
  | .node n, h => exact Node.Safe.fit h

end Device

theorem Device.safe_regime : Regime (fun _ => Device.Safe) Device.Fit where
  spared _ := local_safe.spared
  empty _ _ _ := trivial
  receive e d ports hd hq := by
    cases e with
    | false => exact hd.safe hq
    | true => exact hd.enable.safe hq
  retire e d ports hd := by
    cases e with
    | false => exact hd.fit
    | true => exact hd.fit.disabled
  start d ports hd := by
    match d, hd with
    | none, _ => trivial
    | some (.node n), hd => exact ⟨hd.compiled, hd.owns⟩
  shelve d source hd := hd.assemble source
  assemble e n source a b hd hq := (Safe.fit hd).assemble source |>.safe hq

theorem Device.orderly_regime : Regime Device.Orderly Device.Spare where
  spared e := (local_orderly e).spared
  empty _ _ hq := hq
  receive e d ports hd hq := by
    match d, hd with
    | .node n, hd =>
      cases e with
      | false => exact Node.orderly_of_quiet hd.fit hd.clear hd.rests hq
      | true =>
        exact Node.orderly_of_quiet (n := n.enable) ⟨hd.compiled, hd.fit.fits⟩ hd.clear rfl hq
    | .meter m, _ => cases e <;> exact hq
    | .ticker k, _ => cases e <;> exact hq
  retire e d ports hd := by
    match d, hd with
    | .node n, hd =>
      cases e with
      | false => exact ⟨hd.safe.compiled, hd.safe.owns.fits.pc, hd.clear rfl, hd.running⟩
      | true => exact ⟨hd.safe.compiled, hd.safe.owns.fits.pc, ⟨rfl, rfl, rfl⟩, rfl⟩
    | .meter m, _ => cases e <;> trivial
    | .ticker k, _ => cases e <;> trivial
  start d ports hd := by
    match d, hd with
    | none, hd => exact hd
    | some (.node n), hd =>
      exact ⟨⟨hd.safe.compiled, hd.safe.owns⟩, hd.attends, rfl, nofun⟩
    | some (.meter m), hd => exact hd
    | some (.ticker k), hd => exact hd
  shelve d source hd := by
    match d, hd with
    | .node n, hd =>
      exact ⟨n.compiled_assemble source, n.pcFits_assemble source, n.clear_assemble source,
        hd.rests⟩
    | .meter m, _ => trivial
    | .ticker k, _ => trivial
  assemble e n source a b hd hq :=
    Node.orderly_of_quiet ⟨n.compiled_assemble source,
      .of_registersClear (n.pcFits_assemble source) (n.clear_assemble source)⟩
      (n.clear_assemble source) hd.running hq

/-- A module that was just made can be installed anywhere. -/
theorem Order.spare_device (o : Order) : Device.Spare o.device := by
  unfold Order.device
  split
  · exact ⟨Node.compiled_assemble {} _, Node.pcFits_assemble {} _, Node.clear_assemble {} _, rfl⟩
  · trivial
  · trivial

/-- In every history all requests are in order. -/
theorem Rig.orderly_run (stand : Stand) (acts : List Act) :
    ((Rig.new stand).run acts).Under Device.Orderly Device.Spare :=
  Device.orderly_regime.run Device.local_orderly (Device.orderly_regime.new stand)
    fun order _ => order.spare_device

end NodeCube
