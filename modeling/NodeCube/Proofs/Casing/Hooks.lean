import Mathlib.Data.List.InsertIdx
import NodeCube.Proofs.Casing.Rig

/-!
# What devices are told

A casing calls its devices when they start, stop and take a turn. A `Ledger` is a rig that does all
that a rig does, call by call, and writes down for each module which calls it got
(`Ledger.rig_run`). So the calls of a module can be told from its history: it starts and stops
alternately, it has started once more than it has stopped just while it is installed in an enabled
casing, and in a step just those modules have a turn (`Ledger.calls_alternate`).
-/

namespace NodeCube

/-! ## Calls -/

/-- What a casing calls a device for. -/
inductive Hook where
  | enable
  | disable
  | step
  deriving DecidableEq, Repr

namespace Hook

/-- What a device does when it is called. -/
def run : Hook → EStateM Fault (Device × Ports) Unit
  | .enable => fun (d, ports) => .ok () (d.enable, ports)
  | .disable => fun s => .ok () (Device.disable s)
  | .step => Device.step

/-- Which calls are made on a device that is on or off, and what it is then. -/
def Turns : Hook → Bool → Bool → Prop
  | .enable, a, b => a = false ∧ b = true
  | .disable, a, b => a = true ∧ b = false
  | .step, a, b => a = true ∧ b = true

end Hook

/-- A rig with the calls of its modules. -/
structure Ledger where
  casing : Casing
  /-- The calls of what is on a face, the first one first. -/
  calls : PerFace (List Hook) := PerFace.replicate []
  /-- The modules beside the casing and their calls. -/
  shelf : List (Module × List Hook) := []
  /-- The modules that were lost, because they did not fit where they were to go. -/
  lost : List (Module × List Hook) := []

namespace Ledger

def new (stand : Stand) : Ledger := { casing := Casing.new stand }

/-- Without the calls. -/
def rig (t : Ledger) : Rig := ⟨t.casing, t.shelf.map Prod.fst⟩

/-- Calls the device on a face, if there is one. -/
def call (h : Hook) (f : Face) : EStateM Fault Ledger Unit := fun t =>
  match t.casing.slots.get f with
  | none => .ok () t
  | some _ =>
    Outcome.within
      (fun c => { t with casing := c, calls := t.calls.set f (t.calls.get f ++ [h]) })
      (Casing.onDevice f h.run t.casing)

/-- Calls all devices in turn. -/
def callAll (h : Hook) : EStateM Fault Ledger Unit := Face.all.forM (call h)

/-- Does something to the casing that calls no device. -/
def adjust (g : Casing → Casing) : EStateM Fault Ledger Unit := fun t =>
  .ok () { t with casing := g t.casing }

def enable : EStateM Fault Ledger Unit := fun t =>
  if t.casing.enabled then .ok () t
  else callAll .enable { t with casing := { t.casing with enabled := true } }

def disable : EStateM Fault Ledger Unit := fun t =>
  if t.casing.enabled then
    (do
      callAll .disable
      adjust fun c => { c with pipes := c.pipes.mapPipes fun p => p.cancelRead.cancelWrite.step })
      { t with casing := { t.casing with enabled := false } }
  else .ok () t

def step : EStateM Fault Ledger Unit := fun t =>
  if t.casing.enabled then
    (do
      callAll .step
      adjust Casing.stepPipes) t
  else .ok () t

/-- Puts a module or nothing on a face and what was there on the shelf, without a call. -/
def swap (f : Face) (m : Option (Module × List Hook)) (t : Ledger) : Ledger :=
  { t with
    casing :=
      { t.casing with
        slots := t.casing.slots.set f (m.map fun x => x.1.device)
        pipes := t.casing.pipes.withPorts f (t.casing.pipes.ports f).cancelRequests.step }
    calls := t.calls.set f ((m.map Prod.snd).getD [])
    shelf := t.shelf ++ ((t.casing.module? f).map (·, t.calls.get f)).toList }

def exchange (f : Face) (m : Option (Module × List Hook)) : EStateM Fault Ledger Unit := fun t =>
  if t.casing.enabled then
    (do
      call .disable f
      modify (swap f m)
      call .enable f) t
  else .ok () (t.swap f m)

def perform (t : Ledger) : Act → Ledger
  | .make order => { t with shelf := t.shelf ++ [(order.make, [])] }
  | .install f i =>
    match t.shelf[i]? with
    | none => t
    | some x =>
      if t.casing.fits f x.1 then
        Outcome.state (exchange f (some x) { t with shelf := t.shelf.eraseIdx i })
      else { t with shelf := t.shelf.eraseIdx i, lost := t.lost ++ [x] }
  | .remove f => Outcome.state (exchange f none t)
  | .enable => Outcome.state (enable t)
  | .disable => Outcome.state (disable t)
  | .step => Outcome.state (step t)
  | .assemble i source =>
    { t with shelf := t.shelf.modify i fun (m, l) =>
        ({ m with device := m.device.assemble source }, l) }
  | .assembleAt f source => { t with casing := t.casing.assembleAt f source }

def run (acts : List Act) (t : Ledger) : Ledger := acts.foldl perform t

end Ledger

/-! ## The casing does what the calls say -/

namespace Casing

variable {c : Casing} {f : Face}

theorem onDevice_disable (f : Face) (c : Casing) :
    onDevice f Hook.disable.run c = .ok () (c.disableFace f) := by
  cases hs : c.slots.get f with
  | none => rw [onDevice_of_none hs, disableFace_of_none hs]
  | some d =>
    rw [onDevice_of_some hs, disableFace_of_some hs]
    simp only [Hook.run, Outcome.within_ok, Device.disable_eq]

theorem onDevice_enable (f : Face) (c : Casing) : onDevice f Hook.enable.run c =
    .ok () { c with slots := c.slots.set f ((c.slots.get f).map Device.enable) } := by
  cases hs : c.slots.get f with
  | none =>
    rw [onDevice_of_none hs]
    have hset : c.slots.set f none = c.slots := by
      refine PerFace.ext_get fun g => ?_
      rw [PerFace.get_set]
      split
      · rename_i e
        rw [e, hs]
      · rfl
    rw [Option.map_none, hset]
  | some d =>
    rw [onDevice_of_some hs]
    simp only [Hook.run, Outcome.within_ok, place, Pipes.withPorts_ports, Option.map_some]

theorem forM_disable (faces : List Face) (c : Casing) :
    faces.forM (fun f => onDevice f Hook.disable.run) c = .ok () (faces.foldl disableFace c) := by
  induction faces generalizing c with
  | nil => rfl
  | cons f faces ih => exact (Outcome.bind_ok (onDevice_disable f c)).trans (ih _)

theorem forM_enable {faces : List Face} (hl : faces.Nodup) (c : Casing) :
    faces.forM (fun f => onDevice f Hook.enable.run) c =
      .ok () { c with slots := PerFace.ofFn fun g =>
        if g ∈ faces then (c.slots.get g).map Device.enable else c.slots.get g } := by
  induction faces generalizing c with
  | nil =>
    refine congrArg (EStateM.Result.ok ()) ?_
    refine congrArg (fun s => { c with slots := s }) (PerFace.ext_get fun g => ?_)
    simp
  | cons f faces ih =>
    obtain ⟨hf, hl⟩ := List.nodup_cons.mp hl
    refine (Outcome.bind_ok (onDevice_enable f c)).trans ((ih hl _).trans ?_)
    refine congrArg (EStateM.Result.ok ()) ?_
    refine congrArg (fun s => { c with slots := s }) (PerFace.ext_get fun g => ?_)
    simp only [PerFace.get_ofFn, PerFace.get_set, List.mem_cons]
    by_cases e : g = f
    · subst e
      simp [hf]
    · simp [e]

end Casing

namespace Ledger

/-- A ledger does what a casing does, and the modules beside the casing stay as they are. -/
def Shows (x : EStateM Fault Ledger Unit) (y : EStateM Fault Casing Unit) : Prop :=
  ∀ t, Outcome.within (fun t => (t.casing, t.shelf, t.lost)) (x t) =
    Outcome.within (·, t.shelf, t.lost) (y t.casing)

namespace Shows

theorem bind {x x' : EStateM Fault Ledger Unit} {y y' : EStateM Fault Casing Unit}
    (h : Shows x y) (h' : Shows x' y') : Shows (x >>= fun _ => x') (y >>= fun _ => y') := by
  intro t
  have ht := h t
  cases hx : x t with
  | ok u t' =>
    cases hy : y t.casing with
    | ok v c =>
      simp only [hx, hy, Outcome.within_ok, EStateM.Result.ok.injEq, Prod.mk.injEq] at ht
      obtain ⟨-, rfl, hs, hl⟩ := ht
      rw [Outcome.bind_ok hx, Outcome.bind_ok hy, ← hs, ← hl]
      exact h' t'
    | error e c =>
      rw [hx, hy] at ht
      cases ht
  | error e t' =>
    cases hy : y t.casing with
    | ok v c =>
      rw [hx, hy] at ht
      cases ht
    | error e' c =>
      rw [hx, hy] at ht
      rw [Outcome.bind_error hx, Outcome.bind_error hy]
      simp only [Outcome.within_error, EStateM.Result.error.injEq] at ht ⊢
      exact ht

theorem forM {ι : Type} {x : ι → EStateM Fault Ledger PUnit} {y : ι → EStateM Fault Casing PUnit}
    (h : ∀ i, Shows (x i) (y i)) (l : List ι) : Shows (l.forM x) (l.forM y) := by
  induction l with
  | nil => exact fun _ => rfl
  | cons i l ih => exact (h i).bind ih

theorem call (h : Hook) (f : Face) : Shows (call h f) (Casing.onDevice f h.run) := by
  intro t
  unfold Ledger.call
  split
  · rename_i hs
    rw [Casing.onDevice_of_none hs]
    rfl
  · cases Casing.onDevice f h.run t.casing <;> rfl

theorem callAll (h : Hook) :
    Shows (callAll h) (Face.all.forM fun f => Casing.onDevice f h.run) :=
  forM (call h) _

theorem adjust (g : Casing → Casing) : Shows (adjust g) (modify g) := fun _ => rfl

theorem step : Shows step Casing.step := by
  intro t
  unfold Ledger.step Casing.step
  split
  · exact (callAll .step).bind (adjust _) t
  · rfl

theorem disable : Shows disable fun c => .ok () c.disable := by
  intro t
  unfold Ledger.disable Casing.disable
  dsimp only
  split
  · refine ((callAll .disable).bind (adjust _) _).trans ?_
    rw [Outcome.bind_ok (Casing.forM_disable _ _)]
    rfl
  · rfl

theorem enable : Shows enable fun c => .ok () c.enable := by
  intro t
  unfold Ledger.enable Casing.enable
  dsimp only
  split
  · rfl
  · refine (callAll .enable _).trans ?_
    rw [Casing.forM_enable (by decide)]
    refine congrArg (fun s => EStateM.Result.ok ()
      (({ t.casing with enabled := true, slots := s } : Casing), t.shelf, t.lost))
      (PerFace.ext_get fun g => ?_)
    simp [Face.mem_all]

variable {x : EStateM Fault Ledger Unit} {y : EStateM Fault Casing Unit}

theorem ok (h : Shows x y) {t : Ledger} {c : Casing} (hy : y t.casing = .ok () c) :
    ∃ t', x t = .ok () t' ∧ t'.casing = c ∧ t'.shelf = t.shelf ∧ t'.lost = t.lost := by
  have ht := h t
  rw [hy] at ht
  cases hx : x t with
  | ok u t' =>
    simp only [hx, Outcome.within_ok, EStateM.Result.ok.injEq, Prod.mk.injEq] at ht
    exact ⟨t', rfl, ht.2⟩
  | error e t' =>
    rw [hx] at ht
    cases ht

theorem rig (h : Shows x y) (t : Ledger) :
    (Outcome.state (x t)).rig = ⟨Outcome.state (y t.casing), t.rig.shelf⟩ := by
  have ht := congrArg Outcome.state (h t)
  simp only [Outcome.state_within, Prod.mk.injEq] at ht
  unfold Ledger.rig
  rw [ht.1, ht.2.1]

end Shows

/-! ## What an exchange does -/

/-- The module on a face as it leaves, with its calls. -/
def leaving (t : Ledger) (f : Face) : Option (Module × List Hook) :=
  (t.casing.slots.get f).map fun d =>
    (⟨⟨t.casing.stand, f⟩, t.casing.retire d⟩,
      t.calls.get f ++ if t.casing.enabled then [.disable] else [])

/-- The calls of what comes to a face. -/
def arriving (t : Ledger) (m : Option (Module × List Hook)) : List Hook :=
  match m with
  | none => []
  | some x => x.2 ++ if t.casing.enabled then [.enable] else []

variable {t t' : Ledger} {h : Hook} {f : Face}

theorem call_of_none (hs : t.casing.slots.get f = none) : call h f t = .ok () t := by
  simp only [call, hs]

theorem call_of_some {d : Device} (hs : t.casing.slots.get f = some d) : call h f t =
    Outcome.within
      (fun (d, ports) =>
        { t with
          casing := t.casing.place f d ports
          calls := t.calls.set f (t.calls.get f ++ [h]) })
      (h.run (d, t.casing.pipes.ports f)) := by
  simp only [call, hs, Casing.onDevice_of_some hs]
  cases h.run (d, t.casing.pipes.ports f) <;> rfl

theorem call_disable {d : Device} (hs : t.casing.slots.get f = some d) : call .disable f t =
    .ok ()
      { t with
        casing := t.casing.place f d.disabled (d.released (t.casing.pipes.ports f))
        calls := t.calls.set f (t.calls.get f ++ [.disable]) } := by
  rw [call_of_some hs]
  simp only [Hook.run, Device.disable_eq, Outcome.within_ok]

theorem call_enable_swap (m : Option (Module × List Hook)) (t : Ledger) :
    call .enable f (t.swap f m) = .ok ()
      { t.swap f m with
        casing :=
          { (t.swap f m).casing with
            slots := t.casing.slots.set f (m.map fun x => x.1.device.enable) }
        calls := t.calls.set f ((m.map fun x => x.2 ++ [.enable]).getD []) } := by
  cases m with
  | none => exact call_of_none (by simp [swap])
  | some x =>
    have hs : (t.swap f (some x)).casing.slots.get f = some x.1.device := by simp [swap]
    rw [call_of_some hs]
    simp [Hook.run, swap, Casing.place, PerFace.set_set, Pipes.withPorts_withPorts]

theorem exchange_eq (f : Face) (m : Option (Module × List Hook)) (t : Ledger) :
    exchange f m t = .ok ()
      { t with
        casing := (t.casing.exchange f (m.map fun x => x.1.device)).1
        calls := t.calls.set f (t.arriving m)
        shelf := t.shelf ++ (t.leaving f).toList } := by
  rw [Casing.exchange_eq]
  cases he : t.casing.enabled with
  | false =>
    cases hs : t.casing.slots.get f <;> cases m <;>
      simp [exchange, swap, arriving, leaving, he, hs, Casing.module?, Casing.retire,
        Casing.receive]
  | true =>
    unfold exchange
    rw [if_pos he]
    cases hs : t.casing.slots.get f with
    | none =>
      rw [Outcome.bind_ok (call_of_none hs)]
      refine (call_enable_swap m t).trans ?_
      cases m <;> simp [swap, arriving, leaving, he, hs, Casing.module?, Casing.receive]
    | some d =>
      rw [Outcome.bind_ok (call_disable hs)]
      refine (call_enable_swap m _).trans ?_
      cases m <;>
        simp [swap, arriving, leaving, he, hs, Casing.module?, Casing.receive, Casing.retire,
          Casing.place, PerFace.set_set, Pipes.withPorts_withPorts, Device.cancelRequests_released]

/-! ## A ledger is a rig -/

theorem rig_exchange (f : Face) (m : Option (Module × List Hook)) (t : Ledger)
    (hm : ∀ x, m = some x → t.casing.fits f x.1 = true) :
    (Outcome.state (exchange f m t)).rig = t.rig.exchange f (m.map Prod.fst) := by
  have hall : (m.map Prod.fst).all (t.casing.fits f) = true := by
    cases m with
    | none => rfl
    | some x => exact hm x rfl
  have hset : t.casing.setModule f (m.map Prod.fst) =
      .ok (t.casing.exchange f (m.map fun x => x.1.device)) := by
    unfold Casing.setModule
    rw [if_pos hall, Option.map_map]
    rfl
  rw [exchange_eq]
  simp only [Rig.exchange, rig, hset, Outcome.state, List.map_append]
  simp only [Casing.exchange_eq, leaving]
  cases t.casing.slots.get f <;> rfl

theorem rig_perform (t : Ledger) (a : Act) : (t.perform a).rig = t.rig.perform a := by
  cases a with
  | make order => simp [perform, rig, Rig.perform]
  | install f i =>
    simp only [perform, Rig.perform, rig, List.getElem?_map]
    cases hi : t.shelf[i]? with
    | none => rfl
    | some x =>
      simp only [Option.map_some, List.eraseIdx_map]
      split
      · rename_i hf
        exact rig_exchange f (some x) { t with shelf := t.shelf.eraseIdx i }
          fun y hy => by cases hy; exact hf
      · rename_i hf
        simp [Rig.exchange, Casing.setModule, hf]
  | remove f => exact rig_exchange f none t (by simp)
  | enable => exact Shows.enable.rig t
  | disable => exact Shows.disable.rig t
  | step => exact Shows.step.rig t
  | assemble i source =>
    refine congrArg (Rig.mk t.casing) (List.ext_getElem? fun j => ?_)
    simp only [rig, perform, List.getElem?_map, List.getElem?_modify]
    cases t.shelf[j]? with
    | none => rfl
    | some x => by_cases hj : i = j <;> simp [hj]
  | assembleAt f source => rfl

/-- The casing and the shelf of a ledger are those of the rig with the same history. -/
theorem rig_run (t : Ledger) (acts : List Act) : (t.run acts).rig = t.rig.run acts := by
  induction acts generalizing t with
  | nil => rfl
  | cons a acts ih => exact (ih _).trans (congrArg (Rig.run acts) (t.rig_perform a))

/-! ## Calls of all devices -/

/-- The devices on some faces were called, and nothing else happened to any module. -/
structure Called (h : Hook) (faces : List Face) (t t' : Ledger) : Prop where
  had : ∀ f ∈ faces,
    (t.casing.slots.get f = none ∧ t'.casing.slots.get f = none ∧ t'.calls.get f = t.calls.get f) ∨
    ∃ d a d' b, t.casing.slots.get f = some d ∧ h.run (d, a) = .ok () (d', b) ∧
      t'.casing.slots.get f = some d' ∧ t'.calls.get f = t.calls.get f ++ [h]
  others : ∀ f, f ∉ faces →
    t'.casing.slots.get f = t.casing.slots.get f ∧ t'.calls.get f = t.calls.get f

theorem called_call (hc : call h f t = .ok () t') : Called h [f] t t' := by
  cases hs : t.casing.slots.get f with
  | none =>
    cases (call_of_none hs).symm.trans hc
    refine ⟨fun g hg => ?_, fun g _ => ⟨rfl, rfl⟩⟩
    cases List.mem_singleton.mp hg
    exact .inl ⟨hs, hs, rfl⟩
  | some d =>
    rw [call_of_some hs] at hc
    cases hd : h.run (d, t.casing.pipes.ports f) with
    | error e x =>
      rw [hd] at hc
      cases hc
    | ok u x =>
      obtain ⟨d', b⟩ := x
      rw [hd] at hc
      cases hc
      refine ⟨fun g hg => ?_, fun g hg => ?_⟩
      · cases List.mem_singleton.mp hg
        exact .inr ⟨d, _, d', b, hs, hd, PerFace.get_set_self _ _ _, PerFace.get_set_self _ _ _⟩
      · have hne : g ≠ f := fun e => hg (List.mem_singleton.mpr e)
        exact ⟨PerFace.get_set_of_ne _ _ hne, PerFace.get_set_of_ne _ _ hne⟩

theorem called_forM {faces : List Face} (hl : faces.Nodup)
    (hc : faces.forM (call h) t = .ok () t') : Called h faces t t' := by
  induction faces generalizing t with
  | nil =>
    cases hc
    exact ⟨fun f hf => absurd hf List.not_mem_nil, fun f _ => ⟨rfl, rfl⟩⟩
  | cons f faces ih =>
    obtain ⟨hf, hl⟩ := List.nodup_cons.mp hl
    cases h₁ : call h f t with
    | error e t₁ => cases (Outcome.bind_error h₁).symm.trans hc
    | ok u t₁ =>
      have hone := called_call h₁
      have hrest := ih hl ((Outcome.bind_ok h₁).symm.trans hc)
      refine ⟨fun g hg => ?_, fun g hg => ?_⟩
      · rcases List.mem_cons.mp hg with rfl | hg
        · obtain ⟨hslot, hcalls⟩ := hrest.others g hf
          rw [hslot, hcalls]
          exact hone.had g (List.mem_singleton_self g)
        · have hne : g ∉ [f] := fun e => hf (List.mem_singleton.mp e ▸ hg)
          obtain ⟨hslot, hcalls⟩ := hone.others g hne
          have := hrest.had g hg
          rwa [hslot, hcalls] at this
      · obtain ⟨hne, hg⟩ := not_or.mp (mt List.mem_cons.mpr hg)
        obtain ⟨hslot, hcalls⟩ := hone.others g fun e => hne (List.mem_singleton.mp e)
        obtain ⟨hslot', hcalls'⟩ := hrest.others g hg
        exact ⟨hslot'.trans hslot, hcalls'.trans hcalls⟩

end Ledger

/-! ## What the calls of a module tell -/

/-- What a device shows of its calls: a node runs while it is on, and a meter and a ticker have
counted. -/
def Device.Reflects (on : Bool) (l : List Hook) : Device → Prop
  | .node n => n.running = on
  | .meter m =>
    m.enables = l.count .enable ∧ m.disables = l.count .disable ∧ m.steps = l.count .step
  | .ticker steps => steps = l.count .step

/-- The calls of a device that is on or off: it was started and stopped alternately, first started,
and the device shows it. -/
structure Device.Told (on : Bool) (d : Device) (l : List Hook) : Prop where
  alternates : ∃ k, l.filter (· ≠ .step) =
    (List.replicate k [Hook.enable, .disable]).flatten ++ if on then [.enable] else []
  reflects : d.Reflects on l

theorem Node.running_step (n : Node) (ports : Ports) :
    (Outcome.state (Node.step (n, ports))).1.running = n.running := by
  cases hr : n.running with
  | false => simp only [Node.step, hr, Bool.false_eq_true, if_false, Outcome.state]
  | true => simp only [Node.step, hr, if_true, Node.onMachine, Outcome.state_within]

/-- What a device shows of a call that it gets. -/
theorem Device.Reflects.run {a b : Bool} {d d' : Device} {l : List Hook} {h : Hook} {p q : Ports}
    (hs : d.Reflects a l) (ht : h.Turns a b) (hr : h.run (d, p) = .ok () (d', q)) :
    d'.Reflects b (l ++ [h]) := by
  cases h with
  | enable =>
    obtain ⟨rfl, rfl⟩ := ht
    cases hr
    cases d with
    | node n => rfl
    | meter m =>
      obtain ⟨he, hdis, hst⟩ := hs
      simp [Device.enable, Device.Reflects, he, hdis, hst]
    | ticker s => simpa [Device.enable, Device.Reflects] using hs
  | disable =>
    obtain ⟨rfl, rfl⟩ := ht
    simp only [Hook.run, Device.disable_eq] at hr
    cases hr
    cases d with
    | node n => rfl
    | meter m =>
      obtain ⟨he, hdis, hst⟩ := hs
      simp [Device.disabled, Device.Reflects, he, hdis, hst]
    | ticker s => simpa [Device.disabled, Device.Reflects] using hs
  | step =>
    obtain ⟨rfl, rfl⟩ := ht
    cases d with
    | node n =>
      have hn := n.running_step p
      cases hstep : Node.step (n, p) with
      | ok u s =>
        simp only [Hook.run, Device.step, hstep, Outcome.within_ok] at hr
        cases hr
        rw [hstep] at hn
        exact hn.trans hs
      | error e s =>
        simp only [Hook.run, Device.step, hstep, Outcome.within_error] at hr
        cases hr
    | meter m =>
      cases hr
      obtain ⟨he, hdis, hst⟩ := hs
      simp [Device.Reflects, he, hdis, hst]
    | ticker s =>
      cases hr
      simpa [Device.Reflects] using hs

namespace Device.Told

variable {a b : Bool} {d d' : Device} {l : List Hook}

/-- A device has started once more than it has stopped just while it is on. -/
theorem count_enable (h : d.Told a l) : l.count .enable = l.count .disable + a.toNat := by
  obtain ⟨k, hk⟩ := h.alternates
  have hcount : ∀ x : Hook, x ≠ .step → l.count x =
      ((List.replicate k [Hook.enable, .disable]).flatten ++
        if a then [Hook.enable] else []).count x := by
    intro x hx
    rw [← hk, List.count_filter (by simpa using hx)]
  rw [hcount .enable (by decide), hcount .disable (by decide)]
  cases a <;> simp [List.count_flatten]

theorem turn {h : Hook} (hd : d.Told a l) (ht : h.Turns a b) {p q : Ports}
    (hr : h.run (d, p) = .ok () (d', q)) : d'.Told b (l ++ [h]) := by
  refine ⟨?_, hd.reflects.run ht hr⟩
  obtain ⟨k, hk⟩ := hd.alternates
  cases h with
  | enable =>
    obtain ⟨rfl, rfl⟩ := ht
    exact ⟨k, by simpa using hk⟩
  | disable =>
    obtain ⟨rfl, rfl⟩ := ht
    refine ⟨k + 1, ?_⟩
    rw [List.filter_append, hk]
    simp [List.replicate_succ']
  | step =>
    obtain ⟨rfl, rfl⟩ := ht
    exact ⟨k, by simpa using hk⟩

theorem receive {c : Casing} (hd : d.Told false l) :
    (c.receive d).Told c.enabled (l ++ if c.enabled then [.enable] else []) := by
  unfold Casing.receive
  cases c.enabled with
  | false => simpa using hd
  | true => exact hd.turn (h := .enable) ⟨rfl, rfl⟩ (p := c.pipes.ports .xNeg) rfl

theorem retire {c : Casing} (hd : d.Told c.enabled l) :
    (c.retire d).Told false (l ++ if c.enabled then [.disable] else []) := by
  unfold Casing.retire
  cases he : c.enabled with
  | false => simpa [he] using hd
  | true =>
    rw [he] at hd
    exact hd.turn (h := .disable) ⟨rfl, rfl⟩ (p := c.pipes.ports .xNeg)
      (congrArg (EStateM.Result.ok ()) (d.disable_eq _))

theorem assemble (hd : d.Told a l) (source : Bytes) : (d.assemble source).Told a l :=
  ⟨hd.alternates, by cases d <;> exact hd.reflects⟩

end Device.Told

theorem Order.told_device (o : Order) : o.device.Told false [] := by
  refine ⟨⟨0, rfl⟩, ?_⟩
  unfold Order.device
  split
  · rfl
  · exact ⟨rfl, rfl, rfl⟩
  · rfl

/-- The calls of every module tell whether it is installed in an enabled casing. -/
structure Ledger.Kept (t : Ledger) : Prop where
  installed : ∀ f d, t.casing.slots.get f = some d → d.Told t.casing.enabled (t.calls.get f)
  shelf : ∀ x ∈ t.shelf, x.1.device.Told false x.2
  lost : ∀ x ∈ t.lost, x.1.device.Told false x.2

namespace Ledger

variable {t t' : Ledger} {h : Hook} {f : Face}

theorem Called.told {a b : Bool} (hc : Called h Face.all t t') (ht : h.Turns a b)
    (hk : ∀ f d, t.casing.slots.get f = some d → d.Told a (t.calls.get f)) (f : Face) (d : Device)
    (hd : t'.casing.slots.get f = some d) : d.Told b (t'.calls.get f) := by
  rcases hc.had f (Face.mem_all f) with ⟨-, hn, -⟩ | ⟨x, p, y, q, hx, hr, hy, hcalls⟩
  · rw [hn] at hd
    cases hd
  · rw [hy] at hd
    cases hd
    rw [hcalls]
    exact (hk f x hx).turn ht hr

/-- A call of all devices that is followed by something without a call. -/
theorem called_of_bind {g : Casing → Casing}
    (hc : (callAll h >>= fun _ => adjust g) t = .ok () t') :
    ∃ t₁, Called h Face.all t t₁ ∧ t' = { t₁ with casing := g t₁.casing } := by
  cases h₁ : callAll h t with
  | error e t₁ => cases (Outcome.bind_error h₁).symm.trans hc
  | ok u t₁ =>
    cases (Outcome.bind_ok h₁).symm.trans hc
    exact ⟨t₁, called_forM (by decide) h₁, rfl⟩

namespace Kept

theorem new (stand : Stand) : (new stand).Kept where
  installed f d hd := by simp [Ledger.new, Casing.new] at hd
  shelf x hx := absurd hx List.not_mem_nil
  lost x hx := absurd hx List.not_mem_nil

theorem exchange (hk : t.Kept) (f : Face) (m : Option (Module × List Hook))
    (hm : ∀ x, m = some x → x.1.device.Told false x.2) :
    (Outcome.state (exchange f m t)).Kept := by
  rw [exchange_eq, Casing.exchange_eq]
  refine ⟨fun g d hd => ?_, fun x hx => ?_, hk.lost⟩
  · by_cases hg : g = f
    · subst hg
      cases m with
      | none =>
        cases (PerFace.get_set_self _ _ _).symm.trans hd
      | some x =>
        cases (PerFace.get_set_self _ _ _).symm.trans hd
        exact (PerFace.get_set_self t.calls g _).symm ▸ (hm x rfl).receive
    · exact (PerFace.get_set_of_ne t.calls _ hg).symm ▸
        hk.installed g d ((PerFace.get_set_of_ne _ _ hg).symm.trans hd)
  · rcases List.mem_append.mp hx with hx | hx
    · exact hk.shelf x hx
    · obtain ⟨d, hd, rfl⟩ := Option.map_eq_some_iff.mp (Option.mem_toList.mp hx)
      exact (hk.installed f d hd).retire

theorem enable (hk : t.Kept) : (Outcome.state (enable t)).Kept := by
  obtain ⟨t', ht, hc, hs, hl⟩ := Shows.enable.ok (t := t) rfl
  rw [ht]
  refine ⟨?_, hs ▸ hk.shelf, hl ▸ hk.lost⟩
  show ∀ f d, t'.casing.slots.get f = some d → d.Told t'.casing.enabled (t'.calls.get f)
  have hi := hk.installed
  unfold Ledger.enable at ht
  cases he : t.casing.enabled with
  | true =>
    rw [if_pos he] at ht
    cases ht
    exact hi
  | false =>
    rw [if_neg (by simp [he])] at ht
    have hon : t'.casing.enabled = true := hc ▸ Casing.enabled_enable _
    rw [he] at hi
    rw [hon]
    exact (called_forM (by decide) ht).told ⟨rfl, rfl⟩ hi

theorem disable (hk : t.Kept) : (Outcome.state (disable t)).Kept := by
  obtain ⟨t', ht, hc, hs, hl⟩ := Shows.disable.ok (t := t) rfl
  rw [ht]
  refine ⟨?_, hs ▸ hk.shelf, hl ▸ hk.lost⟩
  show ∀ f d, t'.casing.slots.get f = some d → d.Told t'.casing.enabled (t'.calls.get f)
  have hi := hk.installed
  unfold Ledger.disable at ht
  cases he : t.casing.enabled with
  | true =>
    have hoff : t'.casing.enabled = false := hc ▸ Casing.enabled_disable _
    rw [if_pos he] at ht
    rw [he] at hi
    rw [hoff]
    obtain ⟨t₁, h₁, rfl⟩ := called_of_bind ht
    exact h₁.told ⟨rfl, rfl⟩ hi
  | false =>
    rw [if_neg (by simp [he])] at ht
    cases ht
    exact hi

/-- A step that does not fault calls what is installed in an enabled casing, and nothing else. -/
theorem step (hk : t.Kept) {c : Casing} (hc : Casing.step t.casing = .ok () c)
    (he : c.enabled = t.casing.enabled) :
    ∃ t', step t = .ok () t' ∧ t'.Kept ∧ t'.shelf = t.shelf ∧ t'.lost = t.lost ∧
      ∀ f, t'.calls.get f = t.calls.get f ++
        if t.casing.enabled ∧ (t.casing.slots.get f).isSome then [.step] else [] := by
  obtain ⟨t', ht, rfl, hs, hl⟩ := Shows.step.ok hc
  refine ⟨t', ht, ⟨?_, hs ▸ hk.shelf, hl ▸ hk.lost⟩, hs, hl, ?_⟩
  all_goals unfold Ledger.step at ht
  · have hi := hk.installed
    rw [he]
    split at ht
    · rename_i hon
      rw [hon] at hi ⊢
      obtain ⟨t₁, h₁, rfl⟩ := called_of_bind ht
      exact h₁.told ⟨rfl, rfl⟩ hi
    · cases ht
      exact hi
  · intro f
    split at ht
    · rename_i hon
      obtain ⟨t₁, h₁, rfl⟩ := called_of_bind ht
      rcases h₁.had f (Face.mem_all f) with ⟨hn, -, hcalls⟩ | ⟨d, -, -, -, hd, -, -, hcalls⟩
      · simpa [hn] using hcalls
      · simpa [hd, hon] using hcalls
    · rename_i hoff
      cases ht
      simp [hoff]

theorem perform (hk : t.Kept) (hc : t.casing.Each (Device.Orderly t.casing.enabled)) (a : Act) :
    (t.perform a).Kept := by
  cases a with
  | make order =>
    refine ⟨hk.installed, fun x hx => ?_, hk.lost⟩
    rcases List.mem_append.mp hx with hx | hx
    · exact hk.shelf x hx
    · obtain rfl := List.mem_singleton.mp hx
      exact order.told_device
  | install f i =>
    simp only [Ledger.perform]
    split
    · exact hk
    · rename_i x hi
      have hx := hk.shelf x (List.mem_of_getElem? hi)
      have hrest : ∀ y ∈ t.shelf.eraseIdx i, y.1.device.Told false y.2 :=
        fun y hy => hk.shelf y (List.mem_of_mem_eraseIdx hy)
      split
      · refine exchange (t := { t with shelf := t.shelf.eraseIdx i })
          ⟨hk.installed, hrest, hk.lost⟩ f _ ?_
        rintro y ⟨rfl⟩
        exact hx
      · refine ⟨hk.installed, hrest, fun y hy => ?_⟩
        rcases List.mem_append.mp hy with hy | hy
        · exact hk.lost y hy
        · obtain rfl := List.mem_singleton.mp hy
          exact hx
  | remove f => exact hk.exchange f none fun _ hx => by cases hx
  | enable => exact hk.enable
  | disable => exact hk.disable
  | step =>
    obtain ⟨c, hstep, -, he, -⟩ := hc.step Device.local_orderly
    obtain ⟨t', ht, hk', -⟩ := hk.step hstep he
    show (Outcome.state (Ledger.step t)).Kept
    rw [ht]
    exact hk'
  | assemble i source =>
    refine ⟨hk.installed, fun x hx => ?_, hk.lost⟩
    obtain ⟨j, hj⟩ := List.mem_iff_getElem?.mp hx
    simp only [Ledger.perform, List.getElem?_modify] at hj
    obtain ⟨y, hy, rfl⟩ := Option.map_eq_some_iff.mp hj
    have hT := hk.shelf y (List.mem_of_getElem? hy)
    split
    · exact hT.assemble source
    · exact hT
  | assembleAt f source =>
    refine ⟨fun g d hd => ?_, hk.shelf, hk.lost⟩
    have hon : (t.perform (.assembleAt f source)).casing.enabled = t.casing.enabled :=
      Casing.enabled_assembleAt _ _ _
    replace hd := (t.casing.slots_assembleAt f g source).symm.trans hd
    rw [hon]
    split at hd
    · obtain ⟨x, hx, rfl⟩ := Option.map_eq_some_iff.mp hd
      exact (hk.installed g x hx).assemble source
    · exact hk.installed g d hd

end Kept

theorem Kept.run (hk : t.Kept) (hu : t.rig.Under Device.Orderly Device.Spare) (acts : List Act) :
    (t.run acts).Kept := by
  induction acts generalizing t with
  | nil => exact hk
  | cons a acts ih =>
    refine ih (hk.perform hu.casing a) ?_
    rw [rig_perform]
    exact Device.orderly_regime.perform_local Device.local_orderly hu a
      fun order _ => order.spare_device

/-- A device and its calls, for a module that is installed or lies beside the casing. -/
inductive Has (t : Ledger) : Bool → Device → List Hook → Prop
  | installed {f : Face} {d : Device} (h : t.casing.slots.get f = some d) :
    t.Has true d (t.calls.get f)
  | beside {x : Module × List Hook} (h : x ∈ t.shelf ++ t.lost) : t.Has false x.1.device x.2

/-- The ledger of a history that starts with an empty casing. -/
def ofHistory (stand : Stand) (acts : List Act) : Ledger := (new stand).run acts

theorem Kept.told (hk : t.Kept) {installed : Bool} {d : Device} {l : List Hook}
    (h : t.Has installed d l) : d.Told (installed && t.casing.enabled) l := by
  cases h with
  | installed h => exact hk.installed _ _ h
  | beside h =>
    rcases List.mem_append.mp h with h | h
    · exact hk.shelf _ h
    · exact hk.lost _ h

/-- In every history a module is started and stopped alternately, and it has started once more than
it has stopped just while it is installed in an enabled casing. A step gives just these modules a
turn, one each, and a node runs just while it is one of them. -/
theorem calls_alternate (stand : Stand) (acts : List Act) :
    (ofHistory stand acts).rig = (Rig.new stand).run acts ∧
    (∀ installed d l, (ofHistory stand acts).Has installed d l →
      (∃ k, l.filter (· ≠ .step) = (List.replicate k [Hook.enable, .disable]).flatten ++
        if installed && (ofHistory stand acts).casing.enabled then [.enable] else []) ∧
      l.count .enable =
        l.count .disable + (installed && (ofHistory stand acts).casing.enabled).toNat ∧
      d.Reflects (installed && (ofHistory stand acts).casing.enabled) l) ∧
    ∃ t', step (ofHistory stand acts) = .ok () t' ∧
      t'.shelf = (ofHistory stand acts).shelf ∧ t'.lost = (ofHistory stand acts).lost ∧
      ∀ f, t'.calls.get f = (ofHistory stand acts).calls.get f ++
        if (ofHistory stand acts).casing.enabled ∧
          ((ofHistory stand acts).casing.slots.get f).isSome then [.step] else [] := by
  have hu := Rig.orderly_run stand acts
  have hrig : (ofHistory stand acts).rig = (Rig.new stand).run acts := (new stand).rig_run acts
  have hk := (Kept.new stand).run (Device.orderly_regime.new stand) acts
  refine ⟨hrig, fun installed d l hh => ?_, ?_⟩
  · have hT := hk.told hh
    exact ⟨hT.alternates, hT.count_enable, hT.reflects⟩
  · rw [← hrig] at hu
    obtain ⟨c, hstep, -, he, -⟩ := hu.casing.step Device.local_orderly
    obtain ⟨t', ht, -, hs, hl, hcalls⟩ := hk.step hstep he
    exact ⟨t', ht, hs, hl, hcalls⟩

/-- A meter comes into an enabled casing, has a turn, is taken out and comes back. -/
def returning : List Act :=
  [.make ⟨⟨.first, .zNeg⟩, .meter, []⟩, .enable, .install .zNeg 0, .step, .remove .zNeg,
    .install .zNeg 0]

theorem calls_alternate_returning :
    (ofHistory .first returning).Has true (.meter ⟨1, 2, 1⟩) [.enable, .step, .disable, .enable] ∧
    (∃ k, [Hook.enable, .step, .disable, .enable].filter (· ≠ .step) =
      (List.replicate k [Hook.enable, .disable]).flatten ++ [.enable]) := by
  have hcalls : (ofHistory .first returning).calls.get .zNeg =
      [.enable, .step, .disable, .enable] := by decide +kernel
  have hon : (ofHistory .first returning).casing.enabled = true := by decide +kernel
  have hh : (ofHistory .first returning).Has true (.meter ⟨1, 2, 1⟩)
      [.enable, .step, .disable, .enable] := hcalls ▸ .installed (by decide +kernel)
  have h := ((calls_alternate .first returning).2.1 _ _ _ hh).1
  rw [hon] at h
  exact ⟨hh, h⟩

end Ledger

end NodeCube
