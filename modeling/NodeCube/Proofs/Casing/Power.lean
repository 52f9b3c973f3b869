import NodeCube.Proofs.Casing.Hooks
import NodeCube.Proofs.Casing.Replica

/-!
# Which nodes run

Nodes run just while they are in an enabled casing (`Casing.InStep`). Enabling, disabling and
exchanging modules see to that, and a device that leaves a casing does not run any more. Steps,
loads and new sources have no part in it (`Casing.power`), whether they succeed or not.
`Outcome.Keeps` says of an action what it leaves as it was, and is checked part by part.
-/

namespace NodeCube

open Snapshot

/-! ## What actions keep -/

namespace Outcome

variable {ε σ α β γ : Type} {v : σ → γ}

/-- The action leaves what `v` shows of the state as it was, also if it fails. -/
def Keeps (v : σ → γ) (a : EStateM ε σ α) : Prop := ∀ s, v (state (a s)) = v s

namespace Keeps

theorem pure (x : α) : Keeps v (Pure.pure x : EStateM ε σ α) := fun _ => rfl

theorem throw (e : ε) : Keeps v (throw e : EStateM ε σ α) := fun _ => rfl

theorem bind {a : EStateM ε σ α} {k : α → EStateM ε σ β} (ha : Keeps v a)
    (hk : ∀ x, Keeps v (k x)) : Keeps v (a >>= k) := by
  intro s
  have h := ha s
  cases hs : a s with
  | ok x s' =>
    rw [hs] at h
    rw [bind_ok hs]
    exact (hk x s').trans h
  | error e s' =>
    rw [hs] at h
    rw [bind_error hs]
    exact h

theorem forM {ι : Type} {act : ι → EStateM ε σ PUnit} (h : ∀ i, Keeps v (act i)) (l : List ι) :
    Keeps v (l.forM act) := by
  induction l with
  | nil => exact fun _ => rfl
  | cons i l ih => exact (h i).bind fun _ => ih

end Keeps

end Outcome

open Outcome (Keeps)

namespace Snapshot.Restore

variable {σ τ α γ : Type} {v : σ → γ}

theorem keeps_read (r : Reader α) : Keeps (fun x : σ × Cursor => v x.1) (read r) := by
  rintro ⟨s, c⟩
  rw [read, Outcome.state_within]

theorem keeps_update {g : σ → σ} (h : ∀ s, v (g s) = v s) :
    Keeps (fun x : σ × Cursor => v x.1) (update g) := fun x => h x.1

theorem keeps_part {get : σ → τ} {put : τ → σ → σ} {r : Restore τ α}
    (h : ∀ t s, v (put t s) = v s) : Keeps (fun x : σ × Cursor => v x.1) (part get put r) := by
  rintro ⟨s, c⟩
  rw [part, Outcome.state_within]
  exact h _ s

theorem keeps_act {a : EStateM SnapshotError σ α} (h : Keeps v a) :
    Keeps (fun x : σ × Cursor => v x.1) (act a) := by
  rintro ⟨s, c⟩
  rw [act, Outcome.state_within]
  exact h s

theorem keeps_ofBytes {r : Restore σ α} (h : Keeps (fun x : σ × Cursor => v x.1) r)
    (bytes : Bytes) : Keeps v (ofBytes r bytes) := by
  intro s
  rw [ofBytes, Outcome.state_within]
  exact h (s, Cursor.start bytes)

end Snapshot.Restore

/-! ## Whether devices run -/

/-- Restoring a node keeps what neither a new source nor new registers change. -/
theorem Node.keeps_restore {γ : Type} {v : Node × Ports → γ} {installed : Bool}
    (hsource : ∀ source s, v (assembleAt installed source s) = v s)
    (hregisters : ∀ registers n ports,
      v ({ n with machine := { n.machine with registers } }, ports) = v (n, ports)) :
    Keeps (fun x : (Node × Ports) × Cursor => v x.1) (restore installed) :=
  (Restore.keeps_read _).bind fun source => (Restore.keeps_update (hsource source)).bind fun _ =>
    Restore.keeps_part fun registers s => hregisters registers s.1 s.2

namespace Device

/-- Whether a node runs. -/
def runs? (d : Device) : Option Bool := d.node?.map Node.running

/-- If the device is a node, it runs just if `on` holds. -/
def Follows (on : Bool) (d : Device) : Prop := ∀ b, d.runs? = some b → b = on

theorem runs?_assemble (d : Device) (source : Bytes) : (d.assemble source).runs? = d.runs? := by
  cases d <;> rfl

theorem follows_enable (d : Device) : d.enable.Follows true := by
  intro b hb
  cases d with
  | node n => exact (Option.some.inj hb).symm
  | meter | ticker => cases hb

theorem follows_disabled (d : Device) : d.disabled.Follows false := by
  intro b hb
  cases d with
  | node n => exact (Option.some.inj hb).symm
  | meter | ticker => cases hb

theorem Follows.congr {on : Bool} {d d' : Device} (h : d.Follows on) (he : d'.runs? = d.runs?) :
    d'.Follows on := fun b hb => h b (he ▸ hb)

theorem keeps_step : Keeps (fun s => s.1.runs?) step := by
  rintro ⟨d, ports⟩
  cases d with
  | node n =>
    have hrun := n.running_step ports
    show (Outcome.state (Outcome.within ofNode (Node.step (n, ports)))).1.runs? = some n.running
    rw [Outcome.state_within, ← hrun]
    rfl
  | meter | ticker => rfl

/-- A device that does not run does nothing to its ports when it is stepped. -/
theorem ports_step {d : Device} (h : d.Follows false) (ports : Ports) :
    (Outcome.state (step (d, ports))).2 = ports := by
  cases d with
  | node n =>
    have hoff : n.running = false := h n.running rfl
    simp only [step, Node.step, hoff, Bool.false_eq_true, if_false]
    rfl
  | meter | ticker => rfl

theorem keeps_restore {γ : Type} {v : Device × Ports → γ} {installed : Bool}
    (hsource : ∀ source s, v (ofNode (Node.assembleAt installed source s)) = v (ofNode s))
    (hregisters : ∀ registers n ports,
      v (.node { n with machine := { n.machine with registers } }, ports) = v (.node n, ports)) :
    Keeps (fun x : (Device × Ports) × Cursor => v x.1) (restore installed) := by
  rintro ⟨⟨d, ports⟩, c⟩
  cases d with
  | node n =>
    have h := Node.keeps_restore (v := v ∘ ofNode) hsource hregisters ((n, ports), c)
    rw [restore, Outcome.state_within]
    exact h
  | meter | ticker => rfl

end Device

theorem Order.follows_device (o : Order) : o.device.Follows false := by
  intro b hb
  unfold device at hb
  split at hb
  · exact (Option.some.inj hb).symm
  all_goals cases hb

namespace Casing

variable {c c' : Casing}

/-- Whether the casing is enabled, and which of its nodes run. -/
def power (c : Casing) : Bool × (Face → Option Bool) :=
  (c.enabled, fun f => (c.slots.get f).bind Device.runs?)

theorem keeps_onDevice {ε : Type} {a : EStateM ε (Device × Ports) Unit}
    (h : Keeps (fun s => s.1.runs?) a) (f : Face) : Keeps power (onDevice f a) := by
  intro c
  cases hs : c.slots.get f with
  | none =>
    rw [onDevice_of_none hs]
    rfl
  | some d =>
    rw [onDevice_of_some hs, Outcome.state_within]
    have hd := h (d, c.pipes.ports f)
    refine congrArg (Prod.mk c.enabled) (funext fun g => ?_)
    show ((c.slots.set f (some _)).get g).bind Device.runs? = _
    rw [PerFace.get_set]
    split
    · rename_i e
      rw [e, hs]
      exact hd
    · rfl

theorem keeps_step : Keeps power step := by
  intro c
  unfold step
  split
  · exact ((Outcome.Keeps.forM (fun f => keeps_onDevice Device.keeps_step f) Face.all).bind
      fun _ _ => rfl) c
  · rfl

theorem keeps_restoreFace (f : Face) :
    Keeps (fun x : Casing × Cursor => x.1.power) (restoreFace f) := by
  refine (Restore.keeps_read _).bind fun present => ?_
  split
  · exact .pure ()
  · exact (Restore.keeps_read _).bind fun part => Restore.keeps_act
      (keeps_onDevice (Restore.keeps_ofBytes
        (Device.keeps_restore (fun _ _ => rfl) fun _ _ _ => rfl) part) f)

theorem keeps_load (bytes : Bytes) : Keeps power (load bytes) := by
  have hversion : Keeps (fun x : Casing × Cursor => x.1.power) restoreVersion := by
    refine (Restore.keeps_read _).bind fun version => ?_
    split
    · exact .pure ()
    · exact .throw _
  have hend : Keeps (fun x : Casing × Cursor => x.1.power) restoreEnd := by
    rintro ⟨c, cursor⟩
    unfold restoreEnd
    dsimp only
    split <;> rfl
  refine Restore.keeps_ofBytes (hversion.bind fun _ =>
    (Outcome.Keeps.forM keeps_restoreFace _).bind fun _ =>
      (Outcome.Keeps.forM (fun s => ?_) _).bind fun _ => hend) bytes
  exact Restore.keeps_part fun _ _ => rfl

theorem power_assembleAt (c : Casing) (f : Face) (source : Bytes) :
    (c.assembleAt f source).power = c.power := by
  unfold power
  rw [enabled_assembleAt]
  refine congrArg (Prod.mk c.enabled) (funext fun g => ?_)
  rw [slots_assembleAt]
  split
  · cases c.slots.get g with
    | none => rfl
    | some d => exact d.runs?_assemble source
  · rfl

theorem inStep_iff : c.InStep ↔ ∀ f d, c.slots.get f = some d → d.Follows c.enabled := by
  refine ⟨fun h f d hd b hb => ?_, fun h f n hn => h f _ hn _ rfl⟩
  cases d with
  | node n =>
    cases hb
    exact h f n hd
  | meter | ticker => cases hb

namespace InStep

theorem of_power_eq (h : c.InStep) (he : c'.power = c.power) : c'.InStep := by
  refine inStep_iff.mpr fun f d hd b hb => ?_
  have hruns : (c'.slots.get f).bind Device.runs? = (c.slots.get f).bind Device.runs? :=
    congrFun (congrArg Prod.snd he) f
  have hon : c'.enabled = c.enabled := congrArg Prod.fst he
  rw [hd, Option.bind_some, hb] at hruns
  obtain ⟨x, hx, hr⟩ := Option.bind_eq_some_iff.mp hruns.symm
  rw [hon]
  exact inStep_iff.mp h f x hx b hr

theorem enable (h : c.InStep) : c.enable.InStep := by
  cases he : c.enabled with
  | true => simpa [Casing.enable, he] using h
  | false =>
    rw [enable_eq he]
    refine inStep_iff.mpr fun f d hd => ?_
    obtain ⟨x, -, rfl⟩ := Option.map_eq_some_iff.mp ((PerFace.get_map _ _ _).symm.trans hd)
    exact x.follows_enable

theorem disable (h : c.InStep) : c.disable.InStep := by
  cases he : c.enabled with
  | false => simpa [Casing.disable, he] using h
  | true =>
    refine inStep_iff.mpr fun f d hd => ?_
    rw [slots_disable he] at hd
    obtain ⟨x, -, rfl⟩ := Option.map_eq_some_iff.mp hd
    rw [enabled_disable]
    exact x.follows_disabled

/-- A device that leaves the casing does not run. -/
theorem retire (h : c.InStep) {f : Face} {d : Device} (hd : c.slots.get f = some d) :
    (c.retire d).Follows false := by
  have hon := inStep_iff.mp h f d hd
  unfold Casing.retire
  cases he : c.enabled with
  | true => exact d.follows_disabled
  | false =>
    rw [he] at hon
    exact hon

theorem exchange (h : c.InStep) (f : Face) {d : Option Device}
    (hd : ∀ x, d = some x → x.Follows false) : (c.exchange f d).1.InStep := by
  rw [exchange_eq]
  refine inStep_iff.mpr fun g y hy => ?_
  replace hy : (c.slots.set f (d.map c.receive)).get g = some y := hy
  show y.Follows c.enabled
  rw [PerFace.get_set] at hy
  split at hy
  · obtain ⟨x, hx, rfl⟩ := Option.map_eq_some_iff.mp hy
    unfold receive
    cases c.enabled with
    | true => exact x.follows_enable
    | false => exact hd x hx
  · exact inStep_iff.mp h g y hy

end InStep

end Casing

end NodeCube
