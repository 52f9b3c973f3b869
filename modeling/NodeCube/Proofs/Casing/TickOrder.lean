import NodeCube.Proofs.Casing.Published

/-!
# The order of turns does not matter

A casing steps its devices in a fixed order, but any other order would do: `Rig.ticks_eq_steps`
says this for every state that a history leads to and any number of ticks, each with an order of its
own. The history must not give an installed node a new source. That withdraws a word from a pipe
that still shows a transfer, and then the reader can tell whether the writer had its turn.
-/

namespace NodeCube

namespace Casing

variable {c : Casing} {orders : List (List Face)}

/-- Some ticks, each with its own order of turns. -/
def ticks (orders : List (List Face)) : EStateM Fault Casing Unit := orders.forM tick

/-- Some steps in turn. -/
def steps : Nat → EStateM Fault Casing Unit
  | 0 => pure ()
  | n + 1 => do
    step
    steps n

/-! ## Ticks of an enabled casing -/

theorem ticks_of_enabled (h : c.Each (Device.Orderly true)) (hp : c.Published)
    (he : c.enabled = true) (ho : ∀ o ∈ orders, o.Perm Face.all) :
    ∃ c', ticks orders c = .ok () c' ∧ steps orders.length c = .ok () c' := by
  induction orders generalizing c with
  | nil => exact ⟨c, rfl, rfl⟩
  | cons o orders ih =>
    have ht := tick_eq_merged (Device.local_orderly true) h hp (ho o List.mem_cons_self)
    have hs : step c = .ok () c.merged.stepPipes := by rw [step_eq h hp, if_pos he]
    obtain ⟨c', htick, hsteps⟩ := ih (h.merged (Device.local_orderly true) hp)
      (published_stepPipes _) he fun o' h' => ho o' (List.mem_cons_of_mem o h')
    exact ⟨c', (Outcome.bind_ok ht).trans htick, (Outcome.bind_ok hs).trans hsteps⟩

/-! ## Ticks of a casing that is not enabled -/

theorem turn_of_disabled {d : Device} {a : Ports} (h : Device.Orderly false (some d) a) :
    (d.turn a).1.node? = d.node? ∧ (d.turn a).2 = a := by
  match d, h with
  | .node n, h =>
    rw [Device.turn_resting h.running]
    exact ⟨rfl, rfl⟩
  | .meter m, _ => exact ⟨rfl, rfl⟩
  | .ticker k, _ => exact ⟨rfl, rfl⟩

/-- Turns in a casing that is not enabled change nothing but counts. -/
theorem merged_of_disabled (h : c.Each (Device.Orderly false)) (hp : c.Published) :
    c.merged.stepPipes.pipes = c.pipes ∧ ∀ f, c.merged.stepPipes.node? f = c.node? f := by
  have hports : ∀ f, c.portsAfter f = c.pipes.ports f := by
    intro f
    have hf := h.holds f
    unfold portsAfter
    split
    · rfl
    · rename_i hs
      rw [hs] at hf
      exact (turn_of_disabled hf).2
  refine ⟨Pipes.ext_pipe fun s => ?_, fun f => ?_⟩
  · have hs : c.merged.pipes.pipe s = c.pipes.pipe s := by
      simp only [merged, Pipes.pipe_ofFn, hports, Pipes.incoming_ports,
        Pipes.outgoing_ports_opposite]
    rw [stepPipes, Pipes.pipe_mapPipes, hs]
    exact (hp s).step_eq (h.untaken s)
  · have hf := h.holds f
    simp only [node?, stepPipes, merged, PerFace.get_ofFn, slotAfter]
    cases hs : c.slots.get f with
    | none => rfl
    | some d =>
      rw [hs] at hf
      exact (turn_of_disabled hf).1

theorem ticks_of_disabled (h : c.Each (Device.Orderly false)) (hp : c.Published)
    (ho : ∀ o ∈ orders, o.Perm Face.all) :
    ∃ c', ticks orders c = .ok () c' ∧ c'.pipes = c.pipes ∧ ∀ f, c'.node? f = c.node? f := by
  induction orders generalizing c with
  | nil => exact ⟨c, rfl, rfl, fun _ => rfl⟩
  | cons o orders ih =>
    have ht := tick_eq_merged (Device.local_orderly false) h hp (ho o List.mem_cons_self)
    obtain ⟨hpipes, hnodes⟩ := merged_of_disabled h hp
    obtain ⟨c', htick, hpipes', hnodes'⟩ := ih (h.merged (Device.local_orderly false) hp)
      (published_stepPipes _) fun o' h' => ho o' (List.mem_cons_of_mem o h')
    exact ⟨c', (Outcome.bind_ok ht).trans htick, hpipes'.trans hpipes,
      fun f => (hnodes' f).trans (hnodes f)⟩

theorem steps_of_disabled (he : c.enabled = false) (n : Nat) : steps n c = .ok () c := by
  induction n with
  | zero => rfl
  | succ n ih =>
    have hs : step c = .ok () c := by simp [step, he]
    exact (Outcome.bind_ok hs).trans ih

end Casing

/-- However the faces take their turns, the nodes and the pipes come out the same as after as many
steps, without a fault. In an enabled casing all devices do; one that is not enabled does not step,
so there the devices that count their turns may differ. -/
theorem Rig.ticks_eq_steps (stand : Stand) (acts : List Act)
    (ha : ∀ a ∈ acts, a.keepsPrograms = true) (orders : List (List Face))
    (ho : ∀ o ∈ orders, o.Perm Face.all) :
    let c := ((Rig.new stand).run acts).casing
    ∃ c₁ c₂, Casing.ticks orders c = .ok () c₁ ∧ Casing.steps orders.length c = .ok () c₂ ∧
      c₁.pipes = c₂.pipes ∧ (∀ f, c₁.node? f = c₂.node? f) ∧ (c.enabled = true → c₁ = c₂) := by
  intro c
  obtain ⟨hu, hp⟩ := (shown_new stand true).run fun _ => ha
  replace hp := hp (.inl rfl)
  have hk : c.Each (Device.Orderly c.enabled) := hu.casing
  cases he : c.enabled with
  | true =>
    rw [he] at hk
    obtain ⟨c', ht, hs⟩ := Casing.ticks_of_enabled hk hp he ho
    exact ⟨c', c', ht, hs, rfl, fun _ => rfl, fun _ => rfl⟩
  | false =>
    rw [he] at hk
    obtain ⟨c', ht, hpipes, hnodes⟩ := Casing.ticks_of_disabled hk hp ho
    exact ⟨c', c, ht, Casing.steps_of_disabled he _, hpipes, hnodes, nofun⟩

/-- A node that writes to `ANY` and one that reads from `ANY`, enabled and stepped, then two ticks
in other orders. -/
theorem Rig.ticks_eq_steps_any :
    let acts : List Act :=
      [.make ⟨⟨.first, .zNeg⟩, .node, ascii "MOV 5, ANY"⟩,
        .make ⟨⟨.first, .xNeg⟩, .node, ascii "MOV ANY, ACC"⟩,
        .install .zNeg 0, .install .xNeg 0, .enable, .step]
    let orders := [Face.all.reverse, [.xNeg, .zNeg, .yPos, .yNeg, .xPos, .zPos]]
    let c := ((Rig.new .first).run acts).casing
    ∃ c₁ c₂, Casing.ticks orders c = .ok () c₁ ∧ Casing.steps orders.length c = .ok () c₂ ∧
      c₁.pipes = c₂.pipes ∧ (∀ f, c₁.node? f = c₂.node? f) ∧ (c.enabled = true → c₁ = c₂) :=
  Rig.ticks_eq_steps .first _ (by decide) _ (by decide)

end NodeCube
