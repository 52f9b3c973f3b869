import NodeCube.Proofs.Casing.Merge
import NodeCube.Proofs.Casing.Rig

/-!
# Pipes that show what is pending

Between ticks the pipes of a casing show what is pending on them, in every history that gives no
installed node a new source, and in any other history while the casing is not enabled (`Rig.Shown`).
-/

namespace NodeCube

/-- In a casing that is not enabled there are no requests. -/
theorem Device.quiet_of_disabled {d : Option Device} {ports : Ports}
    (h : Device.Orderly false d ports) (hu : ports.Untaken) : ports.Quiet := by
  match d, h with
  | some (.node n), h =>
    have hc := h.clear rfl
    refine ⟨fun p => ?_, h.safe.owns.free hc.writeInFlight⟩
    cases hr : (ports.incoming.get p).reading with
    | false => rfl
    | true =>
      have hs := ((h.attends p).mp ⟨hr, hu p⟩).1
      rw [Node.registers_site, hc.stalled] at hs
      cases hs
  | none, h | some (.meter _), h | some (.ticker _), h => exact h

theorem Ports.cancelRequests_of_quiet {ps : Ports} (h : ps.Quiet) (hi : ps.Untaken)
    (ho : ∀ p, (ps.outgoing.get p).taken = false) : ps.cancelRequests = ps := by
  refine ext_get (fun p => ?_) fun p => ?_
  · rw [incoming_cancelRequests, Pipe.cancelRead_of_not_taken (hi p), ← h.reading p]
  · rw [outgoing_cancelRequests, Pipe.cancelWrite_of_not_taken (ho p), ← h.writing p]

namespace Casing

variable {c : Casing}

theorem published_stepPipes (c : Casing) : c.stepPipes.Published := by
  intro s
  rw [stepPipes, Pipes.pipe_mapPipes]
  exact Pipe.published_step _

theorem Published.exchange (h : c.Published) (f : Face) (d : Option Device) :
    (c.exchange f d).1.Published := by
  rw [exchange_eq]
  intro s
  dsimp only
  rw [Pipes.pipe_withPorts]
  split
  · rw [Ports.incoming_step]
    exact Pipe.published_step _
  · split
    · rw [Ports.outgoing_step]
      exact Pipe.published_step _
    · exact h s

theorem Published.enable (h : c.Published) : c.enable.Published := by
  unfold Casing.enable
  split <;> exact h

theorem published_disable (h : c.enabled = false → c.Published) : c.disable.Published := by
  cases he : c.enabled with
  | true =>
    intro s
    obtain ⟨hp, hw, hr, -⟩ := pipe_disable he s
    rw [Pipe.Published, hp, hw, hr]
    rfl
  | false => simpa [Casing.disable, he] using h he

/-- In a casing that is not enabled, a node that gets a new source has no request to withdraw. -/
theorem Published.assembleAt (h : c.Published) (hk : c.Each (Device.Orderly false)) (f : Face)
    (source : Bytes) : (c.assembleAt f source).Published := by
  have hq := Device.quiet_of_disabled (hk.holds f) (hk.untaken_ports f)
  unfold Casing.assembleAt
  split
  · intro s
    simpa [Node.assembleAt, place, Ports.cancelRequests_of_quiet hq (hk.untaken_ports f)
      (hk.untaken_outgoing f)] using h s
  · exact h

/-- What a step leads to. -/
theorem step_eq {e : Bool} (h : c.Each (Device.Orderly e)) (hp : c.Published) :
    step c = .ok () (if c.enabled then c.merged.stepPipes else c) := by
  unfold step
  split
  · exact tick_eq_merged (Device.local_orderly e) h hp (.refl _)
  · rfl

end Casing

namespace Rig

variable {r : Rig} {always : Bool}

/-- All requests are in order, and the pipes show them, `always` or while the casing is not
enabled. -/
structure Shown (always : Bool) (r : Rig) : Prop where
  under : r.Under Device.Orderly Device.Spare
  published : always = true ∨ r.casing.enabled = false → r.casing.Published

/-- What an exchange does to the casing. -/
theorem casing_exchange (r : Rig) (f : Face) (m : Option Module) :
    (r.exchange f m).casing = r.casing ∨
      ∃ d, (r.exchange f m).casing = (r.casing.exchange f d).1 := by
  unfold exchange
  split
  · exact .inl rfl
  · rename_i hs
    unfold Casing.setModule at hs
    split at hs
    · cases hs
      exact .inr ⟨_, rfl⟩
    · cases hs

theorem enabled_exchange (r : Rig) (f : Face) (m : Option Module) :
    (r.exchange f m).casing.enabled = r.casing.enabled := by
  obtain h | ⟨d, h⟩ := r.casing_exchange f m
  · rw [h]
  · rw [h, Casing.exchange_eq]

theorem published_exchange (h : r.casing.Published) (f : Face) (m : Option Module) :
    (r.exchange f m).casing.Published := by
  obtain hc | ⟨d, hc⟩ := r.casing_exchange f m
  · rw [hc]
    exact h
  · rw [hc]
    exact h.exchange f d

theorem Shown.perform (h : r.Shown always) {a : Act}
    (ha : always = true → a.keepsPrograms = true) : (r.perform a).Shown always where
  under := Device.orderly_regime.perform_local Device.local_orderly h.under a
    fun order _ => order.spare_device
  published he := by
    cases a with
    | make | assemble => exact h.published he
    | install f i =>
      simp only [Rig.perform] at he ⊢
      split at he
      · exact h.published he
      · rw [enabled_exchange] at he
        exact published_exchange (r := { r with shelf := r.shelf.eraseIdx i }) (h.published he) f _
    | remove f =>
      simp only [Rig.perform, enabled_exchange] at he
      exact published_exchange (h.published he) f none
    | enable =>
      rcases he with he | he
      · exact (h.published (.inl he)).enable
      · simp only [Rig.perform, Casing.enabled_enable] at he
        cases he
    | disable => exact Casing.published_disable fun he => h.published (.inr he)
    | step =>
      -- a step does not change whether the casing is enabled, so the pipes showed all before it
      obtain ⟨c', hc, -, hen, -⟩ := h.under.casing.step Device.local_orderly
      have hp := h.published (he.imp_right fun e => ?_)
      · simp only [Rig.perform, Casing.step_eq h.under.casing hp, Outcome.state]
        split
        · exact Casing.published_stepPipes _
        · exact hp
      · simp only [Rig.perform, hc, Outcome.state] at e
        exact hen.symm.trans e
    | assembleAt f source =>
      rcases he with he | he
      · cases ha he
      · have hoff : r.casing.enabled = false := (Casing.enabled_assembleAt _ f source).symm.trans he
        have hk := h.under.casing
        rw [hoff] at hk
        exact (h.published (.inr hoff)).assembleAt hk f source

theorem shown_new (stand : Stand) (always : Bool) : (new stand).Shown always where
  under := Device.orderly_regime.new stand
  published _ s := by
    simp [new, Casing.new, Pipe.Published, Phase.ofRequests]

theorem Shown.run (h : r.Shown always) {acts : List Act}
    (ha : always = true → ∀ a ∈ acts, a.keepsPrograms = true) : (r.run acts).Shown always := by
  induction acts generalizing r with
  | nil => exact h
  | cons a acts ih =>
    exact ih (h.perform fun e => ha e a List.mem_cons_self)
      fun e b hb => ha e b (List.mem_cons_of_mem a hb)

end Rig

end NodeCube
