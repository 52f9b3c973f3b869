import NodeCube.Proofs.Casing.Rig

/-!
# What makes a step fault

Nodes whose registers fit their programs (`Device.Able`) keep doing so, whatever requests are on the
pipes. A step of a casing with such nodes faults in one case only: a node hands a word over, in its
turn, at a port where a word waits already (`Casing.Collides`). `Casing.Each.step_faults_iff` says
that this is exactly when.
-/

namespace NodeCube

/-- There is a device that could be installed anywhere, or nothing. -/
def Device.Able (d : Option Device) : Prop := ∀ x, d = some x → x.Fit

theorem Device.step_running_error {n : Node} {ports : Ports} {s : Site} {e : Fault}
    (hr : n.running = true) (h : n.machine.program.step (n.site ports) = .error e s) :
    Device.step (.node n, ports) = .error e (.node (n.withRegisters s.registers), s.ports) := by
  rw [step_node hr, h, Outcome.within_error]

/-- A device that runs and is about to collide at port `p`. -/
def Device.Collides (d : Device) (ports : Ports) (p : Port) : Prop :=
  ∃ n, d = .node n ∧ n.running = true ∧ n.machine.program.Collides (n.site ports) p

/-- The turn of a device whose registers fit its program. -/
theorem Device.Fit.turn {d : Device} {a : Ports} (h : d.Fit) (hu : a.Untaken) :
    (∃ d' b, Device.step (d, a) = .ok () (d', b) ∧ a.ByOwner b ∧ d'.Fit) ∨
      ∃ p x, Device.step (d, a) = .error (.concurrentWrite p) x ∧ d.Collides a p := by
  match d, h with
  | .node n, h =>
    cases hr : n.running with
    | false => exact .inl ⟨_, _, step_resting hr, .refl _, h⟩
    | true =>
      rcases Program.step_cases (s := n.site a) h.compiled.sound (fun _ _ _ => hu) h.fits with
        ⟨s, hs, ht⟩ | ⟨p, s, hs, hc⟩
      · have hfits := Program.Turned.fits (s := n.site a) h.fits ht
        exact .inl ⟨_, _, step_running hr hs, ht.byOwner, h.compiled, hfits⟩
      · exact .inr ⟨p, _, step_running_error hr hs, n, rfl, hr, hc⟩

theorem Device.Fit.step_of_collides {d : Device} {a : Ports} {p : Port} (h : d.Fit)
    (hu : a.Untaken) (hc : d.Collides a p) :
    ∃ x, Device.step (d, a) = .error (.concurrentWrite p) x := by
  obtain ⟨n, rfl, hr, hc⟩ := hc
  obtain ⟨s, hs⟩ := hc.step_eq h.compiled.sound hu h.fits.pc
  exact ⟨_, step_running_error hr hs⟩

namespace Casing

variable {c : Casing} {f : Face} {p : Port}

/-- In the next step the device on face `f` collides at port `p`, in its turn after those that stand
before it. -/
def Collides (c : Casing) (f : Face) (p : Port) : Prop :=
  ∃ c' d, stepFaces (Face.all.takeWhile (· != f)) c = .ok () c' ∧ c'.slots.get f = some d ∧
    d.Collides (c'.pipes.ports f) p

theorem rounds_able : Rounds (fun _ d a => a.Untaken ∧ Device.Able d) (fun _ d _ => Device.Able d)
    fun _ d a e => ∃ p, e = .concurrentWrite p ∧ d.Collides a p where
  empty _ _ h := h.2
  turn f d a h := by
    rcases (h.2 d rfl).turn h.1 with ⟨d', b, hd, ho, hf⟩ | ⟨p, x, hd, hc⟩
    · refine .inl ⟨d', b, hd, ho, ?_⟩
      rintro x ⟨rfl⟩
      exact hf
    · exact .inr ⟨_, x, hd, p, rfl, hc⟩
  before _ _ _ _ hb h := ⟨fun p => (hb.spared.taken p).trans (h.1 p), h.2⟩
  after _ _ _ _ _ h := h

theorem stepFaces_append (l l' : List Face) :
    stepFaces (l ++ l') c = (stepFaces l >>= fun _ => stepFaces l') c := by
  simp [stepFaces, List.forM_append]

/-- The faces that have their turns before a face. -/
theorem takeWhile_all {l l' : List Face} (hl : Face.all = l ++ f :: l') :
    Face.all.takeWhile (· != f) = l ∧ l.Nodup ∧ f ∉ l := by
  have hn : (l ++ f :: l').Nodup := by rw [← hl]; decide
  obtain ⟨hl₁, -, hne⟩ := List.nodup_append.mp hn
  have hf : f ∉ l := fun hf => hne f hf f List.mem_cons_self rfl
  refine ⟨?_, hl₁, hf⟩
  rw [hl, List.takeWhile_append_of_pos]
  · simp
  · intro g hg
    have : g ≠ f := fun e => hf (e ▸ hg)
    simpa using this

namespace Each

variable (h : c.Each fun d _ => Device.Able d)
include h

/-- A step goes well, or some device collides. -/
theorem step_cases : (∃ c', Casing.step c = .ok () c' ∧ c'.enabled = c.enabled ∧
      c'.Each fun d _ => Device.Able d) ∨
    c.enabled = true ∧ ∃ f p c', Casing.step c = .error (.concurrentWrite p) c' ∧
      c.Collides f p := by
  unfold Casing.step
  split
  · rename_i he
    rcases stepFaces_cases rounds_able (show Face.all.Nodup by decide)
        fun f _ => ⟨h.untaken_ports f, h.holds f⟩ with
      ⟨c', hr⟩ | ⟨e, c', hs, l, f, l', c₁, d, hl, h₁, hd, p, rfl, hc⟩
    · refine .inl ⟨c'.stepPipes, (Outcome.bind_ok hr.steps).trans rfl, hr.enabled, ?_⟩
      exact h.stepPipes (fun _ _ _ _ hk => hk) (fun _ _ hk => hk) hr
    · refine .inr ⟨he, f, p, c', Outcome.bind_error hs, c₁, d, ?_, hd, hc⟩
      rw [(takeWhile_all hl).1]
      exact h₁
  · exact .inl ⟨c, rfl, rfl, h⟩

/-- When a device has its turn, it is still the one that was there and no word was taken from it. -/
theorem able_of_stepFaces {l : List Face} {c' : Casing} (hl : l.Nodup) (hf : f ∉ l)
    (hs : stepFaces l c = .ok () c') :
    Device.Able (c'.slots.get f) ∧ (c'.pipes.ports f).Untaken := by
  rcases stepFaces_cases rounds_able hl fun f _ => ⟨h.untaken_ports f, h.holds f⟩ with
    ⟨c₁, hr⟩ | ⟨e, c₁, hs', -⟩
  · cases hs.symm.trans hr.steps
    obtain ⟨hslot, hports⟩ := hr.others f hf
    rw [hslot]
    exact ⟨h.holds f, fun p => (hports.spared.taken p).trans (h.untaken_ports f p)⟩
  · cases hs.symm.trans hs'

/-- A step in which some device collides faults. -/
theorem step_of_collides (he : c.enabled = true) (hc : c.Collides f p) :
    ∃ c', Casing.step c = .error (.concurrentWrite p) c' := by
  obtain ⟨c₁, d, h₁, hd, hc⟩ := hc
  obtain ⟨l, l', hl⟩ := List.append_of_mem (Face.mem_all f)
  obtain ⟨htake, hnodup, hf⟩ := takeWhile_all hl
  rw [htake] at h₁
  obtain ⟨hable, hu⟩ := h.able_of_stepFaces hnodup hf h₁
  obtain ⟨⟨d', b⟩, hstep⟩ := (hable d hd).step_of_collides hu hc
  have hround : stepFaces Face.all c = .error (.concurrentWrite p) (c₁.place f d' b) := by
    rw [hl, stepFaces_append]
    refine (Outcome.bind_ok h₁).trans ?_
    exact Outcome.bind_error (stepFace_of_error hd hstep)
  exact ⟨_, (if_pos he).trans (Outcome.bind_error hround)⟩

/-- When a step faults. -/
theorem step_faults_iff : (∃ e c', Casing.step c = .error e c') ↔
    c.enabled = true ∧ ∃ f p, c.Collides f p := by
  refine ⟨fun ⟨e, c', hs⟩ => ?_, fun ⟨he, f, p, hc⟩ => ?_⟩
  · rcases h.step_cases with ⟨c₁, h₁, -⟩ | ⟨he, f, p, -, -, hc⟩
    · cases hs.symm.trans h₁
    · exact ⟨he, f, p, hc⟩
  · obtain ⟨c', hs⟩ := h.step_of_collides he hc
    exact ⟨_, c', hs⟩

end Each

end Casing

theorem Device.able_regime : Regime (fun _ d _ => Device.Able d) Device.Fit where
  spared _ _ _ _ _ h := h
  empty _ _ _ _ h := by cases h
  receive e d ports hd _ := by
    rintro x ⟨rfl⟩
    cases e with
    | false => exact hd
    | true => exact hd.enable
  retire e d ports hd := by
    cases e with
    | false => exact hd d rfl
    | true => exact (hd d rfl).disabled
  start d ports hd := by
    intro x hx
    obtain ⟨y, hy, rfl⟩ := Option.map_eq_some_iff.mp hx
    exact (hd y hy).enable
  shelve d source hd := hd.assemble source
  assemble e n source a b hd _ := by
    rintro x ⟨rfl⟩
    exact (hd (.node n) rfl).assemble source

end NodeCube
