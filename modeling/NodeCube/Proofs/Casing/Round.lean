import NodeCube.Casing
import NodeCube.Proofs.Site.Requests

/-!
# Rounds over the faces

A face that takes its turn changes only its own side of the eight pipes it touches, so what its
neighbours rely on stays true. `Casing.stepFaces_round` turns this into one principle for a round of
turns in any order: if every device, when its turn comes, does what takes `P` to `Q`, and neither
depends on what the neighbours may change, then after the round `Q` holds at each face that had its
turn. What holds of the devices after a tick, that no turn faults, and that the order of the turns
does not matter are all cases of it.
-/

namespace NodeCube

namespace Ports.ByOthers

theorem refl (a : Ports) : ByOthers a a := ⟨fun _ => .refl _, fun _ => .refl _⟩

theorem trans {a b c : Ports} (h : ByOthers a b) (h' : ByOthers b c) : ByOthers a c :=
  ⟨fun p => (h.incoming p).trans (h'.incoming p), fun p => (h.outgoing p).trans (h'.outgoing p)⟩

end Ports.ByOthers

theorem Ports.ByOwner.refl (a : Ports) : ByOwner a a := ⟨fun _ => .refl _, fun _ => .refl _⟩

/-- The requests of this side are as they were, whatever else happened to the pipes. -/
structure Ports.Spared (a b : Ports) : Prop where
  reading : ∀ p, (b.incoming.get p).reading = (a.incoming.get p).reading
  taken : ∀ p, (b.incoming.get p).taken = (a.incoming.get p).taken
  writing : ∀ p, (b.outgoing.get p).writing = (a.outgoing.get p).writing

/-- The requests of the neighbours are as they were, whatever else happened to the pipes. -/
structure Ports.Sparing (a b : Ports) : Prop where
  writing : ∀ p, (b.incoming.get p).writing = (a.incoming.get p).writing
  reading : ∀ p, (b.outgoing.get p).reading = (a.outgoing.get p).reading
  taken : ∀ p, (b.outgoing.get p).taken = (a.outgoing.get p).taken

theorem Ports.ByOthers.spared {a b : Ports} (h : ByOthers a b) : Spared a b :=
  ⟨fun p => (h.incoming p).reading, fun p => (h.incoming p).taken, fun p => (h.outgoing p).writing⟩

namespace Pipes

variable {ps : Pipes} {f g : Face} {t : Ports}

/-- A face writes to the pipes that its neighbours read from and the other way round. So what it
does to its incoming pipes (`R`) the neighbours see on outgoing ones. -/
theorem ports_withPorts_of_ne {R S : Pipe → Pipe → Prop} (hR : ∀ a, R a a) (hS : ∀ a, S a a)
    (hne : g ≠ f) (hi : ∀ p, R ((ps.ports f).incoming.get p) (t.incoming.get p))
    (ho : ∀ p, S ((ps.ports f).outgoing.get p) (t.outgoing.get p)) :
    (∀ p, S ((ps.ports g).incoming.get p) (((ps.withPorts f t).ports g).incoming.get p)) ∧
      ∀ p, R ((ps.ports g).outgoing.get p) (((ps.withPorts f t).ports g).outgoing.get p) := by
  refine ⟨fun p => ?_, fun p => ?_⟩
  · rw [incoming_ports, incoming_ports, pipe_withPorts, if_neg hne]
    split
    · rename_i e
      have hm := ho (Socket.opposite ⟨g, p⟩).port
      rw [outgoing_ports, ← e] at hm
      have hs : ps.pipe ⟨g, p⟩ = ps.pipe (Socket.opposite (Socket.opposite ⟨g, p⟩)) := by
        rw [Socket.opposite_opposite]
      exact hs ▸ hm
    · exact hS _
  · rw [outgoing_ports, outgoing_ports, pipe_withPorts]
    split
    · rename_i e
      have hm := hi (Socket.opposite ⟨g, p⟩).port
      rw [incoming_ports, ← e] at hm
      exact hm
    · rw [Socket.opposite_opposite, if_neg hne]
      exact hR _

theorem byOthers_withPorts (hne : g ≠ f) (h : (ps.ports f).ByOwner t) :
    (ps.ports g).ByOthers ((ps.withPorts f t).ports g) :=
  have := ports_withPorts_of_ne .refl .refl hne h.incoming h.outgoing
  ⟨this.1, this.2⟩

theorem spared_withPorts (hne : g ≠ f) (h : (ps.ports f).Sparing t) :
    (ps.ports g).Spared ((ps.withPorts f t).ports g) := by
  have := ports_withPorts_of_ne (R := fun a b => b.writing = a.writing)
    (S := fun a b => b.reading = a.reading ∧ b.taken = a.taken) (fun _ => rfl) (fun _ => ⟨rfl, rfl⟩)
    hne h.writing fun p => ⟨h.reading p, h.taken p⟩
  exact ⟨fun p => (this.1 p).1, fun p => (this.1 p).2, this.2⟩

end Pipes

namespace Face

/-- The faces that have their turns before this one. -/
def before (f : Face) : List Face := all.takeWhile (· != f)

theorem nodup_before (f : Face) : f.before.Nodup := (List.takeWhile_sublist _).nodup (by decide)

theorem not_mem_before (f : Face) : f ∉ f.before := by
  cases f <;> decide

end Face

namespace Casing

variable {c : Casing} {f : Face}

theorem stepFace_of_none (h : c.slots.get f = none) : stepFace f c = .ok () c := by
  simp only [stepFace, onDevice, h]

theorem stepFace_of_some {d d' : Device} {ports : Ports} (h : c.slots.get f = some d)
    (hd : Device.step (d, c.pipes.ports f) = .ok () (d', ports)) :
    stepFace f c = .ok () (c.place f d' ports) := by
  simp only [stepFace, onDevice, h, hd, Outcome.within_ok]

theorem stepFace_of_error {d d' : Device} {ports : Ports} {e : Fault}
    (h : c.slots.get f = some d)
    (hd : Device.step (d, c.pipes.ports f) = .error e (d', ports)) :
    stepFace f c = .error e (c.place f d' ports) := by
  simp only [stepFace, onDevice, h, hd, Outcome.within_error]

/-- What the other faces see of a turn. -/
theorem place_of_ne {g : Face} {d : Device} {t : Ports} (hne : g ≠ f)
    (h : (c.pipes.ports f).ByOwner t) :
    (c.place f d t).slots.get g = c.slots.get g ∧
      (c.pipes.ports g).ByOthers ((c.place f d t).pipes.ports g) :=
  ⟨PerFace.get_set_of_ne _ _ hne, Pipes.byOthers_withPorts hne h⟩

section Round

variable {P Q : Face → Option Device → Ports → Prop} {E : Face → Device → Ports → Fault → Prop}

/-- What a round needs to know of the turns: from `P` a turn leads to `Q` or it faults as `E` says,
and turns of other faces keep `P` and `Q`. -/
structure Rounds (P Q : Face → Option Device → Ports → Prop)
    (E : Face → Device → Ports → Fault → Prop) : Prop where
  empty : ∀ f ports, P f none ports → Q f none ports
  turn : ∀ f d ports, P f (some d) ports →
    (∃ d' ports', Device.step (d, ports) = .ok () (d', ports') ∧ ports.ByOwner ports' ∧
      Q f (some d') ports') ∨
    ∃ e x, Device.step (d, ports) = .error e x ∧ E f d ports e
  before : ∀ f d a b, Ports.ByOthers a b → P f d a → P f d b
  after : ∀ f d a b, Ports.ByOthers a b → Q f d a → Q f d b

/-- The turns of some faces led to `c'`. -/
structure Rounded (Q : Face → Option Device → Ports → Prop) (faces : List Face) (c c' : Casing) :
    Prop where
  steps : stepFaces faces c = .ok () c'
  stand : c'.stand = c.stand
  enabled : c'.enabled = c.enabled
  had : ∀ f ∈ faces, Q f (c'.slots.get f) (c'.pipes.ports f)
  others : ∀ f, f ∉ faces → c'.slots.get f = c.slots.get f ∧
    (c.pipes.ports f).ByOthers (c'.pipes.ports f)

/-- The turn of a face faulted, after those of the faces before it. -/
def FaultsAt (E : Face → Device → Ports → Fault → Prop) (faces : List Face) (c : Casing)
    (e : Fault) : Prop :=
  ∃ l f l' c' d, faces = l ++ f :: l' ∧ stepFaces l c = .ok () c' ∧ c'.slots.get f = some d ∧
    E f d (c'.pipes.ports f) e

/-- One turn of a round. -/
theorem stepFace_cases (h : Rounds P Q E) (hp : P f (c.slots.get f) (c.pipes.ports f)) :
    (∃ c', stepFace f c = .ok () c' ∧ c'.stand = c.stand ∧ c'.enabled = c.enabled ∧
      Q f (c'.slots.get f) (c'.pipes.ports f) ∧ ∀ g, g ≠ f → c'.slots.get g = c.slots.get g ∧
        (c.pipes.ports g).ByOthers (c'.pipes.ports g)) ∨
    ∃ e c' d, stepFace f c = .error e c' ∧ c.slots.get f = some d ∧ E f d (c.pipes.ports f) e := by
  cases hs : c.slots.get f with
  | none =>
    rw [hs] at hp
    refine .inl ⟨c, stepFace_of_none hs, rfl, rfl, ?_, fun g _ => ⟨rfl, .refl _⟩⟩
    rw [hs]
    exact h.empty f _ hp
  | some d =>
    rw [hs] at hp
    rcases h.turn f d _ hp with ⟨d', ports', hd, ho, hq⟩ | ⟨e, ⟨d', ports'⟩, hd, he⟩
    · refine .inl ⟨_, stepFace_of_some hs hd, rfl, rfl, ?_, fun g hne => place_of_ne hne ho⟩
      show Q f ((c.slots.set f (some d')).get f) ((c.pipes.withPorts f ports').ports f)
      rw [PerFace.get_set_self, Pipes.ports_withPorts]
      exact hq
    · exact .inr ⟨e, _, d, stepFace_of_error hs hd, rfl, he⟩

/-- A round of turns, at most one for each face. -/
theorem stepFaces_cases (h : Rounds P Q E) {faces : List Face} (hl : faces.Nodup)
    (hp : ∀ f ∈ faces, P f (c.slots.get f) (c.pipes.ports f)) :
    (∃ c', Rounded Q faces c c') ∨
      ∃ e c', stepFaces faces c = .error e c' ∧ FaultsAt E faces c e := by
  induction faces generalizing c with
  | nil =>
    exact .inl ⟨c, rfl, rfl, rfl, fun f h => absurd h List.not_mem_nil, fun f _ => ⟨rfl, .refl _⟩⟩
  | cons f faces ih =>
    obtain ⟨hf, hl⟩ := List.nodup_cons.mp hl
    rcases stepFace_cases h (hp f List.mem_cons_self) with
      ⟨c₁, h₁, hstand, hen, hq, ho⟩ | ⟨e, c', d, h₁, hd, he⟩
    · -- the faces still to come keep `P`, and those that had their turn keep `Q`
      have hp₁ : ∀ g ∈ faces, P g (c₁.slots.get g) (c₁.pipes.ports g) := by
        intro g hg
        obtain ⟨hslot, hports⟩ := ho g fun e => hf (e ▸ hg)
        rw [hslot]
        exact h.before g _ _ _ hports (hp g (List.mem_cons_of_mem f hg))
      rcases ih hl hp₁ with ⟨c₂, hr⟩ | ⟨e, c₂, h₂, l, g, l', c', d, rfl, hsteps, hd, he⟩
      · refine .inl ⟨c₂, (Outcome.bind_ok h₁).trans hr.steps, hr.stand.trans hstand,
          hr.enabled.trans hen, fun g hg => ?_, fun g hg => ?_⟩
        · rcases List.mem_cons.mp hg with rfl | hg
          · obtain ⟨hslot, hports⟩ := hr.others g hf
            rw [hslot]
            exact h.after g _ _ _ hports hq
          · exact hr.had g hg
        · obtain ⟨hne, hg⟩ := not_or.mp (mt List.mem_cons.mpr hg)
          obtain ⟨hslot, hports⟩ := ho g hne
          obtain ⟨hslot₂, hports₂⟩ := hr.others g hg
          exact ⟨hslot₂.trans hslot, hports.trans hports₂⟩
      · exact .inr ⟨e, c₂, (Outcome.bind_ok h₁).trans h₂, f :: l, g, l', c', d, rfl,
          (Outcome.bind_ok h₁).trans hsteps, hd, he⟩
    · exact .inr ⟨e, c', Outcome.bind_error h₁, [], f, faces, c, d, rfl, rfl, hd, he⟩

/-- A round in which no turn faults. -/
theorem stepFaces_rounded (h : Rounds P Q fun _ _ _ _ => False) {faces : List Face}
    (hl : faces.Nodup) (hp : ∀ f ∈ faces, P f (c.slots.get f) (c.pipes.ports f)) :
    ∃ c', Rounded Q faces c c' :=
  (stepFaces_cases h hl hp).resolve_right fun ⟨_, _, _, _, _, _, _, _, _, _, _, he⟩ => he

end Round

end Casing

/-! ## Local invariants -/

namespace Ports

/-- No word was taken from the pipes that the node reads from. -/
def Untaken (ps : Ports) : Prop := ∀ p, (ps.incoming.get p).taken = false

@[simp] theorem incoming_step (ps : Ports) (p : Port) :
    ps.step.incoming.get p = (ps.incoming.get p).step := by simp [step]

@[simp] theorem outgoing_step (ps : Ports) (p : Port) :
    ps.step.outgoing.get p = (ps.outgoing.get p).step := by simp [step]

theorem untaken_step (ps : Ports) : ps.step.Untaken := fun p => by simp

end Ports

theorem Pipes.ports_mapPipes_step (ps : Pipes) (f : Face) :
    (ps.mapPipes Pipe.step).ports f = (ps.ports f).step := by
  simp only [ports, Ports.step, Ports.mk.injEq]
  exact ⟨PerPort.ext_get fun p => by simp, PerPort.ext_get fun p => by simp⟩

/-- A property of what is on a face and of the pipes there that only the face's own turn can
change, and that the turn keeps. -/
structure Local (K : Option Device → Ports → Prop) : Prop where
  spared : ∀ d a b, Ports.Spared a b → K d a → K d b
  turn : ∀ d a, a.Untaken → K (some d) a →
    ∃ d' b, Device.step (d, a) = .ok () (d', b) ∧ a.ByOwner b ∧ K (some d') b
  publish : ∀ d a, K d a → K d a.step

/-- A round of faces at which `K` holds and no word was taken yet. -/
theorem Local.rounded {K : Option Device → Ports → Prop} (hK : Local K) {c : Casing}
    {faces : List Face} (hl : faces.Nodup) (h : ∀ f ∈ faces,
      (c.pipes.ports f).Untaken ∧ K (c.slots.get f) (c.pipes.ports f)) :
    ∃ c', Casing.Rounded (fun _ => K) faces c c' :=
  Casing.stepFaces_rounded (P := fun _ d a => a.Untaken ∧ K d a)
    { empty := fun _ _ h => h.2
      turn := fun _ d a h => .inl (hK.turn d a h.1 h.2)
      before := fun _ d a b hb h =>
        ⟨fun p => (hb.spared.taken p).trans (h.1 p), hK.spared d a b hb.spared h.2⟩
      after := fun _ d a b hb h => hK.spared d a b hb.spared h } hl h

namespace Casing

variable {c : Casing} {K : Option Device → Ports → Prop}

/-- Between ticks, `K` holds at every face. -/
structure Each (K : Option Device → Ports → Prop) (c : Casing) : Prop where
  untaken : ∀ s, (c.pipes.pipe s).taken = false
  holds : ∀ f, K (c.slots.get f) (c.pipes.ports f)

namespace Each

theorem untaken_ports (h : c.Each K) (f : Face) : (c.pipes.ports f).Untaken := by
  intro p
  rw [Pipes.incoming_ports]
  exact h.untaken _

/-- After a round of turns that keep `K`, the pipes publish what is pending. -/
theorem stepPipes (spared : ∀ d a b, Ports.Spared a b → K d a → K d b)
    (publish : ∀ d a, K d a → K d a.step) (h : c.Each K) {faces : List Face} {c' : Casing}
    (hr : Rounded (fun _ => K) faces c c') : c'.stepPipes.Each K where
  untaken s := by rw [Casing.stepPipes, Pipes.pipe_mapPipes, Pipe.taken_step]
  holds f := by
    rw [Casing.stepPipes, Pipes.ports_mapPipes_step]
    refine publish _ _ ?_
    by_cases hf : f ∈ faces
    · exact hr.had f hf
    · obtain ⟨hslot, hports⟩ := hr.others f hf
      rw [hslot]
      exact spared _ _ _ hports.spared (h.holds f)

/-- A tick does not fault and keeps what is local, in whatever order the faces take their turns. -/
theorem tick (hK : Local K) (h : c.Each K) {faces : List Face} (hl : faces.Nodup) :
    ∃ c', Casing.tick faces c = .ok () c' ∧ c'.stand = c.stand ∧ c'.enabled = c.enabled ∧
      c'.Each K := by
  obtain ⟨c₁, hr⟩ := hK.rounded hl fun f _ => ⟨h.untaken_ports f, h.holds f⟩
  exact ⟨c₁.stepPipes, (Outcome.bind_ok hr.steps).trans rfl, hr.stand, hr.enabled,
    h.stepPipes hK.spared hK.publish hr⟩

/-- Something happens on one face that leaves the requests of the others alone. -/
theorem set (spared : ∀ d a b, Ports.Spared a b → K d a → K d b) (h : c.Each K) {f : Face}
    {d : Option Device} {t : Ports} (hs : (c.pipes.ports f).Sparing t) (ht : t.Untaken)
    (hd : K d t) : Each K { c with slots := c.slots.set f d, pipes := c.pipes.withPorts f t } where
  untaken s := by
    dsimp only
    rw [Pipes.pipe_withPorts]
    split
    · exact ht s.port
    · split
      · rename_i e
        rw [hs.taken, Pipes.outgoing_ports, ← e]
        exact h.untaken _
      · exact h.untaken s
  holds g := by
    dsimp only
    by_cases e : g = f
    · subst e
      rw [PerFace.get_set_self, Pipes.ports_withPorts]
      exact hd
    · rw [PerFace.get_set_of_ne _ _ e]
      exact spared _ _ _ (Pipes.spared_withPorts e hs) (h.holds g)

end Each

end Casing

end NodeCube
