import NodeCube.Casing.Snapshot
import NodeCube.Proofs.Casing.Ownership
import NodeCube.Proofs.Snapshot.Takes

/-!
# Restoring a casing

What a casing becomes when it loads a snapshot of another one (`Casing.load_save`). Faces with a
node in both get the source and the registers of the saved node; a node whose face was empty keeps
its own. The pipes are those of the saved casing in any case, so a request may come without its
owner and a node may lose its requests.
-/

namespace NodeCube

open Snapshot

/-- The node after it was restored from a snapshot of `m`. -/
def Node.restored (m n : Node) : Node := (n.assemble m.source).withRegisters m.machine.registers

/-- A node whose snapshot has room for its source and program counter. -/
structure Node.Portable (m : Node) : Prop where
  source : m.encode.length < UInt32.size
  pc_nonneg : 0 ≤ m.machine.registers.pc
  pc_lt : m.machine.registers.pc < 65536

/-- All devices of the casing are nodes whose snapshots have room for them. -/
def Casing.Portable (c : Casing) : Prop :=
  ∀ f d, c.slots.get f = some d → ∃ m : Node, d = .node m ∧ m.Portable

theorem Node.Portable.source_lt {m : Node} (h : m.Portable) : m.source.length < UInt32.size := by
  have := h.source
  simp only [Node.encode, encodeBlock, List.length_append] at this
  omega

theorem Node.takes_restore {m : Node} (h : m.Portable) :
    Restore.Takes (Node.restore true) m.encode () fun (n, ports) =>
      (m.restored n, ports.cancelRequests) := by
  refine Restore.Takes.congr (.bind_read (Reader.takes_block h.source_lt) (.bind_update
    (.part (Registers.takes_restore h.pc_nonneg h.pc_lt)))) rfl fun (n, ports) => ?_
  simp only [Function.comp_apply, assembleAt, if_true, restored, withRegisters]

namespace Casing

variable {a b : Casing}

/-- What is on a face after `d` was restored from `saved`. -/
def restoredSlot (saved d : Option Device) : Option Device :=
  match saved, d with
  | some (.node m), some (.node n) => some (.node (m.restored n))
  | _, d => d

@[simp] theorem restoredSlot_none (saved : Option Device) : restoredSlot saved none = none := by
  unfold restoredSlot
  split
  · rename_i e
    cases e
  · rfl

/-- A face is restored from its part of a snapshot of `a`. -/
def restoreSlot (a : Casing) (f : Face) (b : Casing) : Casing :=
  match a.slots.get f, b.slots.get f with
  | some (.node m), some (.node n) =>
    b.place f (.node (m.restored n)) (b.pipes.ports f).cancelRequests
  | _, _ => b

theorem place_self {f : Face} {d : Device} (h : b.slots.get f = some d) :
    b.place f d (b.pipes.ports f) = b := by
  have hs : b.slots.set f (some d) = b.slots := by
    refine PerFace.ext_get fun g => ?_
    rw [PerFace.get_set]
    split
    · rename_i e
      rw [e, h]
    · rfl
  simp only [place, hs, Pipes.withPorts_ports]

section Parts

variable {f : Face} {part : Bytes}

theorem restorePart_of_none (hs : b.slots.get f = none) : restorePart f part b = .ok () b :=
  onDevice_of_none hs

theorem restorePart_of_node {n : Node} (hs : b.slots.get f = some (.node n)) :
    restorePart f part b = Outcome.within (fun s => b.place f (.node s.1.1) s.1.2)
      (Node.restore true ((n, b.pipes.ports f), Cursor.start part)) := by
  rw [restorePart, onDevice_of_some hs, Restore.ofBytes, Device.restore]
  cases Node.restore true ((n, b.pipes.ports f), Cursor.start part) <;> rfl

/-- Only nodes keep something in a snapshot. -/
theorem restorePart_of_ne_node {d : Device} (hs : b.slots.get f = some d) (hd : d.kind ≠ .node) :
    restorePart f part b = .ok () b := by
  rw [restorePart, onDevice_of_some hs]
  cases d with
  | node n => exact absurd rfl hd
  | meter _ | ticker _ => exact congrArg (EStateM.Result.ok ()) (place_self hs)

theorem restorePart_node {m : Node} (hm : m.Portable) (ha : a.slots.get f = some (.node m)) :
    restorePart f m.encode b = .ok () (a.restoreSlot f b) := by
  unfold restoreSlot
  rw [ha]
  cases hb : b.slots.get f with
  | none => exact restorePart_of_none hb
  | some d =>
    cases d with
    | node n =>
      have hr := Node.takes_restore hm (n, b.pipes.ports f) [] 0
      rw [List.append_nil] at hr
      rw [restorePart_of_node hb, Cursor.start, hr, Outcome.within_ok]
    | meter _ | ticker _ => exact restorePart_of_ne_node hb fun h => (by cases h)

end Parts

theorem takes_restoreFace (ha : a.Portable) (f : Face) :
    Restore.Takes (restoreFace f) (encodeSlot (a.slots.get f)) () (a.restoreSlot f) := by
  intro b rest k
  cases hs : a.slots.get f with
  | none =>
    refine (Outcome.bind_ok (Restore.Takes.read (Reader.takes_byte 0) b rest k)).trans ?_
    rw [if_pos rfl]
    simp only [restoreSlot, hs]
    rfl
  | some d =>
    obtain ⟨m, rfl, hm⟩ := ha f d hs
    refine (Outcome.bind_ok (Restore.Takes.read (Reader.takes_byte 1) b _ k)).trans ?_
    rw [if_neg (by decide)]
    refine (Outcome.bind_ok (Restore.Takes.read (Reader.takes_block hm.source) b rest _)).trans ?_
    simp only [Restore.act, id, restorePart_node hm hs, Outcome.within_ok, encodeSlot,
      Device.encode, List.length_cons, List.length_nil, Nat.add_assoc, Nat.add_comm 1]

theorem takes_restorePipe (s : Socket) (p : Pipe) :
    Restore.Takes (restorePipe s) p.encode () fun c => { c with pipes := c.pipes.setPipe s p } :=
  .part p.takes_restore

theorem takes_restoreVersion : Restore.Takes restoreVersion [snapshotVersion] () id :=
  Restore.Takes.congr (.bind_read (Reader.takes_byte snapshotVersion) (.pure ())) rfl fun _ => rfl

/-! ## Rounds -/

theorem takes_forM {ι σ : Type} {act : ι → Restore σ PUnit} {bytes : ι → Bytes} {g : ι → σ → σ}
    (h : ∀ i, Restore.Takes (act i) (bytes i) () (g i)) (l : List ι) :
    Restore.Takes (l.forM act) (l.flatMap bytes) () fun s => l.foldl (fun s i => g i s) s := by
  induction l with
  | nil => exact .pure ()
  | cons i l ih => exact (h i).bind (f := fun _ => l.forM act) ih

theorem slots_restoreSlot (f g : Face) : (a.restoreSlot f b).slots.get g =
    if g = f then restoredSlot (a.slots.get g) (b.slots.get g) else b.slots.get g := by
  unfold restoreSlot
  split
  · rename_i m n ha hb
    show (b.slots.set f (some (.node (m.restored n)))).get g = _
    rw [PerFace.get_set]
    split
    · rename_i e
      rw [e, ha, hb]
      rfl
    · rfl
  · rename_i hn
    split
    · rename_i e
      subst e
      unfold restoredSlot
      split
      · rename_i m n ha hb
        exact absurd hb (hn m n ha)
      · rfl
    · rfl

theorem stand_restoreSlot (f : Face) : (a.restoreSlot f b).stand = b.stand := by
  unfold restoreSlot
  split <;> rfl

theorem enabled_restoreSlot (f : Face) : (a.restoreSlot f b).enabled = b.enabled := by
  unfold restoreSlot
  split <;> rfl

/-- The devices after all faces were restored. -/
theorem foldl_restoreSlot {faces : List Face} (hl : faces.Nodup) :
    (faces.foldl (fun b f => a.restoreSlot f b) b).stand = b.stand ∧
    (faces.foldl (fun b f => a.restoreSlot f b) b).enabled = b.enabled ∧
    ∀ g, (faces.foldl (fun b f => a.restoreSlot f b) b).slots.get g =
      if g ∈ faces then restoredSlot (a.slots.get g) (b.slots.get g) else b.slots.get g := by
  induction faces generalizing b with
  | nil => exact ⟨rfl, rfl, fun g => by simp⟩
  | cons f faces ih =>
    obtain ⟨hf, hl⟩ := List.nodup_cons.mp hl
    obtain ⟨hs, he, hg⟩ := ih (b := a.restoreSlot f b) hl
    refine ⟨hs.trans (stand_restoreSlot f), he.trans (enabled_restoreSlot f), fun g => ?_⟩
    rw [List.foldl_cons, hg, slots_restoreSlot]
    by_cases e : g = f
    · subst e
      simp [hf]
    · simp [e]

end Casing

theorem Pipes.pipe_setPipe (ps : Pipes) (s t : Socket) (p : Pipe) :
    (ps.setPipe s p).pipe t = if t = s then p else ps.pipe t := by
  obtain ⟨f, q⟩ := s
  obtain ⟨g, r⟩ := t
  simp only [setPipe, pipe, PerFace.get_set, Socket.mk.injEq]
  by_cases hf : g = f
  · subst hf
    rw [if_pos rfl, PerPort.get_set]
    by_cases hq : r = q
    · rw [if_pos hq, if_pos ⟨rfl, hq⟩]
    · rw [if_neg hq, if_neg fun h => hq h.2]
  · rw [if_neg hf, if_neg fun h => hf h.1]

namespace Casing

variable {a b : Casing}

/-- The casing after some pipes were restored. -/
theorem foldl_setPipe (sockets : List Socket) :
    sockets.foldl (fun c s => { c with pipes := c.pipes.setPipe s (a.pipes.pipe s) }) b =
      { b with pipes := Pipes.ofFn fun s =>
          if s ∈ sockets then a.pipes.pipe s else b.pipes.pipe s } := by
  induction sockets generalizing b with
  | nil =>
    obtain ⟨stand, enabled, slots, pipes⟩ := b
    refine congrArg (Casing.mk stand enabled slots) (Pipes.ext_pipe fun s => ?_)
    simp
  | cons t sockets ih =>
    rw [List.foldl_cons, ih]
    refine congrArg (Casing.mk b.stand b.enabled b.slots) (Pipes.ext_pipe fun s => ?_)
    simp only [Pipes.pipe_ofFn, Pipes.pipe_setPipe, List.mem_cons]
    by_cases e : s = t
    · subst e
      simp
    · simp [e]

theorem mem_sockets (s : Socket) : s ∈ sockets := by
  obtain ⟨f, p⟩ := s
  cases f <;> cases p <;> decide

/-- The casing after it was restored from a snapshot of `a`. -/
def restored (a b : Casing) : Casing :=
  { b with
    slots := PerFace.ofFn fun f => restoredSlot (a.slots.get f) (b.slots.get f)
    pipes := a.pipes }

/-- The casing after all faces were restored, but for its pipes. -/
theorem foldl_restoreSlot_all (a b : Casing) :
    (Face.all.foldl (fun b f => a.restoreSlot f b) b).stand = b.stand ∧
    (Face.all.foldl (fun b f => a.restoreSlot f b) b).enabled = b.enabled ∧
    (Face.all.foldl (fun b f => a.restoreSlot f b) b).slots = (a.restored b).slots := by
  obtain ⟨hs, he, hslots⟩ := foldl_restoreSlot (a := a) (b := b) (show Face.all.Nodup by decide)
  refine ⟨hs, he, PerFace.ext_get fun f => ?_⟩
  rw [hslots, if_pos (Face.mem_all f), restored, PerFace.get_ofFn]

/-- All faces are restored, and then all pipes. -/
theorem foldl_restore (a b : Casing) :
    sockets.foldl (fun c s => { c with pipes := c.pipes.setPipe s (a.pipes.pipe s) })
      (Face.all.foldl (fun b f => a.restoreSlot f b) b) = a.restored b := by
  obtain ⟨hs, he, hslots⟩ := foldl_restoreSlot_all a b
  have hpipes : (Pipes.ofFn fun s => if s ∈ sockets then a.pipes.pipe s else
      (Face.all.foldl (fun b f => a.restoreSlot f b) b).pipes.pipe s) = a.pipes := by
    refine Pipes.ext_pipe fun s => ?_
    rw [Pipes.pipe_ofFn, if_pos (mem_sockets s)]
  rw [foldl_setPipe, hpipes, hs, he, hslots]
  rfl

/-- All of a snapshot is read, and what follows it is left. -/
theorem restore_save_append (ha : a.Portable) (b : Casing) (rest : Bytes) :
    ∃ k, restore (b, Cursor.start (a.save ++ rest)) = restoreEnd (a.restored b, ⟨rest, k⟩) := by
  have hfaces := takes_forM (takes_restoreFace ha) Face.all b
  have hpipes := takes_forM (fun s => takes_restorePipe s (a.pipes.pipe s)) sockets
    (Face.all.foldl (fun b f => a.restoreSlot f b) b) rest
  simp only [foldl_restore] at hpipes
  have hsave : a.save ++ rest = [snapshotVersion] ++
      (Face.all.flatMap (fun f => encodeSlot (a.slots.get f)) ++
        (sockets.flatMap (fun s => (a.pipes.pipe s).encode) ++ rest)) := by
    simp only [save, List.cons_append, List.nil_append, List.append_assoc]
  rw [hsave]
  exact ⟨_, (Outcome.bind_ok (takes_restoreVersion b _ 0)).trans
    ((Outcome.bind_ok (hfaces _ _)).trans (Outcome.bind_ok (hpipes _)))⟩

/-- A snapshot of a casing of nodes can be loaded into any casing. -/
theorem load_save (ha : a.Portable) (b : Casing) : load a.save b = .ok () (a.restored b) := by
  obtain ⟨k, hk⟩ := restore_save_append ha b []
  rw [List.append_nil] at hk
  rw [load, Restore.ofBytes, hk]
  rfl

end Casing

end NodeCube
