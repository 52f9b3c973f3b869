import NodeCube.Proofs.Casing.Replica
import NodeCube.Proofs.Snapshot.Told

/-!
# Bytes that can be loaded

A casing may load bytes that no casing ever saved: with other presence bytes than 0 and 1, unused
bits among the flags, a program counter beyond the program, sources that are refused, or more bytes
in a part than it needs. If they hold a part for each device, what they leave in a casing of nodes
depends on them alone, and is a state that `save` writes and `load` reads back. So the snapshot of
any casing that loaded them is their normal form (`Casing.load_normalizes`).
-/

namespace NodeCube

open Snapshot

/-! ## Nodes -/

namespace Node

/-- What a node is once it was restored. -/
structure Regular (n : Node) : Prop where
  portable : n.Portable
  compiled : n.Compiled
  explained : n.Explained

theorem restored_restored (m n k : Node) : (m.restored n).restored k = m.restored k := rfl

theorem Portable.regular_restored {m : Node} (h : m.Portable) (n : Node) :
    (m.restored n).Regular where
  portable :=
    { source := by
        have hsource := h.source
        rw [length_encode] at hsource ⊢
        exact hsource
      pc_nonneg := h.pc_nonneg
      pc_lt := h.pc_lt }
  compiled := n.compiled_assemble m.source
  explained := n.explained_assemble m.source

/-- What bytes tell of a node, if they tell enough: they are as good as those of some node, which
takes no more of them. -/
theorem told_restore : Restore.Told (restore true) fun g used => ∃ m : Node,
    used = m.encode.length ∧ (0 ≤ m.machine.registers.pc ∧ m.machine.registers.pc < 65536) ∧
      ∀ n ports, g (n, ports) = (m.restored n, ports.cancelRequests) := by
  refine .bind_read Reader.uses_block fun source => .bind_update (.part ?_)
  refine Registers.told_restore.mono ?_
  rintro g used ⟨rfl, r, hpc, hg⟩
  refine ⟨(ofSource source).withRegisters r, ?_, hpc, fun n ports => ?_⟩
  · rw [length_encode]
    show 4 + source.length + 11 = source.length + 15
    omega
  · simp only [Function.comp_apply, hg]
    rfl

end Node

namespace Casing

variable {b b' d : Casing} {c c' : Cursor} {f : Face} {part x : Bytes}

/-! ## Parts -/

/-- A part that can be restored on one face with a node can be restored on any, and gives the same
there but for whether the node runs. -/
theorem restorePart_of_ok (hpart : part.length < UInt32.size)
    (hn : ∀ e, b.slots.get f = some e → e.kind = .node) (h : restorePart f part b = .ok () b') :
    (∀ e, b'.slots.get f = some e → ∃ m, e = .node m ∧ m.Regular) ∧
      ∀ d, (d.slots.get f).map Device.kind = (b.slots.get f).map Device.kind →
        restorePart f part d = .ok () (b'.restoreSlot f d) := by
  cases hb : b.slots.get f with
  | none =>
    rw [restorePart_of_none hb] at h
    cases h
    refine ⟨fun e he => (by cases hb.symm.trans he), fun d hd => ?_⟩
    rw [Option.map_none, Option.map_eq_none_iff] at hd
    rw [restorePart_of_none hd]
    simp only [restoreSlot, hb]
  | some e =>
    obtain ⟨n, rfl⟩ := Device.eq_node (hn e hb)
    rw [restorePart_of_node hb] at h
    obtain ⟨⟨⟨n', ports'⟩, c⟩, hrun, rfl⟩ := Outcome.ok_of_within h
    obtain ⟨g, used, ⟨m, rfl, hpc, hg⟩, hused, hall⟩ := Node.told_restore _ _ _ _ _ hrun
    have hm : m.Portable := by
      refine ⟨?_, hpc.1, hpc.2⟩
      have hused : part.length = m.encode.length + c.rest.length := hused
      omega
    have hrun' := hall (n, b.pipes.ports f)
    rw [hrun, hg] at hrun'
    cases hrun'
    have hslot : (b.place f (.node (m.restored n)) (b.pipes.ports f).cancelRequests).slots.get f =
        some (.node (m.restored n)) := PerFace.get_set_self _ _ _
    refine ⟨fun e he => ?_, fun d hd => ?_⟩
    · cases hslot.symm.trans he
      exact ⟨_, rfl, hm.regular_restored n⟩
    · obtain ⟨x, hx, hkind⟩ := Option.map_eq_some_iff.mp hd
      obtain ⟨k, rfl⟩ := Device.eq_node hkind
      rw [restorePart_of_node hx, hall, hg, Outcome.within_ok]
      simp only [restoreSlot, hslot, hx, Node.restored_restored]

/-! ## Faces -/

/-- The presence bytes of some faces, as far as they are there. A block follows each that is not
zero. -/
def presences : List Face → Cursor → List (Face × UInt8)
  | [], _ => []
  | f :: faces, c =>
    match Reader.byte c with
    | .error _ _ => []
    | .ok present c =>
      (f, present) ::
        if present = 0 then presences faces c
        else match Reader.block c with
          | .error _ _ => []
          | .ok _ c => presences faces c

/-- The bytes have a part for each device of the casing: its presence byte, if it is there at all,
is not zero. -/
def Covers (b : Casing) (faces : List Face) (c : Cursor) : Prop :=
  ∀ f present, (f, present) ∈ presences faces c → (b.slots.get f).isSome = true → present ≠ 0

/-- Both casings have devices of the same kinds. -/
def SameKinds (b d : Casing) : Prop :=
  ∀ f, (d.slots.get f).map Device.kind = (b.slots.get f).map Device.kind

/-- A face is restored from a block if its presence byte says so. -/
theorem restoreFace_ok_iff : restoreFace f (b, c) = .ok () (b', c') ↔
    ∃ present c₁, Reader.byte c = .ok present c₁ ∧
      (present = 0 ∧ b' = b ∧ c' = c₁ ∨
        present ≠ 0 ∧ ∃ part,
          Reader.block c₁ = .ok part c' ∧ restorePart f part b = .ok () b') := by
  constructor
  · intro h
    obtain ⟨present, ⟨b₁, c₁⟩, hread, hrest⟩ := Outcome.ok_of_bind h
    obtain ⟨hbyte, rfl⟩ := Restore.read_ok hread
    refine ⟨present, c₁, hbyte, ?_⟩
    split at hrest
    · rename_i hp
      cases hrest
      exact .inl ⟨hp, rfl, rfl⟩
    · rename_i hp
      obtain ⟨part, ⟨b₂, c₂⟩, hread, hact⟩ := Outcome.ok_of_bind hrest
      obtain ⟨hblock, rfl⟩ := Restore.read_ok hread
      obtain ⟨t, ht, hb⟩ := Outcome.ok_of_within (o := restorePart f part b₂) hact
      cases hb
      exact .inr ⟨hp, part, hblock, ht⟩
  · rintro ⟨present, c₁, hbyte, hface⟩
    refine (Outcome.bind_ok (Restore.read_of_ok hbyte)).trans ?_
    rcases hface with ⟨hp, rfl, rfl⟩ | ⟨hp, part, hblock, hpart⟩
    · rw [if_pos hp]
      rfl
    · rw [if_neg hp]
      refine (Outcome.bind_ok (Restore.read_of_ok hblock)).trans ?_
      rw [Restore.act, hpart, Outcome.within_ok]

theorem Covers.cons_iff {faces : List Face} {present : UInt8} {c₁ : Cursor}
    (hbyte : Reader.byte c = .ok present c₁)
    (hnext : present = 0 ∧ c' = c₁ ∨ present ≠ 0 ∧ ∃ part, Reader.block c₁ = .ok part c') :
    b.Covers (f :: faces) c ↔
      ((b.slots.get f).isSome = true → present ≠ 0) ∧ b.Covers faces c' := by
  have hlist : presences (f :: faces) c = (f, present) :: presences faces c' := by
    rw [presences, hbyte]
    rcases hnext with ⟨hp, rfl⟩ | ⟨hp, part, hblock⟩
    · dsimp only
      rw [if_pos hp]
    · dsimp only
      rw [if_neg hp, hblock]
  simp only [Covers, hlist, List.mem_cons, Prod.mk.injEq]
  constructor
  · exact fun h => ⟨h f present (.inl ⟨rfl, rfl⟩), fun g x hx => h g x (.inr hx)⟩
  · rintro ⟨hf, hrest⟩ g x (⟨rfl, rfl⟩ | hx)
    · exact hf
    · exact hrest g x hx

/-- If a face can be restored, it can be restored in every casing that has the same there, and gets
the same. -/
theorem restoreFace_of_ok {faces : List Face} (hn : ∀ e, b.slots.get f = some e → e.kind = .node)
    (hc : b.Covers (f :: faces) c) (h : restoreFace f (b, c) = .ok () (b', c')) :
    (∀ e, b'.slots.get f = some e → ∃ m, e = .node m ∧ m.Regular) ∧ b.Covers faces c' ∧
      ∀ d, (d.slots.get f).map Device.kind = (b.slots.get f).map Device.kind →
        restoreFace f (d, c) = .ok () (b'.restoreSlot f d, c') := by
  obtain ⟨present, c₁, hbyte, ⟨hp, rfl, rfl⟩ | ⟨hp, part, hblock, hpart⟩⟩ := restoreFace_ok_iff.mp h
  · obtain ⟨hf, hrest⟩ := (Covers.cons_iff hbyte (.inl ⟨hp, rfl⟩)).mp hc
    -- only an empty face has no part
    have hempty : b'.slots.get f = none := by
      cases hs : b'.slots.get f with
      | none => rfl
      | some e => exact absurd hp (hf (by rw [hs]; rfl))
    refine ⟨fun e he => (by cases hempty.symm.trans he), hrest, fun d hd => ?_⟩
    refine restoreFace_ok_iff.mpr ⟨present, c', hbyte, .inl ⟨hp, ?_, rfl⟩⟩
    simp only [restoreSlot, hempty]
  · obtain ⟨-, hrest⟩ := (Covers.cons_iff hbyte (.inr ⟨hp, part, hblock⟩)).mp hc
    obtain ⟨hregular, hall⟩ := restorePart_of_ok (Reader.block_lt hblock) hn hpart
    exact ⟨hregular, hrest, fun d hd =>
      restoreFace_ok_iff.mpr ⟨present, c₁, hbyte, .inr ⟨hp, part, hblock, hall d hd⟩⟩⟩

/-! ## All faces -/

theorem SameKinds.isSome_eq (h : b.SameKinds d) (f : Face) :
    (d.slots.get f).isSome = (b.slots.get f).isSome := by
  have hf := congrArg Option.isSome (h f)
  rwa [Option.isSome_map, Option.isSome_map] at hf

theorem SameKinds.covers (h : b.SameKinds d) {faces : List Face} (hc : b.Covers faces c) :
    d.Covers faces c := by
  intro f present hf hs
  rw [h.isSome_eq f] at hs
  exact hc f present hf hs

theorem SameKinds.nodes (h : b.SameKinds d) (hn : ∀ f e, b.slots.get f = some e → e.kind = .node)
    (f : Face) (e : Device) (he : d.slots.get f = some e) : e.kind = .node := by
  have hf := h f
  rw [he, Option.map_some] at hf
  obtain ⟨x, hx, hkind⟩ := Option.map_eq_some_iff.mp hf.symm
  rw [← hkind]
  exact hn f x hx

theorem sameKinds_restoreSlot (a b : Casing) (f : Face) : b.SameKinds (a.restoreSlot f b) := by
  intro g
  rw [slots_restoreSlot]
  split
  · unfold restoredSlot
    split
    · rename_i hb
      rw [hb]
      rfl
    · rfl
  · rfl

theorem restoreSlot_congr {a a' : Casing} (h : a.slots.get f = a'.slots.get f) (b : Casing) :
    a.restoreSlot f b = a'.restoreSlot f b := by
  unfold restoreSlot
  rw [h]

/-- If some faces can be restored, they can be restored in every casing with devices of the same
kinds, and get the same. The induction is on the faces: what the first one got is not touched when
the others are restored. -/
theorem restoreFaces_of_ok {faces : List Face} (hl : faces.Nodup)
    (hn : ∀ f e, b.slots.get f = some e → e.kind = .node) (hc : b.Covers faces c)
    (h : faces.forM restoreFace (b, c) = .ok () (b', c')) :
    b.SameKinds b' ∧ (∀ f ∈ faces, ∀ e, b'.slots.get f = some e → ∃ m, e = .node m ∧ m.Regular) ∧
      ∀ d, b.SameKinds d → faces.forM restoreFace (d, c) =
        .ok () (faces.foldl (fun d f => b'.restoreSlot f d) d, c') := by
  induction faces generalizing b c with
  | nil =>
    cases h
    exact ⟨fun f => rfl, fun f hf => absurd hf List.not_mem_nil, fun d _ => rfl⟩
  | cons f faces ih =>
    obtain ⟨hf, hl⟩ := List.nodup_cons.mp hl
    obtain ⟨⟨⟩, ⟨b₁, c₁⟩, hface, hrest⟩ := Outcome.ok_of_bind h
    obtain ⟨hregular, hc₁, hall⟩ := restoreFace_of_ok (hn f) hc hface
    have hb₁ : b₁ = b₁.restoreSlot f b := by
      have hb := hface.symm.trans (hall b rfl)
      injection hb with _ hb
      exact congrArg Prod.fst hb
    have hkinds : b.SameKinds b₁ := by
      rw [hb₁]
      exact sameKinds_restoreSlot b₁ b f
    obtain ⟨hkinds', hregular', hall'⟩ := ih hl (hkinds.nodes hn) (hkinds.covers hc₁) hrest
    have hb' : b' = faces.foldl (fun d f => b'.restoreSlot f d) b₁ := by
      have hb := hrest.symm.trans (hall' b₁ fun _ => rfl)
      injection hb with _ hb
      exact congrArg Prod.fst hb
    have hslot : b'.slots.get f = b₁.slots.get f :=
      calc b'.slots.get f
          = (faces.foldl (fun d f => b'.restoreSlot f d) b₁).slots.get f :=
            congrArg (fun x : Casing => x.slots.get f) hb'
        _ = b₁.slots.get f := by rw [(foldl_restoreSlot hl).2.2, if_neg hf]
    refine ⟨fun g => (hkinds' g).trans (hkinds g), fun g hg => ?_, fun d hd => ?_⟩
    · rcases List.mem_cons.mp hg with rfl | hg
      · rw [hslot]
        exact hregular
      · exact hregular' g hg
    · have hd₁ : b₁.SameKinds (b'.restoreSlot f d) := fun g =>
        (sameKinds_restoreSlot b' d f g).trans ((hd g).trans (hkinds g).symm)
      have hhead : restoreFace f (d, c) = .ok () (b'.restoreSlot f d, c₁) := by
        rw [hall d (hd f), restoreSlot_congr hslot]
      exact (Outcome.bind_ok hhead).trans (hall' _ hd₁)

/-! ## Pipes -/

/-- All pipes that are restored are told by the bytes. -/
theorem told_restorePipes (l : List Socket) : Restore.Told (l.forM restorePipe) fun g _ =>
    ∃ h : Pipes → Pipes, (∀ c, g c = { c with pipes := h c.pipes }) ∧
      ∀ s p q, (s ∈ l ∨ p.pipe s = q.pipe s) → (h p).pipe s = (h q).pipe s := by
  induction l with
  | nil => exact .pure ⟨id, fun _ => rfl, fun s p q h => h.resolve_left List.not_mem_nil⟩
  | cons t l ih =>
    have hpipe : Restore.Told (restorePipe t) fun g _ =>
        ∃ p : Pipe, ∀ c, g c = { c with pipes := c.pipes.setPipe t p } := by
      refine .part (Pipe.told_restore.mono ?_)
      rintro g _ ⟨p, hp⟩
      exact ⟨p, fun c => by simp only [hp]⟩
    refine hpipe.bind (fun _ => ih) ?_
    rintro g₁ n₁ g₂ n₂ ⟨p, hg₁⟩ ⟨h, hg₂, hsame⟩
    refine ⟨fun ps => h (ps.setPipe t p), fun c => ?_, fun s ps qs hs => hsame s _ _ ?_⟩
    · rw [Function.comp_apply, hg₁, hg₂]
    · rw [Pipes.pipe_setPipe, Pipes.pipe_setPipe]
      by_cases e : s = t
      · exact .inr (by rw [if_pos e, if_pos e])
      · rw [if_neg e, if_neg e]
        exact hs.imp_left fun hs => (List.mem_cons.mp hs).resolve_left e

/-! ## Snapshots -/

theorem restoreVersion_ok (h : restoreVersion (b, Cursor.start x) = .ok () (b', c)) :
    b' = b ∧ c = ⟨x.drop 1, 1⟩ ∧ ∀ d, restoreVersion (d, Cursor.start x) = .ok () (d, c) := by
  obtain ⟨version, ⟨b₁, c₁⟩, hread, hrest⟩ := Outcome.ok_of_bind h
  obtain ⟨hbyte, rfl⟩ := Restore.read_ok hread
  have hc₁ : c₁ = ⟨x.drop 1, 1⟩ := by
    cases x with
    | nil => cases hbyte
    | cons y x =>
      cases hbyte
      rfl
  split at hrest
  · rename_i hv
    cases hrest
    refine ⟨rfl, hc₁, fun d => (Outcome.bind_ok (Restore.read_of_ok hbyte)).trans ?_⟩
    rw [if_pos hv]
    rfl
  · cases hrest

theorem restoreEnd_ok (h : restoreEnd (b, c) = .ok () (b', c')) : c.atEnd = true ∧ b' = b := by
  cases hc : c.atEnd with
  | true =>
    rw [restoreEnd, if_pos hc] at h
    cases h
    exact ⟨rfl, rfl⟩
  | false =>
    rw [restoreEnd, if_neg (by rw [hc]; decide)] at h
    cases h

theorem load_ok_iff : load x b = .ok () b' ↔
    ∃ c, restore (b, Cursor.start x) = .ok () (b', c) := by
  constructor
  · intro h
    obtain ⟨⟨t, c⟩, ht, rfl⟩ := Outcome.ok_of_within h
    exact ⟨c, ht⟩
  · rintro ⟨c, hc⟩
    rw [load, Restore.ofBytes, hc, Outcome.within_ok]

/-- What bytes leave in one casing tells what they leave in any other with devices of the same
kinds. -/
theorem load_of_ok (hn : ∀ f e, b.slots.get f = some e → e.kind = .node)
    (hc : b.Covers Face.all ⟨x.drop 1, 1⟩) (h : load x b = .ok () b') :
    b.SameKinds b' ∧ (∀ f e, b'.slots.get f = some e → ∃ m, e = .node m ∧ m.Regular) ∧
      ∀ d, b.SameKinds d → load x d = .ok () (b'.restored d) := by
  obtain ⟨c, hrun⟩ := load_ok_iff.mp h
  obtain ⟨⟨⟩, ⟨b₁, c₁⟩, hversion, hrun⟩ := Outcome.ok_of_bind hrun
  obtain ⟨rfl, rfl, hversions⟩ := restoreVersion_ok hversion
  obtain ⟨⟨⟩, ⟨b₂, c₂⟩, hfaces, hrun⟩ := Outcome.ok_of_bind hrun
  obtain ⟨hkinds, hregular, hall⟩ := restoreFaces_of_ok (by decide) hn hc hfaces
  obtain ⟨⟨⟩, ⟨b₃, c₃⟩, hpipes, hrun⟩ := Outcome.ok_of_bind hrun
  obtain ⟨g, -, ⟨told, hg, hsame⟩, -, hpipes'⟩ := told_restorePipes sockets _ _ _ _ _ hpipes
  obtain ⟨hend, rfl⟩ := restoreEnd_ok hrun
  have hb' : b' = { b₂ with pipes := told b₂.pipes } := by
    have hb := hpipes.symm.trans (hpipes' b₂)
    injection hb with _ hb
    rw [← hg]
    exact congrArg Prod.fst hb
  have htold : ∀ pipes, told pipes = told b₂.pipes := fun pipes =>
    Pipes.ext_pipe fun s => hsame s _ _ (.inl (mem_sockets s))
  subst hb'
  refine ⟨hkinds, fun f => hregular f (Face.mem_all f), fun d hd => load_ok_iff.mpr ⟨c₃, ?_⟩⟩
  refine (Outcome.bind_ok (hversions d)).trans ((Outcome.bind_ok (hall d hd)).trans
    ((Outcome.bind_ok (hpipes' _)).trans ?_))
  obtain ⟨hs, he, hslots⟩ := foldl_restoreSlot_all b₂ d
  rw [restoreEnd, if_pos hend, hg, htold, hs, he, hslots]
  rfl

/-! ## The normal form -/

theorem Twins.sameKinds (h : b.Twins d) : b.SameKinds d := h.kinds

theorem Twins.symm (h : b.Twins d) : d.Twins b where
  kinds f := (h.kinds f).symm
  nodes := h.sameKinds.nodes h.nodes

/-- Restoring a second time changes nothing. -/
theorem restored_restored (a b : Casing) : a.restored (a.restored b) = a.restored b := by
  have hslots : ∀ saved d, restoredSlot saved (restoredSlot saved d) = restoredSlot saved d := by
    intro saved d
    match saved, d with
    | none, _ | some (.meter _), _ | some (.ticker _), _ => rfl
    | some (.node _), none | some (.node _), some (.node _) => rfl
    | some (.node _), some (.meter _) | some (.node _), some (.ticker _) => rfl
  refine congrArg (Casing.mk b.stand b.enabled · a.pipes) (PerFace.ext_get fun f => ?_)
  simp only [PerFace.get_ofFn, restored, hslots]

/-- Bytes that can be loaded are as good as the snapshot of what they leave. -/
theorem load_eq_load_save (hn : ∀ f e, b.slots.get f = some e → e.kind = .node)
    (hx : b.Covers Face.all ⟨x.drop 1, 1⟩) (h : load x b = .ok () b') :
    b'.Translated ∧ b'.restored b = b' ∧ (∀ d, load b'.save d = .ok () (b'.restored d)) ∧
      ∀ d, b.SameKinds d → b'.Twins d ∧ load x d = .ok () (b'.restored d) := by
  obtain ⟨hkinds, hregular, hall⟩ := load_of_ok hn hx h
  have hportable : b'.Portable := fun f e he => by
    obtain ⟨m, rfl, hm⟩ := hregular f e he
    exact ⟨m, rfl, hm.portable⟩
  have htranslated : b'.Translated := fun f n hf => by
    obtain ⟨m, hm, hregular⟩ := hregular f _ hf
    cases hm
    exact ⟨hregular.compiled, hregular.explained⟩
  have hself := h.symm.trans (hall b fun _ => rfl)
  injection hself with _ hself
  have htwins : ∀ d, b.SameKinds d → b'.Twins d := fun d hd =>
    ⟨fun f => (hd f).trans (hkinds f).symm, hkinds.nodes hn⟩
  exact ⟨htranslated, hself.symm, load_save hportable, fun d hd => ⟨htwins d hd, hall d hd⟩⟩

/-- Whether a casing of nodes can load some bytes that have a part for each of them, and what these
leave in it, depends on the bytes alone: the same sources, programs, diagnostics, registers and
pipes in every casing with nodes on the same faces. The snapshot of any of these is a normal form of
the bytes. It is the same for all of them, none of them changes when it loads it, and in every
casing with nodes on these faces it does what the bytes do. -/
theorem load_normalizes (x : Bytes) (b₁ b₂ : Casing) (h : b₁.Twins b₂)
    (hx : b₁.Covers Face.all ⟨x.drop 1, 1⟩) :
    ((∃ b₁', load x b₁ = .ok () b₁') ↔ ∃ b₂', load x b₂ = .ok () b₂') ∧
    ∀ b₁' b₂', load x b₁ = .ok () b₁' → load x b₂ = .ok () b₂' →
      (∀ f, b₁'.slots.get f = none ∧ b₂'.slots.get f = none ∨
        ∃ m n, b₁'.slots.get f = some (.node m) ∧ b₂'.slots.get f = some (.node n) ∧
          m.source = n.source ∧ m.machine.program = n.machine.program ∧
          m.diagnostic = n.diagnostic ∧ m.machine.registers = n.machine.registers) ∧
      b₁'.pipes = b₂'.pipes ∧ b₁'.save = b₂'.save ∧
      load b₁'.save b₁' = .ok () b₁' ∧ load b₁'.save b₂' = .ok () b₂' ∧
      ∀ d, b₁.Twins d → load b₁'.save d = load x d := by
  refine ⟨⟨?_, ?_⟩, ?_⟩
  · rintro ⟨b₁', h₁⟩
    obtain ⟨-, -, -, hall⟩ := load_eq_load_save h.nodes hx h₁
    exact ⟨_, (hall b₂ h.sameKinds).2⟩
  · rintro ⟨b₂', h₂⟩
    obtain ⟨-, -, -, hall⟩ := load_eq_load_save h.symm.nodes (h.sameKinds.covers hx) h₂
    exact ⟨_, (hall b₁ h.symm.sameKinds).2⟩
  · intro b₁' b₂' h₁ h₂
    obtain ⟨ht, hself, hsave, hall⟩ := load_eq_load_save h.nodes hx h₁
    obtain ⟨htwins, hload⟩ := hall b₂ h.sameKinds
    obtain rfl : b₁'.restored b₂ = b₂' := by
      have hb := hload.symm.trans h₂
      injection hb
    have hagain : ∀ d, load b₁'.save (b₁'.restored d) = .ok () (b₁'.restored d) := fun d => by
      rw [hsave, restored_restored]
    refine ⟨fun f => ?_, rfl, (htwins.save_restored ht).symm, ?_, hagain b₂, fun d hd => ?_⟩
    · obtain ⟨hm, -, hr⟩ | ⟨m, n, hm, -, hr⟩ := htwins.restored ht f
      · exact .inl ⟨hm, hr⟩
      · exact .inr ⟨m, _, hm, hr, rfl, rfl, rfl, rfl⟩
    · have hb₁ := hagain b₁
      rwa [hself] at hb₁
    · rw [hsave, (hall d hd.sameKinds).2]

/-- Bytes that no casing saves: there is a part for an empty face, and presence bytes are neither 0
nor 1; the source is refused, and the program counter is far beyond its program; bytes follow the
registers; and no unused bit of any flags is clear. -/
def unkempt : Bytes :=
  let registers : Bytes := [200, 0, 0, 5, 0, 6, 3, 254, 9, 0, 8]
  [snapshotVersion, 7] ++ encodeBlock [1, 2] ++ [0, 2] ++
    encodeBlock (encodeBlock (ascii "FOO") ++ registers ++ [4, 5]) ++ [0, 0, 0] ++
    sockets.flatMap fun _ => [1, 249, 0, 3]

/-- Two casings with words under way at different ports load the same from bytes that neither would
save. -/
theorem load_normalizes_unkempt : Rig.midway.casing.Twins Rig.astray.casing ∧
    Rig.midway.casing.Covers Face.all ⟨unkempt.drop 1, 1⟩ ∧
    ∃ b₁ b₂, load unkempt Rig.midway.casing = .ok () b₁ ∧
      load unkempt Rig.astray.casing = .ok () b₂ ∧
      unkempt ≠ b₁.save ∧ b₁.save = b₂.save ∧ b₁.pipes = b₂.pipes ∧
      load b₁.save Rig.astray.casing = load unkempt Rig.astray.casing := by
  have hcovers : Rig.midway.casing.Covers Face.all ⟨unkempt.drop 1, 1⟩ := by
    have hall : ∀ x ∈ presences Face.all ⟨unkempt.drop 1, 1⟩,
        (Rig.midway.casing.slots.get x.1).isSome = true → x.2 ≠ 0 := by decide +kernel
    exact fun f present hf => hall (f, present) hf
  obtain ⟨hiff, hsame⟩ := load_normalizes unkempt _ _ Rig.twins_midway hcovers
  have hok : (Outcome.result (load unkempt Rig.midway.casing)).isOk = true := by decide +kernel
  have hne : unkempt ≠ (Outcome.state (load unkempt Rig.midway.casing)).save := by decide +kernel
  obtain ⟨b₁, h₁⟩ : ∃ b₁, load unkempt Rig.midway.casing = .ok () b₁ := by
    cases h : load unkempt Rig.midway.casing with
    | ok _ b => exact ⟨b, rfl⟩
    | error e b =>
      rw [h] at hok
      cases hok
  rw [h₁, Outcome.state] at hne
  obtain ⟨b₂, h₂⟩ := hiff.mp ⟨b₁, h₁⟩
  obtain ⟨-, hpipes, hsave, -, -, hnormal⟩ := hsame b₁ b₂ h₁ h₂
  exact ⟨Rig.twins_midway, hcovers, b₁, b₂, h₁, h₂, hne, hsave, hpipes, hnormal _ Rig.twins_midway⟩

end Casing

end NodeCube
