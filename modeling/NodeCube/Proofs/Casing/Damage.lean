import NodeCube.Proofs.Casing.Replica
import NodeCube.Proofs.Snapshot.Cuts

/-!
# Damaged snapshots

A snapshot that lost its end, or has something behind it, is refused by every casing
(`Rig.damaged_snapshot_refused`). Restoring needs all bytes of a snapshot, part by part
(`Casing.needs_restore`): wherever it is cut, the parts before the cut are read as in the whole
snapshot, and the one at the cut ends too early. Parts for empty faces are no exception, because
they are read over and not skipped by their length alone.
-/

namespace NodeCube

open Snapshot

namespace Casing

variable {a : Casing}

theorem needs_restoreVersion : Restore.Needs restoreVersion [snapshotVersion] :=
  .bind_read (b := []) (Reader.needs_byte snapshotVersion) (Reader.takes_byte snapshotVersion)
    (.nil _)

theorem needs_restoreFace (ha : a.Portable) (f : Face) :
    Restore.Needs (restoreFace f) (encodeSlot (a.slots.get f)) := by
  cases hs : a.slots.get f with
  | none => exact .bind_read (b := []) (Reader.needs_byte 0) (Reader.takes_byte 0) (.nil _)
  | some d =>
    obtain ⟨m, rfl, hm⟩ := ha f d hs
    have hslot : encodeSlot (some (.node m)) = [1] ++ (encodeBlock m.encode ++ []) := by
      rw [List.append_nil]
      rfl
    rw [hslot]
    refine .bind_read (Reader.needs_byte 1) (Reader.takes_byte 1) ?_
    rw [if_neg (by decide)]
    exact .bind_read (Reader.needs_block hm.source) (Reader.takes_block hm.source) (.nil _)

theorem needs_restorePipe (s : Socket) (p : Pipe) : Restore.Needs (restorePipe s) p.encode :=
  .part p.needs_restore

/-- Restoring needs every byte of a snapshot. -/
theorem needs_restore (ha : a.Portable) : Restore.Needs restore a.save := by
  have hfaces := Restore.Needs.forM (needs_restoreFace ha) (takes_restoreFace ha) Face.all
  have hpipes := Restore.Needs.forM (fun s => needs_restorePipe s (a.pipes.pipe s))
    (fun s => takes_restorePipe s (a.pipes.pipe s)) sockets
  have hsave : a.save = [snapshotVersion] ++
      (Face.all.flatMap (fun f => encodeSlot (a.slots.get f)) ++
        (sockets.flatMap (fun s => (a.pipes.pipe s).encode) ++ [])) := by
    rw [save, List.append_nil]
    rfl
  rw [hsave]
  exact needs_restoreVersion.bind takes_restoreVersion
    (hfaces.bind (takes_forM (takes_restoreFace ha) Face.all)
      (hpipes.bind (takes_forM (fun s => takes_restorePipe s (a.pipes.pipe s)) sockets) (.nil _)))

theorem load_cut (ha : a.Portable) {p : Bytes} (hp : IsCut p a.save) (b : Casing) :
    ∃ k, k ≤ p.length ∧ Outcome.result (load p b) = .error (.truncated k) := by
  obtain ⟨k, y, hk, hr⟩ := needs_restore ha p b 0 hp
  refine ⟨k, by omega, ?_⟩
  rw [load, Restore.ofBytes, Outcome.result_within, Cursor.start, hr]
  rfl

theorem load_append (ha : a.Portable) {rest : Bytes} (hr : rest ≠ []) (b : Casing) :
    Outcome.result (load (a.save ++ rest) b) = .error .trailingBytes := by
  obtain ⟨k, hk⟩ := restore_save_append ha b rest
  have hend : ¬ (Cursor.mk rest k).atEnd = true := by simpa [Cursor.atEnd] using hr
  rw [load, Restore.ofBytes, Outcome.result_within, hk, restoreEnd, if_neg hend]
  rfl

/-- The length of a source is kept modulo 2^32, as that of its part is. With a source of 2^32 zero
bytes on the first face, both seem to be those of an empty source, and zero bytes follow. -/
theorem exists_save_zeros {m : Node} {k : Nat} (ha : a.slots.get .yNeg = some (.node m))
    (hm : m.source = List.replicate k 0) (hk : k = UInt32.size) :
    ∃ rest, a.save = ([1, 1, 0, 0, 0, 15] ++ List.replicate 116 0) ++
      (List.replicate (k - 112) 0 ++ rest) := by
  obtain ⟨rest, hsave⟩ := exists_save_eq ha
  refine ⟨m.machine.registers.encode ++ rest, ?_⟩
  have hlength : m.source.length = k := by rw [hm, List.length_replicate]
  have hfront : encode32 (UInt32.ofNat (k + 15)) = [0, 0, 0, 15] := by
    rw [hk]
    decide
  have hempty : encode32 (UInt32.ofNat k) = List.replicate 4 0 := by
    rw [hk]
    decide
  have hzeros : List.replicate 4 (0 : UInt8) ++ List.replicate k 0 =
      List.replicate 116 0 ++ List.replicate (k - 112) 0 := by
    have hsize : 112 ≤ k := by
      rw [hk]
      decide
    rw [List.replicate_append_replicate, List.replicate_append_replicate]
    congr 1
    omega
  rw [hsave, hlength, hfront, Node.encode, encodeBlock, hlength, hempty, hm, hzeros]
  simp only [List.append_assoc, List.cons_append, List.nil_append]

end Casing

namespace Rig

/-- No casing loads a snapshot of wrong length. In every history of a casing of nodes (whose parts
of a snapshot have a length that fits its 32 bits), a snapshot that was cut anywhere is refused as
truncated, at a position within what is left of it, and one with anything behind it is refused for
its trailing bytes. -/
theorem damaged_snapshot_refused (stand : Stand) (acts : List Act)
    (hn : ∀ f d, ((new stand).run acts).casing.slots.get f = some d → d.kind = .node)
    (hl : ∀ f n, ((new stand).run acts).casing.slots.get f = some (.node n) →
      n.source.length + 15 < UInt32.size) (b : Casing) :
    let saved := ((new stand).run acts).casing.save
    (∀ p, p <+: saved → p ≠ saved →
      ∃ k, k ≤ p.length ∧ Outcome.result (Casing.load p b) = .error (.truncated k)) ∧
    (∀ rest, rest ≠ [] →
      Outcome.result (Casing.load (saved ++ rest) b) = .error .trailingBytes) := by
  intro saved
  have ha := portable_of_nodes stand acts hn hl
  exact ⟨fun p hp hne => Casing.load_cut ha ⟨hp, hne⟩ b,
    fun rest hr => Casing.load_append ha hr b⟩

/-- A snapshot that was cut in the middle of the length of a part, and one with a byte behind it. -/
theorem damaged_snapshot_refused_midway :
    let saved := midway.casing.save
    saved.take 6 <+: saved ∧ saved.take 6 ≠ saved ∧
      (∃ k, k ≤ (saved.take 6).length ∧
        Outcome.result (Casing.load (saved.take 6) astray.casing) = .error (.truncated k)) ∧
      Outcome.result (Casing.load (saved ++ [0]) astray.casing) = .error .trailingBytes := by
  intro saved
  have h := damaged_snapshot_refused .first (handOver .first .right)
  rw [run_handOver] at h
  obtain ⟨hcut, hlonger⟩ := h twins_midway.nodes compact_midway.source_lt astray.casing
  have hp : saved.take 6 <+: saved := List.take_prefix 6 saved
  have hne : saved.take 6 ≠ saved := by decide +kernel
  exact ⟨hp, hne, hcut _ hp hne, hlonger [0] (by decide)⟩

/-- A snapshot of 122 bytes, in which the first face has a node without a source. -/
def zeros : Bytes := [1, 1, 0, 0, 0, 15] ++ List.replicate 116 0

theorem isCut_zeros {k : Nat} (hk : k = UInt32.size) :
    IsCut zeros ((new .first).run (alone .first (List.replicate k 0))).casing.save := by
  obtain ⟨rest, hsave⟩ :=
    Casing.exists_save_zeros (slots_alone .first (List.replicate k 0) .yNeg) rfl hk
  rw [hsave]
  refine ⟨List.prefix_append _ _, fun h => ?_⟩
  have hnil : List.replicate (k - 112) (0 : UInt8) ++ rest = [] := List.self_eq_append_right.mp h
  have hnone : k - 112 = 0 := List.replicate_eq_nil_iff _ |>.mp (List.append_eq_nil_iff.mp hnil).1
  rw [hk] at hnone
  exact absurd hnone (by decide)

theorem load_zeros :
    Outcome.result (Casing.load zeros ((new .second).run (alone .second [])).casing) = .ok () := by
  have hok : (Outcome.result
      (Casing.load zeros ((new .second).run (alone .second [])).casing)).isOk = true := by
    decide +kernel
  revert hok
  cases Outcome.result (Casing.load zeros ((new .second).run (alone .second [])).casing) with
  | ok u => exact fun _ => rfl
  | error e => exact fun h => Bool.noConfusion h

/-- A snapshot of a node whose source has 2^32 zero bytes, cut behind its 122nd byte, is loaded. -/
theorem cut_snapshot_loaded :
    let saved := ((new .first).run (alone .first (List.replicate 4294967296 0))).casing.save
    let b := ((new .second).run (alone .second [])).casing
    zeros <+: saved ∧ zeros ≠ saved ∧ Outcome.result (Casing.load zeros b) = .ok () := by
  have hcut := isCut_zeros (k := 4294967296) rfl
  exact ⟨hcut.1, hcut.2, load_zeros⟩

end Rig

end NodeCube
