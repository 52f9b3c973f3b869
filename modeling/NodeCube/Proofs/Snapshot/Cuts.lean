import NodeCube.Proofs.Snapshot.Takes

/-!
# Reading what was cut off

`Needs` is the other half of `Takes`: whoever takes some bytes off the input needs all of them, and
if the input ends before, it is refused as truncated, at a position that it has. Where a chain of
reads is cut, those before the cut take their bytes and the one at the cut fails
(`Restore.Needs.bind`); it may be cut inside a number or a length as well as between two items.
-/

namespace NodeCube.Snapshot

variable {α β σ τ : Type}

/-- The bytes are the front of others, and not all of them. -/
def IsCut (p bytes : Bytes) : Prop := p <+: bytes ∧ p ≠ bytes

namespace IsCut

variable {p a b : Bytes}

theorem length_lt (h : IsCut p a) : p.length < a.length :=
  Nat.lt_of_le_of_ne h.1.length_le fun e => h.2 (h.1.eq_of_length e)

theorem not_nil (h : IsCut p []) : False := absurd h.length_lt (Nat.not_lt_zero _)

/-- A cut through two parts is a cut through the first or behind it. -/
theorem append (h : IsCut p (a ++ b)) : IsCut p a ∨ ∃ q, p = a ++ q ∧ IsCut q b := by
  rcases List.prefix_or_prefix_of_prefix h.1 (List.prefix_append a b) with hp | ⟨q, rfl⟩
  · by_cases e : p = a
    · subst e
      refine .inr ⟨[], (List.append_nil p).symm, List.nil_prefix, ?_⟩
      rintro rfl
      exact h.2 (List.append_nil p).symm
    · exact .inl ⟨hp, e⟩
  · refine .inr ⟨q, rfl, (List.prefix_append_right_inj a).mp h.1, ?_⟩
    rintro rfl
    exact h.2 rfl

end IsCut

/-! ## Readers -/

/-- The reader refuses less than all of `bytes`. -/
def Reader.Needs (r : Reader α) (bytes : Bytes) : Prop :=
  ∀ p k, IsCut p bytes → ∃ j c, j ≤ k + p.length ∧ r ⟨p, k⟩ = .error (.truncated j) c

namespace Reader

theorem Needs.bind {a : Reader α} {f : α → Reader β} {b₁ b₂ : Bytes} {x : α} (ht : a.Takes b₁ x)
    (h₁ : a.Needs b₁) (h₂ : (f x).Needs b₂) : Needs (a >>= f) (b₁ ++ b₂) := by
  intro p k hp
  rcases hp.append with hp | ⟨q, rfl, hq⟩
  · obtain ⟨j, c, hj, h⟩ := h₁ p k hp
    exact ⟨j, c, hj, Outcome.bind_error h⟩
  · obtain ⟨j, c, hj, h⟩ := h₂ q (k + b₁.length) hq
    refine ⟨j, c, ?_, (Outcome.bind_ok (ht q k)).trans h⟩
    rw [List.length_append]
    omega

theorem needs_byte (b : UInt8) : byte.Needs [b] := by
  intro p k hp
  obtain rfl : p = [] := List.length_eq_zero_iff.mp (Nat.lt_one_iff.mp hp.length_lt)
  exact ⟨k, _, Nat.le_refl k, rfl⟩

theorem needs_number16 (n : UInt16) : number16.Needs (encode16 n) := by
  intro p k hp
  have hlength : p.length < 2 := hp.length_lt
  match p with
  | [] | [_] => exact ⟨k, _, Nat.le_add_right k _, rfl⟩
  | _ :: _ :: _ =>
    simp only [List.length_cons] at hlength
    omega

theorem needs_pure (x : α) : Needs (pure x) [] := fun _ _ h => h.not_nil.elim

theorem needs_word (w : Word) : word.Needs (encodeWord w) := by
  have h := (needs_number16 w.toUInt16).bind (f := fun n => pure n.toInt16) (takes_number16 _)
    (needs_pure _)
  rwa [List.append_nil] at h

theorem needs_number32 (n : UInt32) : number32.Needs (encode32 n) := by
  have h₂ := fun high : UInt16 => (needs_number16 (UInt16.ofNat n.toNat)).bind
    (f := fun low => pure (UInt32.ofNat (high.toNat * 65536 + low.toNat))) (takes_number16 _)
    (needs_pure _)
  simp only [List.append_nil] at h₂
  exact (needs_number16 (UInt16.ofNat (n.toNat / 65536))).bind (takes_number16 _) (h₂ _)

theorem needs_take (s : Bytes) : (take s.length).Needs s := by
  intro p k hp
  refine ⟨k, ⟨p, k⟩, Nat.le_add_right k _, ?_⟩
  rw [take, if_pos hp.length_lt]

theorem needs_block {s : Bytes} (h : s.length < UInt32.size) : block.Needs (encodeBlock s) := by
  have hn : (UInt32.ofNat s.length).toNat = s.length := by
    rw [UInt32.toNat_ofNat']
    exact Nat.mod_eq_of_lt h
  refine (needs_number32 _).bind (takes_number32 _) ?_
  rw [hn]
  exact needs_take s

end Reader

/-! ## Restoring -/

/-- Restoring from less than all of `bytes` is refused. -/
def Restore.Needs (a : Restore σ α) (bytes : Bytes) : Prop :=
  ∀ p s k, IsCut p bytes → ∃ j y, j ≤ k + p.length ∧ a (s, ⟨p, k⟩) = .error (.truncated j) y

namespace Restore.Needs

theorem nil (a : Restore σ α) : Needs a [] := fun _ _ _ h => h.not_nil.elim

theorem read {r : Reader α} {bytes : Bytes} (h : r.Needs bytes) :
    Needs (σ := σ) (Restore.read r) bytes := by
  intro p s k hp
  obtain ⟨j, c, hj, hr⟩ := h p k hp
  refine ⟨j, (s, c), hj, ?_⟩
  rw [Restore.read, hr, Outcome.within_error]

theorem bind {a : Restore σ α} {f : α → Restore σ β} {b₁ b₂ : Bytes} {x : α} {g : σ → σ}
    (h₁ : Needs a b₁) (ht : Restore.Takes a b₁ x g) (h₂ : Needs (f x) b₂) :
    Needs (a >>= f) (b₁ ++ b₂) := by
  intro p s k hp
  rcases hp.append with hp | ⟨q, rfl, hq⟩
  · obtain ⟨j, y, hj, h⟩ := h₁ p s k hp
    exact ⟨j, y, hj, Outcome.bind_error h⟩
  · obtain ⟨j, y, hj, h⟩ := h₂ q (g s) (k + b₁.length) hq
    refine ⟨j, y, ?_, (Outcome.bind_ok (ht s q k)).trans h⟩
    rw [List.length_append]
    omega

theorem bind_read {r : Reader α} {f : α → Restore σ β} {a b : Bytes} {x : α} (h₁ : r.Needs a)
    (ht : r.Takes a x) (h₂ : Needs (f x) b) : Needs (Restore.read r >>= f) (a ++ b) :=
  (read h₁).bind (.read ht) h₂

theorem bind_update {g : σ → σ} {f : Unit → Restore σ β} {b : Bytes} (h : Needs (f ()) b) :
    Needs (Restore.update g >>= f) b := (nil (Restore.update g)).bind (.update g) h

theorem part {get : σ → τ} {put : τ → σ → σ} {r : Restore τ α} {bytes : Bytes} (h : Needs r bytes) :
    Needs (Restore.part get put r) bytes := by
  intro p s k hp
  obtain ⟨j, y, hj, hr⟩ := h p (get s) k hp
  refine ⟨j, (put y.1 s, y.2), hj, ?_⟩
  rw [Restore.part, hr]
  rfl

/-- A round of restorations needs the bytes of all of them. -/
theorem forM {ι : Type} {act : ι → Restore σ PUnit} {bytes : ι → Bytes} {g : ι → σ → σ}
    (h : ∀ i, Needs (act i) (bytes i)) (ht : ∀ i, Restore.Takes (act i) (bytes i) () (g i))
    (l : List ι) : Needs (l.forM act) (l.flatMap bytes) := by
  induction l with
  | nil => exact nil _
  | cons i l ih => exact (h i).bind (f := fun _ => l.forM act) (ht i) ih

end Restore.Needs

end NodeCube.Snapshot

namespace NodeCube

open Snapshot

theorem Pipe.needs_restore (p : Pipe) : Restore.Needs Pipe.restore p.encode := by
  have hflags := Reader.takes_byte (encodeFlags [p.writing, p.reading, p.taken])
  refine Restore.Needs.bind_read (b := [encodeFlags [p.writing, p.reading, p.taken]] ++
    (encodeWord p.value ++ [])) (Reader.needs_byte _) (Reader.takes_byte p.phase.code) ?_
  rw [Phase.ofCode?_code]
  exact .bind_update (.bind_read (Reader.needs_byte _) hflags (.bind_update
    (.bind_read (Reader.needs_word p.value) (Reader.takes_word p.value) (.nil _))))

end NodeCube
