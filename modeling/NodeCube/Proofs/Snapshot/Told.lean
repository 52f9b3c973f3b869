import NodeCube.Proofs.Snapshot.Takes

/-!
# What bytes tell

A value is restored over the one that is there, but nothing of that one is left in the end.
`Restore.Told` says so of any bytes, whether they were written by `encode` or not: if they can be
restored over one value, they can be restored over any, and how it changes is told by the bytes.
Registers and pipes are told completely (`Registers.told_restore`, `Pipe.told_restore`).
-/

namespace NodeCube.Snapshot

variable {α β σ τ : Type}

/-! ## How much is read -/

/-- The reader uses as many bytes as the size of what it gives. -/
def Reader.Uses (r : Reader α) (size : α → Nat) : Prop :=
  ∀ c x c', r c = .ok x c' → c.rest.length = size x + c'.rest.length

namespace Reader

theorem uses_pure (x : α) : Uses (pure x) fun _ => 0 := by
  rintro c _ _ ⟨⟩
  exact (Nat.zero_add _).symm

theorem Uses.bind {a : Reader α} {f : α → Reader β} {n : Nat} {size : β → Nat}
    (h₁ : a.Uses fun _ => n) (h₂ : ∀ x, (f x).Uses size) :
    Uses (a >>= f) fun y => n + size y := by
  intro c y c' h
  obtain ⟨x, c₁, ha, hf⟩ := Outcome.ok_of_bind h
  have hn : c.rest.length = n + c₁.rest.length := h₁ c x c₁ ha
  have hsize := h₂ x c₁ y c' hf
  rw [hn, hsize, Nat.add_assoc]

theorem uses_byte : byte.Uses fun _ => 1 := by
  rintro ⟨rest, k⟩ x c' h
  cases rest with
  | nil => cases h
  | cons b rest =>
    cases h
    exact Nat.add_comm _ 1

theorem uses_number16 : number16.Uses fun _ => 2 := by
  rintro ⟨rest, k⟩ x c' h
  match rest, h with
  | _ :: _ :: rest, h =>
    cases h
    exact Nat.add_comm _ 2

theorem uses_word : word.Uses fun _ => 2 := uses_number16.bind fun _ => uses_pure _

theorem uses_number32 : number32.Uses fun _ => 4 :=
  uses_number16.bind fun _ => uses_number16.bind fun _ => uses_pure _

theorem take_ok {n : Nat} {c c' : Cursor} {s : Bytes} (h : take n c = .ok s c') :
    s.length = n ∧ c.rest.length = n + c'.rest.length := by
  unfold take at h
  split at h
  · cases h
  · cases h
    rename_i hn
    rw [List.length_take, List.length_drop]
    omega

theorem uses_block : block.Uses fun s => 4 + s.length := by
  refine uses_number32.bind fun n c s c' h => ?_
  obtain ⟨hs, hc⟩ := take_ok h
  rw [hs, hc]

/-- A block is never longer than its length field can tell. -/
theorem block_lt {c c' : Cursor} {s : Bytes} (h : block c = .ok s c') :
    s.length < UInt32.size := by
  obtain ⟨n, c₁, -, htake⟩ := Outcome.ok_of_bind h
  rw [(take_ok htake).1]
  exact n.toNat_lt

end Reader

/-! ## Restoring -/

/-- If restoring succeeds with some value, it does so with every value. How it changes the value and
how many bytes it uses is then such that `Q` holds. -/
def Restore.Told (a : Restore σ α) (Q : (σ → σ) → Nat → Prop) : Prop :=
  ∀ s c x s' c', a (s, c) = .ok x (s', c') →
    ∃ g used, Q g used ∧ c.rest.length = used + c'.rest.length ∧ ∀ t, a (t, c) = .ok x (g t, c')

theorem Restore.read_ok {r : Reader α} {s s' : σ} {c c' : Cursor} {x : α}
    (h : Restore.read r (s, c) = .ok x (s', c')) : r c = .ok x c' ∧ s' = s := by
  obtain ⟨c₁, hr, hc⟩ := Outcome.ok_of_within (o := r c) h
  cases hc
  exact ⟨hr, rfl⟩

theorem Restore.read_of_ok {r : Reader α} {s : σ} {c c' : Cursor} {x : α} (h : r c = .ok x c') :
    Restore.read r (s, c) = .ok x (s, c') := by rw [Restore.read, h, Outcome.within_ok]

namespace Restore.Told

variable {Q : (σ → σ) → Nat → Prop}

theorem mono {Q' : (σ → σ) → Nat → Prop} {a : Restore σ α} (h : Told a Q)
    (hq : ∀ g n, Q g n → Q' g n) : Told a Q' := by
  intro s c x s' c' hx
  obtain ⟨g, n, hg, hn, hall⟩ := h s c x s' c' hx
  exact ⟨g, n, hq g n hg, hn, hall⟩

theorem pure {x : α} (h : Q id 0) : Told (Pure.pure x) Q := by
  rintro s c _ _ _ ⟨⟩
  exact ⟨id, 0, h, (Nat.zero_add _).symm, fun _ => rfl⟩

theorem throw (e : SnapshotError) : Told (throw e : Restore σ α) Q := by
  intro s c x s' c' h
  cases h

theorem update {g : σ → σ} (h : Q g 0) : Told (Restore.update g) Q := by
  rintro s c _ _ _ ⟨⟩
  exact ⟨g, 0, h, (Nat.zero_add _).symm, fun _ => rfl⟩

theorem bind {Q₁ Q₂ : (σ → σ) → Nat → Prop} {a : Restore σ α} {f : α → Restore σ β}
    (h₁ : Told a Q₁) (h₂ : ∀ x, Told (f x) Q₂)
    (hq : ∀ g₁ n₁ g₂ n₂, Q₁ g₁ n₁ → Q₂ g₂ n₂ → Q (g₂ ∘ g₁) (n₁ + n₂)) : Told (a >>= f) Q := by
  intro s c y s' c' h
  obtain ⟨x, ⟨s₁, c₁⟩, ha, hf⟩ := Outcome.ok_of_bind h
  obtain ⟨g₁, n₁, hq₁, hn₁, hall₁⟩ := h₁ s c x s₁ c₁ ha
  obtain ⟨g₂, n₂, hq₂, hn₂, hall₂⟩ := h₂ x s₁ c₁ y s' c' hf
  refine ⟨g₂ ∘ g₁, n₁ + n₂, hq g₁ n₁ g₂ n₂ hq₁ hq₂, by omega, fun t => ?_⟩
  exact (Outcome.bind_ok (hall₁ t)).trans (hall₂ (g₁ t))

theorem bind_read {r : Reader α} {size : α → Nat} {f : α → Restore σ β} (hr : r.Uses size)
    (h : ∀ x, Told (f x) fun g n => Q g (size x + n)) : Told (Restore.read r >>= f) Q := by
  intro s c y s' c' hy
  obtain ⟨x, ⟨s₁, c₁⟩, hread, hf⟩ := Outcome.ok_of_bind hy
  obtain ⟨hx, rfl⟩ := Restore.read_ok hread
  obtain ⟨g, n, hq, hn, hall⟩ := h x s₁ c₁ y s' c' hf
  have hsize := hr c x c₁ hx
  refine ⟨g, size x + n, hq, by omega, fun t => ?_⟩
  exact (Outcome.bind_ok (Restore.read_of_ok hx)).trans (hall t)

theorem bind_update {g : σ → σ} {f : Unit → Restore σ β}
    (h : Told (f ()) fun g' n => Q (g' ∘ g) n) : Told (Restore.update g >>= f) Q := by
  intro s c y s' c' hy
  obtain ⟨g', n, hq, hn, hall⟩ := h (g s) c y s' c' hy
  exact ⟨g' ∘ g, n, hq, hn, fun t => hall (g t)⟩

theorem part {get : σ → τ} {put : τ → σ → σ} {r : Restore τ α}
    (h : Told r fun g n => Q (fun s => put (g (get s)) s) n) : Told (Restore.part get put r) Q := by
  intro s c x s' c' hx
  obtain ⟨⟨u, c₁⟩, hr, hu⟩ := Outcome.ok_of_within (o := r (get s, c)) hx
  cases hu
  obtain ⟨g, n, hq, hn, hall⟩ := h (get s) c x u c' hr
  refine ⟨_, n, hq, hn, fun t => ?_⟩
  rw [Restore.part, hall, Outcome.within_ok]

end Restore.Told

end NodeCube.Snapshot

namespace NodeCube

open Snapshot

theorem Pipe.told_restore : Restore.Told Pipe.restore fun g _ => ∃ p : Pipe, ∀ q, g q = p := by
  refine .bind_read Reader.uses_byte fun code => ?_
  cases Phase.ofCode? code with
  | none => exact .throw _
  | some phase =>
    exact .bind_update (.bind_read Reader.uses_byte fun flags => .bind_update
      (.bind_read Reader.uses_word fun value => .update
        ⟨⟨phase, flag flags 0, flag flags 1, flag flags 2, value⟩, fun _ => rfl⟩))

/-- Whatever the bytes, the program counter is one that a snapshot has room for. -/
theorem Registers.told_restore : Restore.Told Registers.restore fun g used =>
    used = 11 ∧ ∃ r : Registers, (0 ≤ r.pc ∧ r.pc < 65536) ∧ ∀ s, g s = r := by
  refine .bind_read Reader.uses_number16 fun pc => .bind_update
    (.bind_read Reader.uses_word fun acc => .bind_update (.bind_read Reader.uses_word fun bak =>
      .bind_update (.bind_read Reader.uses_byte fun code => ?_)))
  cases decodeLast? code with
  | none => exact .throw _
  | some last =>
    refine .bind_update (.bind_read Reader.uses_byte fun flags => .bind_update
      (.bind_read Reader.uses_byte fun held => .bind_read Reader.uses_word fun value =>
        .update ⟨rfl, ⟨pc.toNat, acc, bak, last, flag flags 0,
          if held = 0 then none else some value, flag flags 1⟩, ?_, fun _ => rfl⟩))
    have hpc := pc.toNat_lt
    show 0 ≤ (pc.toNat : Int) ∧ (pc.toNat : Int) < 65536
    omega

end NodeCube
