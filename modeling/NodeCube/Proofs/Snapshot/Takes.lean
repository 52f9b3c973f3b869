import NodeCube.Pipe.Snapshot
import NodeCube.Registers.Snapshot

/-!
# Reading back what was written

`Takes` says that a reader finds an item at the front of the input, whatever follows: each writer
has the reader that takes exactly its bytes. Restoring is a chain of reads and updates, and so is
the proof that it restores what was encoded.
-/

namespace NodeCube.Snapshot

variable {α β σ τ : Type}

/-- The reader takes `bytes` off the front of the input and gives `x`. -/
def Reader.Takes (r : Reader α) (bytes : Bytes) (x : α) : Prop :=
  ∀ rest k, r ⟨bytes ++ rest, k⟩ = .ok x ⟨rest, k + bytes.length⟩

namespace Reader

theorem takes_byte (b : UInt8) : byte.Takes [b] b := fun _ _ => rfl

theorem takes_number16 (n : UInt16) : number16.Takes (encode16 n) n := by
  intro rest k
  have hn := n.toNat_lt
  have : UInt16.ofNat ((UInt8.ofNat (n.toNat / 256)).toNat * 256 + (UInt8.ofNat n.toNat).toNat) =
      n := by
    apply UInt16.toNat_inj.mp
    rw [UInt16.toNat_ofNat', UInt8.toNat_ofNat', UInt8.toNat_ofNat']
    omega
  simp only [number16, encode16, List.cons_append, List.nil_append, this, List.length_cons,
    List.length_nil]

theorem Takes.bind {a : Reader α} {f : α → Reader β} {b₁ b₂ : Bytes} {x : α} {y : β}
    (h₁ : a.Takes b₁ x) (h₂ : (f x).Takes b₂ y) : Takes (a >>= f) (b₁ ++ b₂) y := by
  intro rest k
  rw [List.append_assoc]
  refine (Outcome.bind_ok (h₁ _ k)).trans ((h₂ rest _).trans ?_)
  rw [List.length_append, Nat.add_assoc]

theorem takes_word (w : Word) : word.Takes (encodeWord w) w := by
  intro rest k
  exact (Outcome.bind_ok (takes_number16 w.toUInt16 rest k)).trans rfl

theorem takes_number32 (n : UInt32) : number32.Takes (encode32 n) n := by
  intro rest k
  have hn := n.toNat_lt
  have : UInt32.ofNat ((UInt16.ofNat (n.toNat / 65536)).toNat * 65536 +
      (UInt16.ofNat n.toNat).toNat) = n := by
    apply UInt32.toNat_inj.mp
    rw [UInt32.toNat_ofNat', UInt16.toNat_ofNat', UInt16.toNat_ofNat']
    omega
  rw [encode32, List.append_assoc]
  refine (Outcome.bind_ok (takes_number16 _ _ k)).trans ?_
  refine (Outcome.bind_ok (takes_number16 _ rest _)).trans ?_
  exact Outcome.ok_congr this rfl

theorem takes_take (s : Bytes) : (take s.length).Takes s s := by
  intro rest k
  have hl : ¬ (s ++ rest).length < s.length := by rw [List.length_append]; omega
  simp only [take, hl, if_false, List.take_left', List.drop_left']

/-- A block comes back if its length fits its 32 bits. -/
theorem takes_block {s : Bytes} (h : s.length < UInt32.size) : block.Takes (encodeBlock s) s := by
  have hn : (UInt32.ofNat s.length).toNat = s.length := by
    rw [UInt32.toNat_ofNat']
    exact Nat.mod_eq_of_lt h
  refine (takes_number32 _).bind ?_
  rw [hn]
  exact takes_take s

end Reader

/-! ## Flags -/

theorem toNat_encodeFlags (b : Bool) {flags : List Bool} (h : flags.length < 8) :
    (encodeFlags flags).toNat < Nat.pow 2 flags.length ∧
      (encodeFlags (b :: flags)).toNat = b.toNat + 2 * (encodeFlags flags).toNat := by
  have hlt : (encodeFlags flags).toNat < Nat.pow 2 flags.length := by
    cases flags with
    | nil => decide
    | cons c flags =>
      obtain ⟨hlt, heq⟩ := toNat_encodeFlags c (Nat.lt_of_succ_lt h)
      have := c.toNat_lt
      show _ < Nat.pow 2 flags.length * 2
      omega
  refine ⟨hlt, ?_⟩
  have hpow : Nat.pow 2 flags.length ≤ 128 :=
    Nat.pow_le_pow_right (show 0 < 2 by decide) (Nat.le_of_lt_succ h)
  rw [encodeFlags, UInt8.toNat_add, UInt8.toNat_mul]
  cases b
  · show (0 + 2 * (encodeFlags flags).toNat % 256) % 256 = 0 + _
    omega
  · show (1 + 2 * (encodeFlags flags).toNat % 256) % 256 = 1 + _
    omega

/-- Eight flags fit a byte. -/
theorem flag_encodeFlags {flags : List Bool} (h : flags.length ≤ 8) (i : Nat) :
    flag (encodeFlags flags) i = flags.getD i false := by
  induction flags generalizing i with
  | nil => exact Nat.zero_testBit i
  | cons b flags ih =>
    have heq := (toNat_encodeFlags b (Nat.lt_of_succ_le h)).2
    unfold flag
    rw [heq]
    cases i with
    | zero =>
      rw [Nat.testBit_zero]
      cases b <;> simp
    | succ i =>
      have hdiv : (b.toNat + 2 * (encodeFlags flags).toNat) / 2 = (encodeFlags flags).toNat := by
        have := b.toNat_lt
        omega
      rw [Nat.testBit_succ, hdiv]
      exact ih (Nat.le_of_lt h) i

/-- Restoring takes `bytes` off the front of the input, gives `x` and changes the value by `g`. -/
def Restore.Takes (a : Restore σ α) (bytes : Bytes) (x : α) (g : σ → σ) : Prop :=
  ∀ s rest k, a (s, ⟨bytes ++ rest, k⟩) = .ok x (g s, ⟨rest, k + bytes.length⟩)

namespace Restore.Takes

theorem pure (x : α) : Takes (σ := σ) (pure x) [] x id := fun _ _ _ => rfl

theorem update (g : σ → σ) : Takes (Restore.update g) [] () g := fun _ _ _ => rfl

theorem read {r : Reader α} {bytes : Bytes} {x : α} (h : r.Takes bytes x) :
    Takes (σ := σ) (Restore.read r) bytes x id := fun s rest k => by
  simp only [Restore.read, h rest k, Outcome.within_ok, id]

theorem bind {a : Restore σ α} {f : α → Restore σ β} {b₁ b₂ : Bytes} {x : α} {y : β}
    {g₁ g₂ : σ → σ} (h₁ : Takes a b₁ x g₁) (h₂ : Takes (f x) b₂ y g₂) :
    Takes (a >>= f) (b₁ ++ b₂) y (g₂ ∘ g₁) := by
  intro s rest k
  rw [List.append_assoc]
  refine (Outcome.bind_ok (h₁ s _ k)).trans ((h₂ _ rest _).trans ?_)
  rw [List.length_append, Nat.add_assoc]
  rfl

theorem bind_read {r : Reader α} {f : α → Restore σ β} {a b : Bytes} {x : α} {y : β} {g : σ → σ}
    (h₁ : r.Takes a x) (h₂ : Takes (f x) b y g) : Takes (Restore.read r >>= f) (a ++ b) y g :=
  (read h₁).bind h₂

theorem bind_update {g₁ g₂ : σ → σ} {f : Unit → Restore σ β} {b : Bytes} {y : β}
    (h : Takes (f ()) b y g₂) : Takes (Restore.update g₁ >>= f) b y (g₂ ∘ g₁) :=
  (update g₁).bind h

/-- Restoring a part of a value. -/
theorem part {get : σ → τ} {put : τ → σ → σ} {r : Restore τ α} {bytes : Bytes} {x : α} {g : τ → τ}
    (h : Takes r bytes x g) :
    Takes (Restore.part get put r) bytes x fun s => put (g (get s)) s := fun s rest k => by
  simp only [Restore.part, h _ rest k, Outcome.within_ok]

theorem congr {a : Restore σ α} {b b' : Bytes} {x : α} {g g' : σ → σ} (h : Takes a b x g)
    (hb : b = b') (hg : ∀ s, g s = g' s) : Takes a b' x g' := by
  subst hb
  intro s rest k
  rw [h, hg]

end Restore.Takes

end NodeCube.Snapshot

namespace NodeCube

open Snapshot

/-- A pipe is restored as it was. -/
theorem Pipe.takes_restore (p : Pipe) : Restore.Takes Pipe.restore p.encode () fun _ => p := by
  have hflags := Reader.takes_byte (encodeFlags [p.writing, p.reading, p.taken])
  refine (Restore.Takes.bind_read (Reader.takes_byte p.phase.code)
    (b := [encodeFlags [p.writing, p.reading, p.taken]] ++ encodeWord p.value) ?_)
  rw [Phase.ofCode?_code]
  refine Restore.Takes.congr (.bind_update (.bind_read hflags (.bind_update
    (.bind_read (Reader.takes_word p.value) (.update _))))) (by rw [List.append_nil]) fun s => ?_
  simp only [Function.comp_apply, flag_encodeFlags (show [p.writing, p.reading, p.taken].length ≤ 8
    by simp)]
  rfl

/-- Registers are restored as they were, if the program counter fits its 16 bits. -/
theorem Registers.takes_restore {r : Registers} (h₀ : 0 ≤ r.pc) (h₁ : r.pc < 65536) :
    Restore.Takes Registers.restore r.encode () fun _ => r := by
  have hpc : ((UInt16.ofInt r.pc).toNat : Int) = r.pc := by
    rw [UInt16.ofInt, UInt16.toNat_ofNat']
    omega
  have hflags := Reader.takes_byte (encodeFlags [r.writeInFlight, r.stalled])
  have hheld := Reader.takes_byte (if r.anyWrite.isSome then 1 else 0)
  -- what is read after the three numbers, the code of the last port among them
  refine Restore.Takes.congr (.bind_read (Reader.takes_number16 (UInt16.ofInt r.pc)) (.bind_update
    (.bind_read (Reader.takes_word r.acc) (.bind_update (.bind_read (Reader.takes_word r.bak)
      (.bind_update (.bind_read (Reader.takes_byte (encodeLast r.last))
        (b := [encodeFlags [r.writeInFlight, r.stalled]] ++
          ([if r.anyWrite.isSome then 1 else 0] ++ encodeWord (r.anyWrite.getD 0)))
        (g := fun s => { s with
          last := r.last
          writeInFlight := r.writeInFlight
          stalled := r.stalled
          anyWrite := r.anyWrite }) ?_)))))))
    (by simp [encode]) fun s => ?_
  · rw [decodeLast?_encodeLast]
    refine Restore.Takes.congr (.bind_update (.bind_read hflags (.bind_update (.bind_read hheld
      (.bind_read (Reader.takes_word (r.anyWrite.getD 0)) (.update _))))))
      (by rw [List.append_nil]) fun s => ?_
    have hany : (if (if r.anyWrite.isSome then (1 : UInt8) else 0) = 0 then none
        else some (r.anyWrite.getD 0)) = r.anyWrite := by
      cases r.anyWrite <;> rfl
    simp only [Function.comp_apply, hany,
      flag_encodeFlags (show [r.writeInFlight, r.stalled].length ≤ 8 by simp)]
    rfl
  · simp only [Function.comp_apply, hpc]

end NodeCube
