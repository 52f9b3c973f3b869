import NodeCube.Proofs.Snapshot.Takes
import NodeCube.Snapshot.Item

/-!
# A reader stays inside its bytes

Calls on one reader, one after another, which go on after those that fail. A `Reader` takes bytes
off the front of a list. `Lookup` is the same reader with a position in bytes that stay where they
are: it subtracts the position from their number, looks single bytes up and copies ranges of them,
and it stops for reasons of its own if more is subtracted than there is or if a place lies outside.
The two agree at every position inside (`Reader.Agrees`), so it never stops for such a reason.

* `Cursor.calls`: a call gives the item that the next bytes write, or fewer bytes are left than it
  takes, and then it got past the complete halves of a 32-bit number only;
* `Reader.agrees_read`: the two readers agree in every call, which leads from a position inside to
  one that is no smaller and inside;
* `ItemType.read_contained`: all of this in any sequence of calls.
-/

namespace NodeCube.Snapshot

variable {α β : Type}

/-! ## Items and their bytes -/

theorem encode16_ofNat (a b : UInt8) :
    encode16 (UInt16.ofNat (a.toNat * 256 + b.toNat)) = [a, b] := by
  have ha := a.toNat_lt
  have hb := b.toNat_lt
  have hn : (UInt16.ofNat (a.toNat * 256 + b.toNat)).toNat = a.toNat * 256 + b.toNat := by
    rw [UInt16.toNat_ofNat']
    omega
  rw [encode16, hn]
  congr 2
  · rw [← UInt8.toNat_inj, UInt8.toNat_ofNat']
    omega
  · rw [← UInt8.toNat_inj, UInt8.toNat_ofNat']
    omega

theorem encode32_ofNat (high low : UInt16) :
    encode32 (UInt32.ofNat (high.toNat * 65536 + low.toNat)) = encode16 high ++ encode16 low := by
  have hh := high.toNat_lt
  have hl := low.toNat_lt
  have hn : (UInt32.ofNat (high.toNat * 65536 + low.toNat)).toNat =
      high.toNat * 65536 + low.toNat := by
    rw [UInt32.toNat_ofNat']
    omega
  rw [encode32, hn]
  congr 2
  · rw [← UInt16.toNat_inj, UInt16.toNat_ofNat']
    omega
  · rw [← UInt16.toNat_inj, UInt16.toNat_ofNat']
    omega

/-- The length that the first four bytes of a block tell. -/
def toldLength : Bytes → Nat
  | a :: b :: c :: d :: _ => ((a.toNat * 256 + b.toNat) * 256 + c.toNat) * 256 + d.toNat
  | _ => 0

theorem toldLength_encode32 (n : UInt32) (rest : Bytes) :
    toldLength (encode32 n ++ rest) = n.toNat := by
  have hn := n.toNat_lt
  simp only [encode32, encode16, List.cons_append, List.nil_append, toldLength,
    UInt8.toNat_ofNat', UInt16.toNat_ofNat']
  omega

/-- How many bytes an item takes that starts with the given ones: a block as many as its length says
behind the four bytes of the length. -/
def ItemType.size (rest : Bytes) : ItemType → Nat
  | .byte => 1
  | .number16 | .word => 2
  | .number32 => 4
  | .text | .blob => 4 + toldLength rest

/-- The bytes of the complete halves of a 32-bit number, if there are so many bytes left. -/
def halves (left : Nat) : Nat := if 4 ≤ left then 4 else if 2 ≤ left then 2 else 0

/-- How far a call gets that fails with so many bytes left. -/
def ItemType.reach (left : Nat) : ItemType → Nat
  | .byte | .number16 | .word => 0
  | .number32 | .text | .blob => halves left

/-! ## What a call does -/

namespace Cursor

/-- The cursor `n` bytes on. -/
def advance (c : Cursor) (n : Nat) : Cursor := ⟨c.rest.drop n, c.position + n⟩

/-- What a call for an item of type `t` can lead to. -/
inductive Calls (c : Cursor) (t : ItemType) : Outcome SnapshotError Cursor Item → Prop
  /-- The next bytes are those of an item. -/
  | gives {i : Item} {rest : Bytes} (ht : i.type = t) (hs : i.encode.length = t.size c.rest)
    (hr : c.rest = i.encode ++ rest) : Calls c t (.ok i ⟨rest, c.position + i.encode.length⟩)
  /-- There are fewer bytes left than the item takes. -/
  | fails (h : c.rest.length < t.size c.rest) :
    Calls c t (.error (.truncated (c.position + t.reach c.rest.length))
      (c.advance (t.reach c.rest.length)))

end Cursor

namespace Reader

variable {r : Reader α} {c c' : Cursor}

theorem map_ok {x : α} (g : α → β) (h : r c = .ok x c') : (g <$> r) c = .ok (g x) c' := by
  rw [← bind_pure_comp]
  exact Outcome.bind_ok h

theorem map_error {e : SnapshotError} (g : α → β) (h : r c = .error e c') :
    (g <$> r) c = .error e c' := by
  rw [← bind_pure_comp]
  exact Outcome.bind_error h

theorem number16_cases (c : Cursor) :
    (∃ n rest, c.rest = encode16 n ++ rest ∧ number16 c = .ok n ⟨rest, c.position + 2⟩) ∨
    c.rest.length < 2 ∧ number16 c = .error (.truncated c.position) c := by
  obtain ⟨rest, k⟩ := c
  rcases rest with _ | ⟨a, _ | ⟨b, rest⟩⟩
  · exact .inr ⟨by simp, rfl⟩
  · exact .inr ⟨by simp, rfl⟩
  · refine .inl ⟨_, rest, ?_, rfl⟩
    rw [encode16_ofNat]
    rfl

/-- A 32-bit number fails in its first half or behind it. -/
theorem number32_cases (c : Cursor) :
    (∃ n rest, c.rest = encode32 n ++ rest ∧ number32 c = .ok n ⟨rest, c.position + 4⟩) ∨
    c.rest.length < 4 ∧ number32 c = .error (.truncated (c.position + halves c.rest.length))
      (c.advance (halves c.rest.length)) := by
  rcases number16_cases c with ⟨high, rest, hrest, hhigh⟩ | ⟨hshort, herr⟩
  · have hlen : c.rest.length = 2 + rest.length := by simp [hrest, encode16]; omega
    rcases number16_cases ⟨rest, c.position + 2⟩ with ⟨low, rest', hrest', hlow⟩ | ⟨hshort, herr⟩
    · refine .inl ⟨UInt32.ofNat (high.toNat * 65536 + low.toNat), rest', ?_, ?_⟩
      · rw [encode32_ofNat, hrest, List.append_assoc]
        exact congrArg _ hrest'
      · exact (Outcome.bind_ok hhigh).trans (Outcome.bind_ok hlow)
    · have hleft : rest.length < 2 := hshort
      have hhalf : halves c.rest.length = 2 := by
        unfold halves
        rw [if_neg (by omega), if_pos (by omega)]
      have hdrop : c.advance 2 = ⟨rest, c.position + 2⟩ := by
        rw [Cursor.advance, hrest]
        rfl
      refine .inr ⟨by omega, ?_⟩
      rw [hhalf, hdrop]
      exact (Outcome.bind_ok hhigh).trans (Outcome.bind_error herr)
  · have hhalf : halves c.rest.length = 0 := by
      unfold halves
      rw [if_neg (by omega), if_neg (by omega)]
    refine .inr ⟨by omega, ?_⟩
    rw [hhalf]
    exact Outcome.bind_error herr

/-- A block fails in its length or behind it. -/
theorem block_cases (c : Cursor) :
    (∃ s rest, s.length = toldLength c.rest ∧ c.rest = encodeBlock s ++ rest ∧
      block c = .ok s ⟨rest, c.position + (4 + s.length)⟩) ∨
    c.rest.length < 4 + toldLength c.rest ∧
      block c = .error (.truncated (c.position + halves c.rest.length))
        (c.advance (halves c.rest.length)) := by
  rcases number32_cases c with ⟨n, rest, hrest, hn⟩ | ⟨hshort, herr⟩
  · have hlen : c.rest.length = 4 + rest.length := by simp [hrest, encode32, encode16]; omega
    have htold : toldLength c.rest = n.toNat := by rw [hrest, toldLength_encode32]
    have hblock : block c = take n.toNat ⟨rest, c.position + 4⟩ := Outcome.bind_ok hn
    by_cases hcut : rest.length < n.toNat
    · have hhalf : halves c.rest.length = 4 := if_pos (by omega)
      have hdrop : c.advance 4 = ⟨rest, c.position + 4⟩ := by
        rw [Cursor.advance, hrest]
        rfl
      refine .inr ⟨by omega, ?_⟩
      rw [hblock, take, if_pos hcut, hhalf, hdrop]
    · have hs : (rest.take n.toNat).length = n.toNat := List.length_take_of_le (by omega)
      refine .inl ⟨rest.take n.toNat, rest.drop n.toNat, hs.trans htold.symm, ?_, ?_⟩
      · rw [encodeBlock, hs, UInt32.ofNat_toNat, List.append_assoc, List.take_append_drop, hrest]
      · rw [hblock, take, if_neg hcut, hs, Nat.add_assoc]
  · exact .inr ⟨by omega, Outcome.bind_error herr⟩

end Reader

namespace Cursor

theorem calls_block {c : Cursor} {t : ItemType} {g : Bytes → Item}
    (hread : t.read = g <$> Reader.block) (ht : ∀ s, (g s).type = t)
    (he : ∀ s, (g s).encode = encodeBlock s) (hs : t.size c.rest = 4 + toldLength c.rest)
    (hr : t.reach c.rest.length = halves c.rest.length) : c.Calls t (t.read c) := by
  rw [hread]
  rcases Reader.block_cases c with ⟨s, rest, hlen, hrest, hok⟩ | ⟨hshort, herr⟩
  · have hsize : (g s).encode.length = 4 + s.length := by
      rw [he, encodeBlock, List.length_append]
      rfl
    rw [Reader.map_ok g hok, ← hsize]
    refine .gives (ht s) ?_ ?_
    · rw [hsize, hs, hlen]
    · rw [he, hrest]
  · rw [Reader.map_error g herr, ← hr]
    exact .fails (by omega)

theorem calls (c : Cursor) (t : ItemType) : c.Calls t (t.read c) := by
  cases t with
  | byte =>
    obtain ⟨rest, k⟩ := c
    cases rest with
    | nil => exact .fails (t := .byte) (by simp [ItemType.size])
    | cons b rest => exact .gives (i := .byte b) rfl rfl rfl
  | number16 =>
    rcases Reader.number16_cases c with ⟨n, rest, hrest, hok⟩ | ⟨hshort, herr⟩
    · rw [ItemType.read, Reader.map_ok _ hok]
      exact .gives (i := .number16 n) rfl rfl hrest
    · rw [ItemType.read, Reader.map_error _ herr]
      exact .fails (t := .number16) hshort
  | word =>
    rcases Reader.number16_cases c with ⟨n, rest, hrest, hok⟩ | ⟨hshort, herr⟩
    · have hword : Reader.word c = .ok n.toInt16 ⟨rest, c.position + 2⟩ := Outcome.bind_ok hok
      rw [ItemType.read, Reader.map_ok _ hword]
      exact .gives (i := .word n.toInt16) rfl rfl hrest
    · have hword : Reader.word c = .error (.truncated c.position) c := Outcome.bind_error herr
      rw [ItemType.read, Reader.map_error _ hword]
      exact .fails (t := .word) hshort
  | number32 =>
    rcases Reader.number32_cases c with ⟨n, rest, hrest, hok⟩ | ⟨hshort, herr⟩
    · rw [ItemType.read, Reader.map_ok _ hok]
      exact .gives (i := .number32 n) rfl rfl hrest
    · rw [ItemType.read, Reader.map_error _ herr]
      exact .fails (t := .number32) hshort
  | text => exact calls_block rfl (fun _ => rfl) (fun _ => rfl) rfl rfl
  | blob => exact calls_block rfl (fun _ => rfl) (fun _ => rfl) rfl rfl

end Cursor

/-! ## Looking bytes up -/

/-- What stops a reader that looks bytes up. -/
inductive Stop where
  | refused (e : SnapshotError)
  /-- The position was subtracted from a smaller number of bytes. -/
  | wrapped
  /-- There is no byte at a place. -/
  | outside
  deriving DecidableEq, Repr

/-- Something that looks an `α` up from a position on. -/
abbrev Lookup (α : Type) := EStateM Stop Nat α

namespace Lookup

variable (bytes : Bytes)

/-- How many bytes are left. -/
def left : Lookup Nat := fun p =>
  if bytes.length < p then .error .wrapped p else .ok (bytes.length - p) p

/-- Refuses to go on with fewer than `n` bytes left. -/
def require (n : Nat) : Lookup Unit := do
  let left ← left bytes
  let p ← get
  if left < n then throw (.refused (.truncated p)) else pure ()

/-- The byte `i` places behind the position. -/
def byteAt (i : Nat) : Lookup UInt8 := fun p =>
  match bytes[p + i]? with
  | some b => .ok b p
  | none => .error .outside p

/-- The `n` bytes from the position on. -/
def range (n : Nat) : Lookup Bytes := fun p =>
  if bytes.length < p + n then .error .outside p else .ok ((bytes.drop p).take n) p

def advance (n : Nat) : Lookup Unit := modify (· + n)

def byte : Lookup UInt8 := do
  require bytes 1
  let b ← byteAt bytes 0
  advance 1
  return b

def number16 : Lookup UInt16 := do
  require bytes 2
  let high ← byteAt bytes 0
  let low ← byteAt bytes 1
  advance 2
  return UInt16.ofNat (high.toNat * 256 + low.toNat)

def word : Lookup Word := do
  let n ← number16 bytes
  return n.toInt16

def number32 : Lookup UInt32 := do
  let high ← number16 bytes
  let low ← number16 bytes
  return UInt32.ofNat (high.toNat * 65536 + low.toNat)

/-- The next `n` bytes. -/
def take (n : Nat) : Lookup Bytes := do
  require bytes n
  let s ← range bytes n
  advance n
  return s

def block : Lookup Bytes := do
  let n ← number32 bytes
  take bytes n.toNat

def read : ItemType → Lookup Item
  | .byte => Item.byte <$> byte bytes
  | .number16 => Item.number16 <$> number16 bytes
  | .word => Item.word <$> word bytes
  | .number32 => Item.number32 <$> number32 bytes
  | .text => Item.text <$> block bytes
  | .blob => Item.blob <$> block bytes

/-- The position that calls lead to, whether they succeed or fail. -/
def after (types : List ItemType) (p : Nat) : Nat :=
  types.foldl (fun p t => Outcome.state (read bytes t p)) p

variable {bytes} {p : Nat}

theorem require_eq (h : p ≤ bytes.length) (n : Nat) : require bytes n p =
    if (bytes.drop p).length < n then .error (.refused (.truncated p)) p else .ok () p := by
  have hleft : left bytes p = .ok (bytes.drop p).length p := by
    rw [left, if_neg (by omega), List.length_drop]
  refine (Outcome.bind_ok hleft).trans ((Outcome.bind_ok (s := p) rfl).trans ?_)
  split <;> rfl

theorem byteAt_of_some {i : Nat} {b : UInt8} (h : (bytes.drop p)[i]? = some b) :
    byteAt bytes i p = .ok b p := by
  rw [List.getElem?_drop] at h
  rw [byteAt, h]

theorem range_of_le {n : Nat} (h : p ≤ bytes.length) (hn : n ≤ (bytes.drop p).length) :
    range bytes n p = .ok ((bytes.drop p).take n) p := by
  rw [List.length_drop] at hn
  rw [range, if_neg (by omega)]

end Lookup

/-! ## The two readers agree -/

/-- The cursor at a position in some bytes. -/
def Cursor.ofPosition (bytes : Bytes) (p : Nat) : Cursor := ⟨bytes.drop p, p⟩

/-- The outcome of a reader as that of one that looks bytes up and is stopped by nothing else. -/
def refusing : Outcome SnapshotError Cursor α → Outcome Stop Nat α
  | .ok x c => .ok x c.position
  | .error e c => .error (.refused e) c.position

/-- From each position inside, both readers come to the same result and the same position, which is
no smaller and inside. -/
structure Reader.Agrees (bytes : Bytes) (r : Reader α) (l : Lookup α) : Prop where
  lookup : ∀ p ≤ bytes.length, l p = refusing (r (.ofPosition bytes p))
  stays : ∀ p ≤ bytes.length, ∃ q, p ≤ q ∧ q ≤ bytes.length ∧
    Outcome.state (r (.ofPosition bytes p)) = .ofPosition bytes q

namespace Reader

variable {bytes : Bytes}

theorem Agrees.bind {a : Reader α} {f : α → Reader β} {l : Lookup α} {g : α → Lookup β}
    (h₁ : a.Agrees bytes l) (h₂ : ∀ x, (f x).Agrees bytes (g x)) :
    Agrees bytes (a >>= f) (l >>= g) := by
  have hrun : ∀ p ≤ bytes.length, (l >>= g) p = refusing ((a >>= f) (.ofPosition bytes p)) ∧
      ∃ q, p ≤ q ∧ q ≤ bytes.length ∧
        Outcome.state ((a >>= f) (.ofPosition bytes p)) = .ofPosition bytes q := by
    intro p hp
    have hl := h₁.lookup p hp
    obtain ⟨q, hpq, hq, hstate⟩ := h₁.stays p hp
    cases ha : a (.ofPosition bytes p) with
    | ok x c =>
      rw [ha] at hl hstate
      obtain rfl : c = .ofPosition bytes q := hstate
      obtain ⟨q', hqq', hq', hstate'⟩ := (h₂ x).stays q hq
      rw [Outcome.bind_ok ha, Outcome.bind_ok (hl : l p = .ok x q)]
      exact ⟨(h₂ x).lookup q hq, q', by omega, hq', hstate'⟩
    | error e c =>
      rw [ha] at hl hstate
      obtain rfl : c = .ofPosition bytes q := hstate
      rw [Outcome.bind_error ha, Outcome.bind_error (hl : l p = .error (.refused e) q)]
      exact ⟨rfl, q, hpq, hq, rfl⟩
  exact ⟨fun p hp => (hrun p hp).1, fun p hp => (hrun p hp).2⟩

theorem Agrees.pure (x : α) : Agrees bytes (Pure.pure x) (Pure.pure x) :=
  ⟨fun _ _ => rfl, fun p hp => ⟨p, Nat.le_refl p, hp, rfl⟩⟩

theorem Agrees.map {r : Reader α} {l : Lookup α} (h : r.Agrees bytes l) (g : α → β) :
    Agrees bytes (g <$> r) (g <$> l) := by
  rw [← bind_pure_comp, ← bind_pure_comp]
  exact h.bind fun x => .pure (g x)

/-- A check for `n` bytes that fails stops both readers where they are, and one that does not lets
both go on `n` bytes. -/
theorem Agrees.of_take {r : Reader α} {k : Unit → Lookup α} (n : Nat)
    (hcut : ∀ c : Cursor, c.rest.length < n → r c = .error (.truncated c.position) c)
    (htake : ∀ p ≤ bytes.length, n ≤ (bytes.drop p).length → ∃ x,
      r (.ofPosition bytes p) = .ok x (.ofPosition bytes (p + n)) ∧ k () p = .ok x (p + n)) :
    r.Agrees bytes (Lookup.require bytes n >>= k) := by
  have hrun : ∀ p ≤ bytes.length,
      (Lookup.require bytes n >>= k) p = refusing (r (.ofPosition bytes p)) ∧
      ∃ q, p ≤ q ∧ q ≤ bytes.length ∧
        Outcome.state (r (.ofPosition bytes p)) = .ofPosition bytes q := by
    intro p hp
    have hcheck := Lookup.require_eq hp n
    split at hcheck
    · rename_i hlen
      rw [Outcome.bind_error hcheck, hcut (.ofPosition bytes p) hlen]
      exact ⟨rfl, p, Nat.le_refl p, hp, rfl⟩
    · rename_i hlen
      obtain ⟨x, hr, hk⟩ := htake p hp (by omega)
      rw [List.length_drop] at hlen
      rw [Outcome.bind_ok hcheck, hr, hk]
      exact ⟨rfl, p + n, by omega, by omega, rfl⟩
  exact ⟨fun p hp => (hrun p hp).1, fun p hp => (hrun p hp).2⟩

theorem agrees_byte : byte.Agrees bytes (Lookup.byte bytes) := by
  refine .of_take 1 (fun c hc => ?_) fun p _ hlen => ?_
  · obtain ⟨rest, k⟩ := c
    obtain rfl : rest = [] := List.length_eq_zero_iff.mp (Nat.lt_one_iff.mp hc)
    rfl
  · obtain ⟨b, rest, hd⟩ := List.exists_cons_of_length_pos hlen
    have hrest : bytes.drop (p + 1) = rest := by rw [← List.drop_drop, hd]; rfl
    have hb : Lookup.byteAt bytes 0 p = .ok b p := Lookup.byteAt_of_some (by rw [hd]; rfl)
    refine ⟨b, ?_, Outcome.bind_ok hb⟩
    rw [Cursor.ofPosition, Cursor.ofPosition, hd, hrest]
    rfl

theorem agrees_number16 : number16.Agrees bytes (Lookup.number16 bytes) := by
  refine .of_take 2 (fun c hc => ?_) fun p _ hlen => ?_
  · rcases number16_cases c with ⟨n, rest, hrest, -⟩ | ⟨-, herr⟩
    · have htwo : (encode16 n).length = 2 := rfl
      rw [hrest, List.length_append] at hc
      omega
    · exact herr
  · obtain ⟨a, b, rest, hd⟩ : ∃ a b rest, bytes.drop p = a :: b :: rest := by
      obtain ⟨a, rest, hd⟩ := List.exists_cons_of_length_pos (Nat.lt_of_succ_lt hlen)
      rw [hd] at hlen ⊢
      obtain ⟨b, rest, rfl⟩ := List.exists_cons_of_length_pos (Nat.lt_of_succ_lt_succ hlen)
      exact ⟨a, b, rest, rfl⟩
    have hrest : bytes.drop (p + 2) = rest := by rw [← List.drop_drop, hd]; rfl
    have ha : Lookup.byteAt bytes 0 p = .ok a p := Lookup.byteAt_of_some (by rw [hd]; rfl)
    have hb : Lookup.byteAt bytes 1 p = .ok b p := Lookup.byteAt_of_some (by rw [hd]; rfl)
    refine ⟨UInt16.ofNat (a.toNat * 256 + b.toNat), ?_,
      (Outcome.bind_ok ha).trans (Outcome.bind_ok hb)⟩
    rw [Cursor.ofPosition, Cursor.ofPosition, hd, hrest]
    rfl

theorem agrees_take (n : Nat) : (take n).Agrees bytes (Lookup.take bytes n) := by
  refine .of_take n (fun c hc => if_pos hc) fun p hp hlen => ?_
  refine ⟨(bytes.drop p).take n, ?_, Outcome.bind_ok (Lookup.range_of_le hp hlen)⟩
  rw [take, if_neg (by show ¬ (bytes.drop p).length < n; omega)]
  simp only [Cursor.ofPosition, List.drop_drop]

theorem agrees_number32 : number32.Agrees bytes (Lookup.number32 bytes) :=
  agrees_number16.bind fun _ => agrees_number16.bind fun _ => .pure _

theorem agrees_block : block.Agrees bytes (Lookup.block bytes) :=
  agrees_number32.bind fun n => agrees_take n.toNat

theorem agrees_read (bytes : Bytes) (t : ItemType) :
    t.read.Agrees bytes (Lookup.read bytes t) := by
  cases t with
  | byte => exact agrees_byte.map _
  | number16 => exact agrees_number16.map _
  | word => exact (agrees_number16.bind fun _ => .pure _).map _
  | number32 => exact agrees_number32.map _
  | text => exact agrees_block.map _
  | blob => exact agrees_block.map _

end Reader

/-! ## Sequences of calls -/

/-- The cursor that calls leave, whether they succeed or fail. -/
def Cursor.after (types : List ItemType) (c : Cursor) : Cursor :=
  types.foldl (fun c t => Outcome.state (t.read c)) c

/-- Calls lead both readers from a position inside to the same one, which is inside. -/
theorem Cursor.after_ofPosition (bytes : Bytes) (types : List ItemType) {p : Nat}
    (h : p ≤ bytes.length) : Lookup.after bytes types p ≤ bytes.length ∧
      after types (ofPosition bytes p) = ofPosition bytes (Lookup.after bytes types p) := by
  induction types generalizing p with
  | nil => exact ⟨h, rfl⟩
  | cons t types ih =>
    have hagrees := Reader.agrees_read bytes t
    obtain ⟨q, -, hq, hstate⟩ := hagrees.stays p h
    have hposition : Outcome.state (Lookup.read bytes t p) = q := by
      rw [hagrees.lookup p h, ← show (ofPosition bytes q).position = q from rfl, ← hstate]
      cases t.read (ofPosition bytes p) <;> rfl
    simp only [Lookup.after, after, List.foldl_cons, hposition, hstate]
    exact ih hq

/-- A call at a cursor in some bytes reads inside them, and fails just if there are too few. -/
structure ItemType.Contained (bytes : Bytes) (c : Cursor) (t : ItemType) : Prop where
  /-- The cursor stands inside, at what is left. -/
  inside : c.position ≤ bytes.length ∧ c.rest = bytes.drop c.position
  /-- The position does not go back, and not outside. -/
  forward : c.position ≤ (Outcome.state (t.read c)).position ∧
    (Outcome.state (t.read c)).position ≤ bytes.length
  /-- No subtraction goes below zero and no place outside is looked at. -/
  lookup : Lookup.read bytes t c.position = refusing (t.read c)
  fails_iff : (∃ e c', t.read c = .error e c') ↔
    bytes.length - c.position < t.size (bytes.drop c.position)
  /-- A failure is told where it happens, and only complete halves of a length or of a 32-bit number
  are lost. -/
  fails : ∀ e c', t.read c = .error e c' → e = .truncated c'.position ∧
    c'.position = c.position + t.reach (bytes.length - c.position)
  /-- What is given is written as the bytes that were read. -/
  gives : ∀ i c', t.read c = .ok i c' → i.type = t ∧
    bytes.drop c.position = i.encode ++ bytes.drop c'.position ∧
    c'.position = c.position + t.size (bytes.drop c.position)

theorem ItemType.contained_ofPosition {bytes : Bytes} {p : Nat} (h : p ≤ bytes.length)
    (t : ItemType) : t.Contained bytes (.ofPosition bytes p) := by
  have hagrees := Reader.agrees_read bytes t
  obtain ⟨q, hpq, hq, hstate⟩ := hagrees.stays p h
  have hcalls := Cursor.calls (.ofPosition bytes p) t
  have hleft : (Cursor.ofPosition bytes p).rest.length = bytes.length - p := List.length_drop
  refine ⟨⟨h, rfl⟩, ?_, hagrees.lookup p h, ?_, ?_, ?_⟩
  · rw [hstate]
    exact ⟨hpq, hq⟩
  · show _ ↔ bytes.length - p < t.size (Cursor.ofPosition bytes p).rest
    rw [← hleft]
    generalize t.read (Cursor.ofPosition bytes p) = o at hcalls
    cases hcalls with
    | gives _ hs hr =>
      have hlen := congrArg List.length hr
      rw [List.length_append] at hlen
      constructor
      · rintro ⟨e, c', he⟩
        cases he
      · omega
    | fails hshort => exact ⟨fun _ => hshort, fun _ => ⟨_, _, rfl⟩⟩
  · intro e c' he
    rw [he] at hcalls
    cases hcalls with
    | fails hshort =>
      rw [hleft]
      exact ⟨rfl, rfl⟩
  · intro i c' hi
    rw [hi] at hcalls hstate
    obtain rfl : c' = .ofPosition bytes q := hstate
    cases hcalls with
    | gives ht hs hr => exact ⟨ht, hr, congrArg (p + ·) hs⟩

/-- Whatever was called on a reader of some bytes before, also where it failed, the next call is
contained, and a reader that looks the bytes up by their places is at the same position. -/
theorem ItemType.read_contained (bytes : Bytes) (types : List ItemType) (t : ItemType) :
    t.Contained bytes (Cursor.after types (.start bytes)) ∧
      Lookup.after bytes types 0 = (Cursor.after types (.start bytes)).position := by
  obtain ⟨hinside, hafter⟩ := Cursor.after_ofPosition bytes types (Nat.zero_le bytes.length)
  have hstart : Cursor.start bytes = .ofPosition bytes 0 := rfl
  rw [hstart, hafter]
  exact ⟨contained_ofPosition hinside t, rfl⟩

/-- A block whose length goes far beyond the bytes loses its length only, and then a 32-bit number
loses its first half. -/
example : Cursor.after [.blob, .number32, .byte] (.start [255, 255, 255, 255, 1, 2, 3]) = ⟨[], 7⟩ :=
  rfl

end NodeCube.Snapshot
