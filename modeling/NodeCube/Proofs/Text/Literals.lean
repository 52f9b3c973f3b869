import Mathlib.Data.Int.ModEq
import Mathlib.Data.List.Forall2
import Mathlib.Data.Nat.Digits.Defs
import NodeCube.Proofs.Text.Numerals

/-!
# The language of literals

A literal is an optional sign and a row of digits, decimal or, behind `0x` or `0X`, hexadecimal.
`Word.Denotes` gives it the value that the digits have in their base, with the sign. Exactly the
literals whose value lies between -32768 and 65535 are read as words, each as the word that is
congruent to its value modulo 2^16 (`Word.ofLiteral?_exact`).
-/

namespace NodeCube

namespace Text

/-- What may stand in front of a numeral. -/
inductive Sign where
  | none
  | plus
  | minus

namespace Sign

def text : Sign → Bytes
  | .none => []
  | .plus => ascii "+"
  | .minus => ascii "-"

def negative : Sign → Bool
  | .none | .plus => false
  | .minus => true

/-- The integer of a magnitude with a sign. -/
def signed : Sign → Nat → Int
  | .none, n | .plus, n => n
  | .minus, n => -n

end Sign

namespace Radix

/-- The digits of a radix and their values: each stands in its row at the place of its value. -/
def IsDigit : Radix → UInt8 → Nat → Prop
  | .decimal, b, d => (ascii "0123456789")[d]? = some b
  | .hexadecimal, b, d =>
    (ascii "0123456789abcdef")[d]? = some b ∨ (ascii "0123456789ABCDEF")[d]? = some b

instance (r : Radix) (b : UInt8) (d : Nat) : Decidable (r.IsDigit b d) :=
  match r with
  | .decimal => inferInstanceAs (Decidable (_ = _))
  | .hexadecimal => inferInstanceAs (Decidable (_ ∨ _))

/-- What stands between the sign and the digits. -/
def IsMark : Radix → Bytes → Prop
  | .decimal, mark => mark = []
  | .hexadecimal, mark => mark = ascii "0x" ∨ mark = ascii "0X"

end Radix

end Text

/-- The text is a literal, and this is the integer that it denotes. -/
inductive Word.Denotes : Bytes → Int → Prop
  | intro (sign : Text.Sign) (radix : Text.Radix) (mark digits : Bytes) (ds : List Nat)
    (hm : radix.IsMark mark) (hn : digits ≠ []) (hd : List.Forall₂ radix.IsDigit digits ds) :
    Denotes (sign.text ++ (mark ++ digits)) (sign.signed (Nat.ofDigits radix.base ds.reverse))

/-! ## Rows of digits -/

namespace Text.Radix

theorem isDigit_of_digit? {r : Radix} {b : UInt8} {d : Nat} (h : r.digit? b = some d) :
    r.IsDigit b d := by
  have hall : ∀ n < 256, (r.digit? (UInt8.ofNat n)).all (r.IsDigit (UInt8.ofNat n) ·) = true := by
    cases r <;> decide +kernel
  have hb := hall b.toNat b.toNat_lt
  rw [UInt8.ofNat_toNat, h] at hb
  exact of_decide_eq_true hb

theorem digit?_of_isDigit {r : Radix} {b : UInt8} {d : Nat} (h : r.IsDigit b d) :
    r.digit? b = some d := by
  -- each place of a row holds a digit of that value
  have hrow : ∀ (row : Bytes), (∀ d < row.length, r.digit? (row.getD d 0) = some d) →
      row[d]? = some b → r.digit? b = some d := by
    intro row hall hb
    have hd : d < row.length := (List.getElem?_eq_some_iff.mp hb).1
    have hplace := hall d hd
    rwa [List.getD_eq_getElem?_getD, hb] at hplace
  cases r with
  | decimal => exact hrow _ (by decide) h
  | hexadecimal => exact h.elim (hrow _ (by decide)) (hrow _ (by decide))

theorem digit?_eq_some_iff {r : Radix} {b : UInt8} {d : Nat} :
    r.digit? b = some d ↔ r.IsDigit b d := ⟨isDigit_of_digit?, digit?_of_isDigit⟩

theorem valueFrom?_eq_some_iff {r : Radix} {n m : Nat} {s : Bytes} : r.valueFrom? n s = some m ↔
    ∃ ds, List.Forall₂ r.IsDigit s ds ∧ ds.foldl (fun n d => n * r.base + d) n = m := by
  induction s generalizing n with
  | nil =>
    simp only [valueFrom?, Option.some.injEq, List.forall₂_nil_left_iff, exists_eq_left,
      List.foldl_nil]
  | cons b s ih =>
    simp only [valueFrom?, List.forall₂_cons_left_iff]
    constructor
    · intro h
      cases hd : r.digit? b with
      | none =>
        rw [hd] at h
        cases h
      | some d =>
        rw [hd] at h
        obtain ⟨ds, hds, hm⟩ := ih.mp h
        exact ⟨d :: ds, ⟨d, ds, digit?_eq_some_iff.mp hd, hds, rfl⟩, hm⟩
    · rintro ⟨_, ⟨d, ds, hd, hds, rfl⟩, hm⟩
      rw [digit?_eq_some_iff.mpr hd]
      exact ih.mpr ⟨ds, hds, hm⟩

theorem foldl_eq_ofDigits (base : Nat) (ds : List Nat) :
    ds.foldl (fun n d => n * base + d) 0 = Nat.ofDigits base ds.reverse := by
  rw [Nat.ofDigits_eq_foldr, List.foldr_reverse]
  simp only [Nat.cast_id, Nat.add_comm, Nat.mul_comm]

theorem value?_eq_some_iff {r : Radix} {n : Nat} {digits : Bytes} : r.value? digits = some n ↔
    digits ≠ [] ∧ ∃ ds, List.Forall₂ r.IsDigit digits ds ∧
      n = Nat.ofDigits r.base ds.reverse := by
  cases digits with
  | nil => simp [value?]
  | cons b rest =>
    rw [value?, if_neg (by simp), valueFrom?_eq_some_iff]
    simp only [foldl_eq_ofDigits, eq_comm, ne_eq, reduceCtorEq, not_false_eq_true, true_and]

theorem isDigit_of_decimal {b : UInt8} {d : Nat} (h : IsDigit .decimal b d) :
    Text.isDigit b = true := by
  have hd : digit? .decimal b = some d := digit?_of_isDigit h
  unfold digit? at hd
  split at hd
  · assumption
  · cases hd

theorem isDigit_of_forall₂ {digits : Bytes} {ds : List Nat}
    (h : List.Forall₂ (IsDigit .decimal) digits ds) : ∀ b ∈ digits, Text.isDigit b = true := by
  induction h with
  | nil => exact fun b hb => absurd hb List.not_mem_nil
  | cons hd _ ih => exact List.forall_mem_cons.mpr ⟨isDigit_of_decimal hd, ih⟩

end Text.Radix

/-! ## Signs and marks -/

namespace Text

theorem Sign.signed_eq (sign : Sign) (n : Nat) :
    sign.signed n = if sign.negative then -(n : Int) else n := by cases sign <;> rfl

theorem exists_sign (s : Bytes) :
    ∃ sign : Sign, s = sign.text ++ (splitSign s).2 ∧ (splitSign s).1 = sign.negative := by
  cases s with
  | nil => exact ⟨.none, rfl, rfl⟩
  | cons b rest =>
    rw [splitSign]
    split
    · rename_i hb
      exact ⟨.minus, by rw [hb]; rfl, rfl⟩
    · split
      · rename_i hb
        exact ⟨.plus, by rw [hb]; rfl, rfl⟩
      · exact ⟨.none, rfl, rfl⟩

theorem splitSign_append (sign : Sign) {b : UInt8} (hb : isDigit b = true) (rest : Bytes) :
    splitSign (sign.text ++ b :: rest) = (sign.negative, b :: rest) := by
  cases sign with
  | none => exact splitSign_of_isDigit hb rest
  | plus | minus => rfl

namespace Radix

theorem exists_mark (s : Bytes) :
    ∃ mark, (split s).1.IsMark mark ∧ s = mark ++ (split s).2 := by
  unfold split
  split
  · rename_i x digits
    split
    · rename_i hx
      rcases hx with rfl | rfl
      · exact ⟨ascii "0x", .inl rfl, rfl⟩
      · exact ⟨ascii "0X", .inr rfl, rfl⟩
    · exact ⟨[], rfl, rfl⟩
  · exact ⟨[], rfl, rfl⟩

variable {r : Radix} {mark digits : Bytes} {ds : List Nat}

theorem split_append (hm : r.IsMark mark) (hd : List.Forall₂ r.IsDigit digits ds) :
    split (mark ++ digits) = (r, digits) := by
  cases r with
  | decimal =>
    obtain rfl : mark = [] := hm
    exact split_of_isDigit (isDigit_of_forall₂ hd)
  | hexadecimal => rcases hm with rfl | rfl <;> rfl

/-- An unsigned numeral begins with a digit, be it the zero of its mark. -/
theorem exists_digit (hm : r.IsMark mark) (hn : digits ≠ [])
    (hd : List.Forall₂ r.IsDigit digits ds) :
    ∃ b rest, mark ++ digits = b :: rest ∧ Text.isDigit b = true := by
  cases r with
  | decimal =>
    obtain rfl : mark = [] := hm
    cases hd with
    | nil => exact absurd rfl hn
    | @cons b d rest _ hb _ => exact ⟨b, rest, rfl, isDigit_of_decimal hb⟩
  | hexadecimal => rcases hm with rfl | rfl <;> exact ⟨_, _, rfl, by decide⟩

end Radix

end Text

/-! ## Literals -/

namespace Word

theorem literalValue?_eq_some_iff {s : Bytes} {v : Int} :
    literalValue? s = some v ↔ Denotes s v := by
  constructor
  · intro h
    obtain ⟨sign, hs, hnegative⟩ := Text.exists_sign s
    obtain ⟨mark, hm, hu⟩ := Text.Radix.exists_mark (Text.splitSign s).2
    have h : ((Text.Radix.split (Text.splitSign s).2).1.value?
        (Text.Radix.split (Text.splitSign s).2).2).map
          (fun (n : Nat) => if (Text.splitSign s).1 then -(n : Int) else n) = some v := h
    obtain ⟨n, hn, hv⟩ := Option.map_eq_some_iff.mp h
    obtain ⟨hne, ds, hds, rfl⟩ := Text.Radix.value?_eq_some_iff.mp hn
    rw [hnegative, ← sign.signed_eq] at hv
    rw [hs, hu, ← hv]
    exact .intro sign _ mark _ ds hm hne hds
  · rintro ⟨sign, radix, mark, digits, ds, hm, hne, hds⟩
    obtain ⟨b, rest, hb, hdigit⟩ := Text.Radix.exists_digit hm hne hds
    have hsign := Text.splitSign_append sign hdigit rest
    rw [← hb] at hsign
    have hvalue := Text.Radix.value?_eq_some_iff.mpr ⟨hne, ds, hds, rfl⟩
    simp only [literalValue?, hsign, Text.Radix.split_append hm hds, hvalue, Option.map_some,
      sign.signed_eq]

/-- The words are the integers modulo 2^16. -/
theorem wrap_eq_iff (v : Int) (w : Word) : wrap v = w ↔ w.toInt ≡ v [ZMOD 65536] := by
  have hlow := Int16.le_toInt w
  have hhigh := Int16.toInt_lt w
  rw [wrap, ← Int16.toInt_inj, Int16.toInt_ofInt, Int.ModEq]
  show Int.bmod v 65536 = _ ↔ _
  rw [Int.bmod_def]
  omega

theorem isSome_ofLiteral?_iff (s : Bytes) :
    (ofLiteral? s).isSome = true ↔ ∃ v, Denotes s v ∧ -32768 ≤ v ∧ v ≤ 65535 := by
  simp only [← literalValue?_eq_some_iff]
  rw [ofLiteral?_eq]
  cases literalValue? s with
  | none => simp
  | some v =>
    rw [Option.bind_some]
    by_cases hv : -32768 ≤ v ∧ v ≤ 65535 <;> simp [hv]

section Zeros

variable (k : Nat) (sign : Text.Sign) {radix : Text.Radix} {mark digits : Bytes} {ds : List Nat}
  (hm : radix.IsMark mark) (hn : digits ≠ []) (hd : List.Forall₂ radix.IsDigit digits ds)
include hm hn hd

/-- Zeros in front of the digits add nothing to the value. -/
theorem denotes_zeros :
    Denotes (sign.text ++ (mark ++ (List.replicate k '0'.toUInt8 ++ digits)))
      (sign.signed (Nat.ofDigits radix.base ds.reverse)) := by
  have hzero : radix.IsDigit '0'.toUInt8 0 := by cases radix <;> decide
  have hrow : List.Forall₂ radix.IsDigit (List.replicate k '0'.toUInt8 ++ digits)
      (List.replicate k 0 ++ ds) := by
    induction k with
    | zero => exact hd
    | succ k ih => exact .cons hzero ih
  have hdenotes := Denotes.intro sign radix mark _ _ hm (List.append_ne_nil_of_right_ne_nil _ hn)
    hrow
  rwa [List.reverse_append, List.reverse_replicate, Nat.ofDigits_append_replicate_zero] at hdenotes

theorem ofLiteral?_zeros :
    ofLiteral? (sign.text ++ (mark ++ (List.replicate k '0'.toUInt8 ++ digits))) =
      ofLiteral? (sign.text ++ (mark ++ digits)) := by
  have hlong := literalValue?_eq_some_iff.mpr (denotes_zeros k sign hm hn hd)
  have hshort := literalValue?_eq_some_iff.mpr (.intro sign radix mark digits ds hm hn hd)
  rw [ofLiteral?_eq, hlong, ofLiteral?_eq, hshort]

end Zeros

/-- A text is read as a word just if it is a literal, with a sign or without, decimal or
hexadecimal, whose value lies between -32768 and 65535; the word is the only one that is congruent
to the value modulo 2^16. So the text of each word is read as that word, and zeros in front of the
digits, however many, change nothing. -/
theorem ofLiteral?_exact :
    (∀ s, (ofLiteral? s).isSome = true ↔ ∃ v, Denotes s v ∧ -32768 ≤ v ∧ v ≤ 65535) ∧
    (∀ s v, Denotes s v → -32768 ≤ v → v ≤ 65535 →
      ∀ w, ofLiteral? s = some w ↔ w.toInt ≡ v [ZMOD 65536]) ∧
    (∀ w : Word, ofLiteral? w.text = some w) ∧
    (∀ (k : Nat) (sign : Text.Sign) (radix : Text.Radix) (mark digits : Bytes) (ds : List Nat),
      radix.IsMark mark → digits ≠ [] → List.Forall₂ radix.IsDigit digits ds →
      ofLiteral? (sign.text ++ (mark ++ (List.replicate k '0'.toUInt8 ++ digits))) =
        ofLiteral? (sign.text ++ (mark ++ digits))) := by
  refine ⟨isSome_ofLiteral?_iff, fun s v hv hlow hhigh w => ?_, ofLiteral?_text,
    fun k sign _ _ _ _ hm hn hd => ofLiteral?_zeros k sign hm hn hd⟩
  rw [ofLiteral?_eq, literalValue?_eq_some_iff.mpr hv, Option.bind_some, if_pos ⟨hlow, hhigh⟩,
    Option.some.injEq, wrap_eq_iff]

/-- The least and the greatest literal. -/
theorem ofLiteral?_exact_bounds :
    Denotes (ascii "-0x8000") (-32768) ∧ ofLiteral? (ascii "-0x8000") = some (-32768) ∧
    ofLiteral? (ascii "-0x00008000") = ofLiteral? (ascii "-0x8000") ∧
    Denotes (ascii "+0XfFFf") 65535 ∧ ofLiteral? (ascii "+0XfFFf") = some (-1) := by
  have hleast : List.Forall₂ (Text.Radix.IsDigit .hexadecimal) (ascii "8000") [8, 0, 0, 0] :=
    .cons (by decide) (.cons (by decide) (.cons (by decide) (.cons (by decide) .nil)))
  have hgreatest : List.Forall₂ (Text.Radix.IsDigit .hexadecimal) (ascii "fFFf") [15, 15, 15, 15] :=
    .cons (by decide) (.cons (by decide) (.cons (by decide) (.cons (by decide) .nil)))
  have hlow : Denotes (ascii "-0x8000") (-32768) :=
    .intro .minus .hexadecimal (ascii "0x") _ _ (.inl rfl) (by decide) hleast
  have hhigh : Denotes (ascii "+0XfFFf") 65535 :=
    .intro .plus .hexadecimal (ascii "0X") _ _ (.inr rfl) (by decide) hgreatest
  obtain ⟨-, hword, -, hzeros⟩ := ofLiteral?_exact
  exact ⟨hlow, (hword _ _ hlow (by decide) (by decide) _).mpr (by decide),
    hzeros 4 .minus .hexadecimal (ascii "0x") _ _ (.inl rfl) (by decide) hleast,
    hhigh, (hword _ _ hhigh (by decide) (by decide) _).mpr (by decide)⟩

end Word

end NodeCube
