import NodeCube.Text

/-!
# Lines of a text

How the lines of a text change when the text does: in capital letters (`lines_upper`), with line
feeds at its end (`lines_append_feeds`), with a carriage return in front of each line feed
(`lines_withReturns`), and with a line in front (`lines_append_feed`). The first steps of `lines`,
cutting at line feeds and dropping carriage returns, are followed byte by byte; the last one drops
the empty lines at the end, and lines that are put in front of others stay
(`dropEmptyTail_cons`). Lines that are joined to a text are its lines again, but for empty ones at
the end (`lines_joined`).
-/

namespace NodeCube.Text

/-! ## Capital letters -/

theorem toNat_upperByte (b : UInt8) : (upperByte b).toNat =
    if 97 ≤ b.toNat ∧ b.toNat ≤ 122 then b.toNat - 32 else b.toNat := by
  have hle : 97 ≤ b ∧ b ≤ 122 ↔ 97 ≤ b.toNat ∧ b.toNat ≤ 122 := by
    rw [UInt8.le_iff_toNat_le, UInt8.le_iff_toNat_le]
    rfl
  unfold upperByte
  simp only [hle]
  split
  · rename_i h
    exact UInt8.toNat_sub_of_le b 32 (UInt8.le_iff_toNat_le.mpr (Nat.le_trans (by decide) h.1))
  · rfl

theorem upperByte_upperByte (b : UInt8) : upperByte (upperByte b) = upperByte b := by
  apply UInt8.toNat_inj.mp
  rw [toNat_upperByte (upperByte b), toNat_upperByte b]
  split
  · rw [if_neg (by omega)]
  · rfl

/-- The bytes below the letters are left alone, and no other byte becomes one of them. -/
theorem upperByte_eq_iff {b c : UInt8} (hc : c.toNat < 65) : upperByte b = c ↔ b = c := by
  rw [← UInt8.toNat_inj, ← UInt8.toNat_inj, toNat_upperByte]
  split
  · omega
  · rfl

theorem upper_upper (s : Bytes) : upper (upper s) = upper s := by
  unfold upper
  rw [List.map_map]
  exact List.map_congr_left fun b _ => upperByte_upperByte b

theorem upper_eq_self {s : Bytes} (h : ∀ b ∈ s, upperByte b = b) : upper s = s :=
  (List.map_congr_left h).trans (List.map_id' s)

/-! ## Cutting at line feeds -/

theorem segments_append_feed (s t : Bytes) : segments (s ++ 10 :: t) = segments s ++ segments t := by
  induction s with
  | nil => rfl
  | cons b s ih =>
    rw [List.cons_append, segments, segments, ih]
    split
    · rfl
    · obtain ⟨x, xs, hs⟩ := List.exists_cons_of_ne_nil (segments_ne_nil s)
      rw [hs]
      rfl

theorem segments_of_not_mem {s : Bytes} (h : 10 ∉ s) : segments s = [s] := by
  induction s with
  | nil => rfl
  | cons b s ih =>
    obtain ⟨hb, hs⟩ := not_or.mp (mt List.mem_cons.mpr h)
    rw [segments, if_neg (Ne.symm hb), ih hs]
    rfl

theorem segments_append_feeds (s : Bytes) (n : Nat) :
    segments (s ++ List.replicate n 10) = segments s ++ List.replicate n [] := by
  induction n generalizing s with
  | zero => rw [List.replicate_zero, List.replicate_zero, List.append_nil, List.append_nil]
  | succ n ih =>
    have hone : segments (s ++ [10]) = segments s ++ [[]] := segments_append_feed s []
    rw [List.replicate_succ, List.append_cons, ih, hone, List.replicate_succ, ← List.append_cons]

theorem segments_upper (s : Bytes) : segments (upper s) = (segments s).map upper := by
  induction s with
  | nil => rfl
  | cons b s ih =>
    have hb : upperByte b = 10 ↔ b = 10 := upperByte_eq_iff (by decide)
    show segments (upperByte b :: upper s) = _
    rw [segments, segments, ih]
    simp only [hb]
    split
    · rfl
    · obtain ⟨x, xs, hs⟩ := List.exists_cons_of_ne_nil (segments_ne_nil s)
      rw [hs]
      rfl

/-! ## Carriage returns -/

theorem dropReturn_of_not_mem {line : Bytes} (h : 13 ∉ line) : dropReturn line = line :=
  if_neg fun hlast => h (List.mem_of_getLast? hlast)

theorem dropReturn_cons {b : UInt8} (h : b ≠ 13) (line : Bytes) :
    dropReturn (b :: line) = b :: dropReturn line := by
  cases line with
  | nil => exact dropReturn_of_not_mem (by simpa using Ne.symm h)
  | cons c line =>
    unfold dropReturn
    rw [List.getLast?_cons_cons, List.dropLast_cons_cons]
    split
    · rfl
    · rfl

theorem dropReturn_upper (line : Bytes) : dropReturn (upper line) = upper (dropReturn line) := by
  have hlast : (upper line).getLast? = some 13 ↔ line.getLast? = some 13 := by
    have h13 : ∀ b, upperByte b = 13 ↔ b = 13 := fun b => upperByte_eq_iff (by decide)
    simp only [upper, List.getLast?_map, Option.map_eq_some_iff, h13, exists_eq_right]
  unfold dropReturn
  simp only [hlast]
  split
  · exact (List.map_dropLast ..).symm
  · rfl

/-- The text with a carriage return in front of each line feed. -/
def withReturns (s : Bytes) : Bytes := s.flatMap fun b => if b = 10 then [13, 10] else [b]

/-- The carriage returns in front of line feeds are dropped again. -/
theorem map_dropReturn_withReturns {s : Bytes} (h : 13 ∉ s) :
    (segments (withReturns s)).map dropReturn = (segments s).map dropReturn := by
  induction s with
  | nil => rfl
  | cons b s ih =>
    obtain ⟨hb, hs⟩ := not_or.mp (mt List.mem_cons.mpr h)
    have htail := ih hs
    by_cases hfeed : b = 10
    · subst hfeed
      show [] :: (segments (withReturns s)).map dropReturn = [] :: (segments s).map dropReturn
      rw [htail]
    · have hcons : withReturns (b :: s) = b :: withReturns s := by
        simp only [withReturns, List.flatMap_cons, if_neg hfeed, List.singleton_append]
      -- the byte goes in front of the first segment, on both sides
      have hhead : ∀ t, (segments (b :: t)).map dropReturn =
          ((segments t).map dropReturn).modifyHead (b :: ·) := by
        intro t
        obtain ⟨x, xs, ht⟩ := List.exists_cons_of_ne_nil (segments_ne_nil t)
        rw [segments, if_neg hfeed, ht]
        show dropReturn (b :: x) :: _ = (b :: dropReturn x) :: _
        rw [dropReturn_cons (Ne.symm hb)]
      rw [hcons, hhead, hhead, htail]

/-! ## Empty lines at the end -/

theorem dropEmptyTail_append_empty (lines : List Bytes) (n : Nat) :
    dropEmptyTail (lines ++ List.replicate n []) = dropEmptyTail lines := by
  have hall : ∀ l ∈ List.replicate n ([] : Bytes), l.isEmpty = true := fun l hl => by
    rw [List.eq_of_mem_replicate hl]
    rfl
  unfold dropEmptyTail
  rw [List.reverse_append, List.reverse_replicate, List.dropWhile_append_of_pos hall]

theorem dropEmptyTail_map_upper (lines : List Bytes) :
    dropEmptyTail (lines.map upper) = (dropEmptyTail lines).map upper := by
  have hempty : List.isEmpty ∘ upper = List.isEmpty := by
    funext l
    cases l <;> rfl
  unfold dropEmptyTail
  rw [← List.map_reverse, List.dropWhile_map, hempty, List.map_reverse]

/-- What is dropped are empty lines. -/
theorem exists_eq_dropEmptyTail_append (lines : List Bytes) :
    ∃ n, lines = dropEmptyTail lines ++ List.replicate n [] := by
  refine ⟨(lines.reverse.takeWhile List.isEmpty).length, ?_⟩
  have htail : lines.reverse.takeWhile List.isEmpty =
      List.replicate (lines.reverse.takeWhile List.isEmpty).length [] :=
    List.eq_replicate_iff.mpr ⟨rfl, fun l hl =>
      List.isEmpty_iff.mp (List.all_eq_true.mp List.all_takeWhile l hl)⟩
  rw [dropEmptyTail, ← List.reverse_replicate, ← htail, ← List.reverse_append,
    List.takeWhile_append_dropWhile, List.reverse_reverse]

/-- A line stays if a line behind it does. -/
theorem dropEmptyTail_cons {lines : List Bytes} (h : dropEmptyTail lines ≠ []) (line : Bytes) :
    dropEmptyTail (line :: lines) = line :: dropEmptyTail lines := by
  unfold dropEmptyTail at h ⊢
  have hne : (lines.reverse.dropWhile List.isEmpty).isEmpty = false := by
    simpa using h
  rw [List.reverse_cons, List.dropWhile_append, hne]
  simp

theorem dropEmptyTail_singleton {line : Bytes} (h : line ≠ []) : dropEmptyTail [line] = [line] := by
  cases line with
  | nil => exact absurd rfl h
  | cons => rfl

/-! ## Lines -/

theorem lines_upper (s : Bytes) : lines (upper s) = (lines s).map upper := by
  unfold lines
  rw [segments_upper, ← dropEmptyTail_map_upper, List.map_map, List.map_map]
  congr 2
  funext l
  exact dropReturn_upper l

theorem lines_append_feeds (s : Bytes) (n : Nat) : lines (s ++ List.replicate n 10) = lines s := by
  unfold lines
  rw [segments_append_feeds, List.map_append, List.map_replicate]
  exact dropEmptyTail_append_empty _ n

theorem lines_withReturns {s : Bytes} (h : 13 ∉ s) : lines (withReturns s) = lines s := by
  unfold lines
  rw [map_dropReturn_withReturns h]

theorem lines_of_not_mem {s : Bytes} (hs : s ≠ []) (hfeed : 10 ∉ s) (hreturn : 13 ∉ s) :
    lines s = [s] := by
  unfold lines
  rw [segments_of_not_mem hfeed, List.map_singleton, dropReturn_of_not_mem hreturn,
    dropEmptyTail_singleton hs]

/-- A line in front of a text that has lines. -/
theorem lines_append_feed {line s : Bytes} (hs : lines s ≠ []) (hfeed : 10 ∉ line) :
    lines (line ++ 10 :: s) = dropReturn line :: lines s := by
  unfold lines at hs ⊢
  rw [segments_append_feed, segments_of_not_mem hfeed, List.singleton_append, List.map_cons,
    dropEmptyTail_cons hs]

/-- Line feeds in front of a text that has lines are empty lines. -/
theorem lines_feeds_append {s : Bytes} (hs : lines s ≠ []) (n : Nat) :
    lines (List.replicate n 10 ++ s) = List.replicate n [] ++ lines s := by
  induction n with
  | zero => rfl
  | succ n ih =>
    have hne : lines (List.replicate n 10 ++ s) ≠ [] := by
      rw [ih]
      exact fun h => hs (List.append_eq_nil_iff.mp h).2
    show lines ([] ++ 10 :: (List.replicate n 10 ++ s)) = _
    rw [lines_append_feed hne List.not_mem_nil, ih]
    rfl

/-! ## Joined lines -/

/-- What can stand on a line as it is: no line feed, and no carriage return at the end. -/
def IsLine (line : Bytes) : Prop := 10 ∉ line ∧ line.getLast? ≠ some 13

instance : DecidablePred IsLine := fun line =>
  inferInstanceAs (Decidable (10 ∉ line ∧ line.getLast? ≠ some 13))

/-- The text with a line feed between each two lines. -/
def joined (lines : List Bytes) : Bytes := [10].intercalate lines

theorem segments_joined {lines : List Bytes} (hne : lines ≠ []) (h : ∀ line ∈ lines, 10 ∉ line) :
    segments (joined lines) = lines := by
  induction lines with
  | nil => exact absurd rfl hne
  | cons line rest ih =>
    have hline := segments_of_not_mem (h line List.mem_cons_self)
    cases rest with
    | nil => rw [joined, List.intercalate_singleton, hline]
    | cons next rest =>
      have hrest := ih (by simp) fun l hl => h l (List.mem_cons_of_mem _ hl)
      rw [joined, List.intercalate_cons_cons, List.append_assoc, List.singleton_append,
        segments_append_feed, hline]
      exact congrArg (line :: ·) hrest

/-- The lines of a text of joined lines. -/
theorem lines_joined {lines : List Bytes} (h : ∀ line ∈ lines, IsLine line) :
    Text.lines (joined lines) = dropEmptyTail lines := by
  cases lines with
  | nil => rfl
  | cons line rest =>
    have hkept : (line :: rest).map dropReturn = line :: rest :=
      (List.map_congr_left fun l hl => if_neg (h l hl).2).trans (List.map_id' _)
    rw [Text.lines, segments_joined (by simp) fun l hl => (h l hl).1, hkept]

end NodeCube.Text
