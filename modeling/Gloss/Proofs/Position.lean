import Gloss.Proofs.Driving
import Gloss.Proofs.Lines
import Gloss.SourceFile
/-!
# Lines and columns

A text in front of an offset is some full lines and then a row that the offset
stands in (`Text.Rows`). From that comes where the offset is: its line is one more
than the full lines, its column one more than the characters of the row
(`position_of_rows`). The table of line starts is cut by an offset into those at
or before it and those behind it, and bisection finds the place of the cut
(`bisect_eq`, `bisect_lineStarts`). `line_and_column` says it of every offset of a
file, those inside a character included.
-/

namespace Gloss

namespace Text

/-! ## Full lines and the row behind them -/

/-- The text is these lines, each with its line feed, and then a row without one. -/
structure Rows (s : Text) (ls : List Text) (row : Text) : Prop where
  join : s = ls.flatten ++ row
  full : ∀ l ∈ ls, ∃ body, l = body ++ ['\n'] ∧ '\n' ∉ body
  unended : '\n' ∉ row

theorem exists_rows (s : Text) : ∃ ls row, Rows s ls row := by
  induction s using byLines with
  | nil => exact ⟨[], [], rfl, by simp, by simp⟩
  | last s _ hs => exact ⟨[], s, rfl, by simp, hs⟩
  | line a s ha ih =>
    obtain ⟨ls, row, rfl, hfull, hrow⟩ := ih
    refine ⟨(a ++ ['\n']) :: ls, row, by simp, ?_, hrow⟩
    intro l hl
    rcases List.mem_cons.1 hl with rfl | hl
    · exact ⟨a, rfl, ha⟩
    · exact hfull l hl

namespace Rows
variable {s t row : Text} {ls : List Text}

theorem count_feed (h : Rows s ls row) : s.count '\n' = ls.length := by
  obtain ⟨rfl, hfull, hrow⟩ := h
  rw [List.count_append, List.count_eq_zero.2 hrow, Nat.add_zero]
  induction ls with
  | nil => rfl
  | cons l ls ih =>
    obtain ⟨body, rfl, hbody⟩ := hfull l (List.mem_cons_self ..)
    rw [List.flatten_cons, List.count_append, ih fun l hl => hfull l (List.mem_cons_of_mem _ hl),
      List.count_append, List.count_eq_zero.2 hbody, List.length_cons]
    simp [Nat.add_comm]

/-- More of the same row. -/
theorem append (h : Rows s ls row) (ht : '\n' ∉ t) : Rows (s ++ t) ls (row ++ t) where
  join := by rw [h.join, List.append_assoc]
  full := h.full
  unended := by
    rw [List.mem_append, not_or]
    exact ⟨h.unended, ht⟩

/-- The first of the lines, with nothing behind them. -/
theorem take (h : Rows s ls row) (n : Nat) : Rows (ls.take n).flatten (ls.take n) [] where
  join := (List.append_nil _).symm
  full l hl := h.full l (List.mem_of_mem_take hl)
  unended := List.not_mem_nil

end Rows

/-! ## Line feeds among bytes -/

/-- A byte of a character is the whole character or has its high bit set. -/
theorem byte_cases {c : Char} {b : UInt8} (h : b ∈ String.utf8EncodeChar c) :
    b.toNat = c.toNat ∨ 128 ≤ b.toNat := by
  have low : ∀ n, n < 256 → (UInt8.ofNat n).toNat = n := fun n hn => UInt8.toNat_ofNat_of_lt' hn
  unfold String.utf8EncodeChar at h
  dsimp only at h
  split at h
  · rename_i hc
    left
    rw [List.mem_singleton.1 h, low _ (by omega)]
    rfl
  -- two, three and four bytes: each carries a mark of at least 128
  right
  split at h
  · simp only [List.mem_cons, List.not_mem_nil, or_false] at h
    rcases h with rfl | rfl <;> rw [low _ (by omega)] <;> omega
  split at h
  · simp only [List.mem_cons, List.not_mem_nil, or_false] at h
    rcases h with rfl | rfl | rfl <;> rw [low _ (by omega)] <;> omega
  · simp only [List.mem_cons, List.not_mem_nil, or_false] at h
    rcases h with rfl | rfl | rfl | rfl <;> rw [low _ (by omega)] <;> omega

/-- The bytes of a text. -/
def bytes (s : Text) : List UInt8 := (String.ofList s).toByteArray.data.toList

theorem bytes_append (s t : Text) : bytes (s ++ t) = bytes s ++ bytes t := by
  unfold bytes
  simp only [String.toByteArray_ofList, List.utf8Encode_append, ByteArray.data_append,
    Array.toList_append]

theorem bytes_cons (c : Char) (s : Text) : bytes (c :: s) = String.utf8EncodeChar c ++ bytes s := by
  unfold bytes
  simp only [String.toByteArray_ofList]
  rw [List.utf8Encode_cons, List.utf8Encode_singleton, ByteArray.data_append, Array.toList_append,
    List.data_toByteArray]

theorem length_bytes (s : Text) : (bytes s).length = width s := by
  unfold bytes
  rw [String.toByteArray_ofList]
  exact size_utf8Encode s

theorem feed_not_mem_bytes {c : Char} (hc : c ≠ '\n') : '\n'.toUInt8 ∉ String.utf8EncodeChar c := by
  intro h
  have hten : '\n'.toUInt8.toNat = '\n'.toNat := by decide
  rcases byte_cases h with he | hle
  · exact hc (Char.toNat_inj.1 (he.symm.trans hten))
  · exact absurd hle (by decide)

theorem count_bytes (s : Text) : (bytes s).count '\n'.toUInt8 = s.count '\n' := by
  induction s with
  | nil => rfl
  | cons c s ih =>
    rw [bytes_cons, List.count_append, ih]
    by_cases hc : c = '\n'
    · subst hc
      rw [List.count_cons_self, Nat.add_comm]
      rfl
    · rw [List.count_eq_zero.2 (feed_not_mem_bytes hc), List.count_cons_of_ne hc, Nat.zero_add]

/-- The part of a text between the widths of two of its prefixes. -/
theorem slice?_append (a b c : Text) :
    slice? (width a) (width a + width b) (a ++ (b ++ c)) = some b := by
  unfold slice?
  rw [splitAt?_width_append, Nat.add_sub_cancel_left]
  dsimp only [Option.bind_eq_bind, Option.bind_some]
  rw [splitAt?_width_append]
  rfl

end Text

/-! ## The characters in front of an offset -/

/-- The offset stands behind `before`, no further than inside the next character. -/
structure Text.CutAt (before after : Text) (offset : Nat) : Prop where
  le : width before ≤ offset
  lt : ∀ c s, after = c :: s → offset < width before + c.utf8Size

namespace Text
variable {s before after : Text} {offset : Nat}

theorem cutAt_width (before after : Text) : CutAt before after (width before) where
  le := Nat.le_refl _
  lt c _ _ := Nat.lt_add_of_pos_right c.utf8Size_pos

theorem exists_cutAt (s : Text) (offset : Nat) (h : offset ≤ width s) :
    ∃ before after, s = before ++ after ∧ CutAt before after offset := by
  induction s generalizing offset with
  | nil =>
    refine ⟨[], [], rfl, Nat.zero_le _, ?_⟩
    intro c s he
    cases he
  | cons c s ih =>
    by_cases hc : offset < c.utf8Size
    · refine ⟨[], c :: s, rfl, Nat.zero_le _, ?_⟩
      intro d t he
      obtain ⟨rfl, rfl⟩ := List.cons.inj he
      simpa using hc
    · rw [width_cons] at h
      obtain ⟨before, after, rfl, hw⟩ := ih (offset - c.utf8Size) (by omega)
      refine ⟨c :: before, after, rfl, ?_, ?_⟩
      · have := hw.le
        rw [width_cons]
        omega
      · intro d t he
        have := hw.lt d t he
        rw [width_cons]
        omega

/-- Bytes of half a character hold no line feed. -/
theorem count_take_bytes (h : CutAt before after offset) :
    ((bytes (before ++ after)).take offset).count '\n'.toUInt8 = before.count '\n' := by
  have hle := h.le
  rw [bytes_append, List.take_append, length_bytes, List.take_of_length_le (by rwa [length_bytes]),
    List.count_append, count_bytes, Nat.add_eq_left, List.count_eq_zero]
  rcases after with _ | ⟨c, s⟩
  · simp [bytes]
  · have hlt := h.lt c s rfl
    have hsize := String.length_utf8EncodeChar c
    rw [bytes_cons, List.take_append_of_le_length (by omega)]
    intro hmem
    by_cases hc : c = '\n'
    · subst hc
      rw [show offset - width before = 0 by
        have : '\n'.utf8Size = 1 := by decide
        omega] at hmem
      simp at hmem
    · exact feed_not_mem_bytes hc (List.mem_of_mem_take hmem)

end Text

/-! ## The table of line starts -/

theorem lineStartsFrom_append (offset : Nat) (s t : Text) :
    lineStartsFrom offset (s ++ t) =
      lineStartsFrom offset s ++ lineStartsFrom (offset + Text.width s) t := by
  induction s generalizing offset with
  | nil => rfl
  | cons c s ih =>
    simp only [List.cons_append, lineStartsFrom, ih, Text.width_cons, Nat.add_assoc]
    split <;> rfl

theorem lt_of_mem_lineStartsFrom {offset n : Nat} {s : Text} (h : n ∈ lineStartsFrom offset s) :
    offset < n ∧ n ≤ offset + Text.width s := by
  induction s generalizing offset with
  | nil => cases h
  | cons c s ih =>
    have hc := c.utf8Size_pos
    rw [Text.width_cons]
    unfold lineStartsFrom at h
    dsimp only at h
    split at h
    · rcases List.mem_cons.1 h with rfl | h
      · omega
      · have := ih h
        omega
    · have := ih h
      omega

theorem pairwise_lineStartsFrom (offset : Nat) (s : Text) :
    (lineStartsFrom offset s).Pairwise (· < ·) := by
  induction s generalizing offset with
  | nil => exact .nil
  | cons c s ih =>
    unfold lineStartsFrom
    dsimp only
    split
    · exact .cons (fun n hn => (lt_of_mem_lineStartsFrom hn).1) (ih _)
    · exact ih _

theorem pairwise_lineStarts (s : Text) : (lineStarts s).Pairwise (· < ·) :=
  .cons (fun _ hn => (lt_of_mem_lineStartsFrom hn).1) (pairwise_lineStartsFrom 0 s)

theorem length_lineStartsFrom (offset : Nat) (s : Text) :
    (lineStartsFrom offset s).length = s.count '\n' := by
  induction s generalizing offset with
  | nil => rfl
  | cons c s ih =>
    unfold lineStartsFrom
    dsimp only
    split
    · rename_i hc
      rw [List.length_cons, ih, hc, List.count_cons_self]
    · rename_i hc
      rw [ih, List.count_cons_of_ne hc]

theorem lineStartsFrom_of_not_mem {s : Text} (h : '\n' ∉ s) (offset : Nat) :
    lineStartsFrom offset s = [] := by
  rw [List.eq_nil_iff_length_eq_zero, length_lineStartsFrom, List.count_eq_zero]
  exact h

/-- Line starts behind a cut come after it. -/
theorem lt_of_mem_behind {before after : Text} {offset n : Nat}
    (h : Text.CutAt before after offset) (hn : n ∈ lineStartsFrom (Text.width before) after) :
    offset < n := by
  rcases after with _ | ⟨c, s⟩
  · cases hn
  · have hlt := h.lt c s rfl
    unfold lineStartsFrom at hn
    dsimp only at hn
    split at hn
    · rcases List.mem_cons.1 hn with rfl | hn
      · exact hlt
      · exact Nat.lt_trans hlt (lt_of_mem_lineStartsFrom hn).1
    · exact Nat.lt_trans hlt (lt_of_mem_lineStartsFrom hn).1

/-- So many full lines further on stands the start of the next line. -/
theorem getElem?_lineStarts {s row : Text} {ls : List Text} (h : Text.Rows s ls row) (t : Text)
    (offset : Nat) :
    (offset :: lineStartsFrom offset (ls.flatten ++ t))[ls.length]? =
      some (offset + Text.width ls.flatten) := by
  have hfull := h.full
  clear h
  induction ls generalizing offset with
  | nil => rfl
  | cons l ls ih =>
    obtain ⟨body, rfl, hbody⟩ := hfull l (List.mem_cons_self ..)
    have hstart : lineStartsFrom offset (((body ++ ['\n']) :: ls).flatten ++ t) =
        (offset + Text.width (body ++ ['\n'])) ::
          lineStartsFrom (offset + Text.width (body ++ ['\n'])) (ls.flatten ++ t) := by
      simp only [List.flatten_cons, List.append_assoc, lineStartsFrom_append offset body,
        lineStartsFrom_of_not_mem hbody]
      simp [lineStartsFrom, Nat.add_assoc]
    rw [hstart, List.length_cons, List.getElem?_cons_succ,
      ih _ (fun l hl => hfull l (List.mem_cons_of_mem _ hl)), List.flatten_cons, Text.width_append _ ls.flatten,
      Nat.add_assoc]

/-! ## Bisection -/

namespace SourceFile

section Bisection
variable {front back : List Nat} {offset : Nat}

theorem getD_le_iff (hfront : ∀ n ∈ front, n ≤ offset) (hback : ∀ n ∈ back, offset < n) {i : Nat}
    (hi : i < (front ++ back).length) :
    (front ++ back).toArray.getD i 0 ≤ offset ↔ i < front.length := by
  rw [Array.getD_eq_getD_getElem?, List.getElem?_toArray, List.getElem?_eq_getElem hi,
    Option.getD_some]
  by_cases h : i < front.length
  · rw [List.getElem_append_left h]
    exact iff_of_true (hfront _ (List.getElem_mem h)) h
  · rw [List.getElem_append_right (Nat.not_lt.1 h)]
    exact iff_of_false (Nat.not_le.2 (hback _ (List.getElem_mem _))) h

/-- Where what is at most `offset` stands in front of what is more, bisection finds
the last of it. -/
theorem bisect_eq (hfront : ∀ n ∈ front, n ≤ offset) (hback : ∀ n ∈ back, offset < n) {lo hi : Nat}
    (hlo : lo < front.length) (hhi : front.length ≤ hi) (hsize : hi ≤ (front ++ back).length) :
    bisect (front ++ back).toArray offset lo hi + 1 = front.length := by
  -- the place looked for stays from `lo` on and before `hi`
  fun_induction bisect (front ++ back).toArray offset lo hi with
  | case1 lo hi hlt mid hmid ih =>
    rw [getD_le_iff hfront hback (by omega)] at hmid
    exact ih hmid hhi hsize
  | case2 lo hi hlt mid hmid ih =>
    rw [getD_le_iff hfront hback (by omega)] at hmid
    exact ih hlo (by omega) (by omega)
  | case3 lo hi hlt => omega

end Bisection

/-! ## Where an offset is -/

variable {f : SourceFile} {before after row : Text} {ls : List Text} {offset : Nat}

theorem bisect_lineStarts (hf : f.text = before ++ after)
    (hcut : Text.CutAt before after offset) :
    bisect f.starts offset 0 f.starts.size = before.count '\n' := by
  have htable : lineStarts f.text =
      (0 :: lineStartsFrom 0 before) ++ lineStartsFrom (Text.width before) after := by
    rw [hf, lineStarts, lineStartsFrom_append, Nat.zero_add]
    rfl
  have hfront : ∀ n ∈ 0 :: lineStartsFrom 0 before, n ≤ offset := by
    intro n hn
    have hle := hcut.le
    rcases List.mem_cons.1 hn with rfl | hn
    · omega
    · have := (lt_of_mem_lineStartsFrom hn).2
      omega
  have hlength : (0 :: lineStartsFrom 0 before).length = before.count '\n' + 1 := by
    rw [List.length_cons, length_lineStartsFrom]
  have hsize : f.starts.size = (0 :: lineStartsFrom 0 before).length +
      (lineStartsFrom (Text.width before) after).length := by
    rw [f.starts_eq, htable, List.size_toArray, List.length_append]
  have h : bisect _ offset 0 f.starts.size + 1 = _ :=
    bisect_eq hfront (fun n => lt_of_mem_behind hcut) (by omega) (by omega)
      (by rw [List.length_append]; omega)
  rw [← htable, ← f.starts_eq, hlength] at h
  omega

/-- The line of an offset is one more than the line feeds in front of it. -/
theorem fst_position (hf : f.text = before ++ after) (hcut : Text.CutAt before after offset)
    (hle : offset ≤ Text.width f.text) : (f.position offset).1 = before.count '\n' + 1 := by
  unfold position
  dsimp only
  rw [Nat.min_eq_left hle, bisect_lineStarts hf hcut]

theorem lineStart?_of_rows (hf : f.text = ls.flatten ++ after) (h : Text.Rows before ls row) :
    f.lineStart? ls.length = some (Text.width ls.flatten) := by
  unfold lineStart?
  rw [f.starts_eq, hf, List.getElem?_toArray, lineStarts, getElem?_lineStarts h, Nat.zero_add]

/-- An offset behind full lines and a row is in that row. -/
theorem position_of_rows (hf : f.text = before ++ after) (h : Text.Rows before ls row) :
    f.position (Text.width before) = (ls.length + 1, row.length + 1) := by
  have hjoin := h.join
  have hle : Text.width before ≤ Text.width f.text := by
    rw [hf, Text.width_append]
    omega
  have hline : bisect f.starts (Text.width before) 0 f.starts.size = ls.length := by
    rw [bisect_lineStarts hf (Text.cutAt_width before after), h.count_feed]
  have hf' : f.text = ls.flatten ++ (row ++ after) := by
    rw [hf, hjoin, List.append_assoc]
  have hstart : f.starts.getD ls.length 0 = Text.width ls.flatten := by
    have := lineStart?_of_rows hf' h
    unfold lineStart? at this
    rw [Array.getD_eq_getD_getElem?, this, Option.getD_some]
  have hslice : Text.slice? (Text.width ls.flatten) (Text.width before) f.text = some row := by
    rw [hjoin, Text.width_append, hf']
    exact Text.slice?_append _ _ _
  unfold position
  dsimp only
  rw [Nat.min_eq_left hle, hline, hstart, hslice]
  rfl

/-- Further on in the text is further on in lines and columns. -/
theorem position_lt {between : Text} (hf : f.text = before ++ (between ++ after))
    (hne : between ≠ []) :
    Prod.Lex (· < ·) (· < ·) (f.position (Text.width before))
      (f.position (Text.width (before ++ between))) := by
  have hf' : f.text = (before ++ between) ++ after := by rw [hf, List.append_assoc]
  obtain ⟨ls, row, h⟩ := Text.exists_rows before
  rw [position_of_rows hf h]
  by_cases hfeed : '\n' ∈ between
  · obtain ⟨ls', row', h'⟩ := Text.exists_rows (before ++ between)
    rw [position_of_rows hf' h']
    have hcount := h'.count_feed
    have hpos := List.count_pos_iff.2 hfeed
    rw [List.count_append, h.count_feed] at hcount
    exact .left _ _ (by omega)
  · rw [position_of_rows hf' (h.append hfeed)]
    have hpos := List.length_pos_iff.2 hne
    refine .right _ ?_
    rw [List.length_append]
    omega

/-! ## The lines of a file -/

/-- A line with its line feed, from its start to the start of the next line or the
end of the text; lines count from 0 here. -/
def row? (f : SourceFile) (line : Nat) : Option Text := do
  let start ← f.lineStart? line
  Text.slice? start ((f.lineStart? (line + 1)).getD (Text.width f.text)) f.text

/-- The offset at a line and column: as many characters less one behind the start
of the line. -/
def offset? (f : SourceFile) (place : Nat × Nat) : Option Nat := do
  let start ← f.lineStart? (place.1 - 1)
  let (_, rest) ← Text.splitAt? start f.text
  return start + Text.width (rest.take (place.2 - 1))

theorem lineCount_eq (f : SourceFile) : f.lineCount = 1 + f.text.count '\n' := by
  unfold lineCount
  rw [f.starts_eq, List.size_toArray, lineStarts, List.length_cons, length_lineStartsFrom,
    Nat.add_comm]

theorem lineStart?_eq_none_iff {i : Nat} : f.lineStart? i = none ↔ f.lineCount ≤ i := by
  unfold lineStart? lineCount
  rw [Array.getElem?_eq_none_iff]

/-- The full lines of a file and the row behind them, by their places. -/
theorem getElem?_rows (h : Text.Rows f.text ls row) (i : Nat) : (ls ++ [row])[i]? = f.row? i := by
  have hcount : f.lineCount = ls.length + 1 := by
    rw [lineCount_eq, h.count_feed, Nat.add_comm]
  have hjoin : (ls ++ [row]).flatten = f.text := by
    rw [h.join, List.flatten_append, List.flatten_singleton]
  have hstart : ∀ j ≤ ls.length,
      f.lineStart? j = some (Text.width ((ls ++ [row]).take j).flatten) := by
    intro j hj
    rw [List.take_append_of_le_length hj]
    have hf : f.text = (ls.take j).flatten ++ ((ls.drop j).flatten ++ row) := by
      rw [← List.append_assoc, ← List.flatten_append, List.take_append_drop, ← h.join]
    have := lineStart?_of_rows hf (h.take j)
    rwa [List.length_take, Nat.min_eq_left hj] at this
  by_cases hi : i < (ls ++ [row]).length
  · have hi' : i ≤ ls.length := by
      rw [List.length_append, List.length_singleton] at hi
      omega
    have hnext : ((ls ++ [row]).take (i + 1)).flatten =
        ((ls ++ [row]).take i).flatten ++ (ls ++ [row])[i] := by
      rw [← List.take_append_getElem hi, List.flatten_append, List.flatten_singleton]
    -- the row ends where the next one starts, the last one with the text
    have hstop : (f.lineStart? (i + 1)).getD (Text.width f.text) =
        Text.width ((ls ++ [row]).take (i + 1)).flatten := by
      rcases Nat.lt_or_eq_of_le hi' with hlt | rfl
      · rw [hstart _ hlt, Option.getD_some]
      · rw [lineStart?_eq_none_iff.2 (by omega), Option.getD_none, List.take_of_length_le (by simp),
          hjoin]
    have hf : f.text = ((ls ++ [row]).take i).flatten ++
        ((ls ++ [row])[i] ++ ((ls ++ [row]).drop (i + 1)).flatten) := by
      rw [← List.append_assoc, ← hnext, ← List.flatten_append, List.take_append_drop, hjoin]
    unfold row?
    rw [hstart i hi', hstop, hnext, List.getElem?_eq_getElem hi, Text.width_append]
    conv => rhs; rw [hf]
    exact (Text.slice?_append _ _ _).symm
  · have hnone : f.lineStart? i = none := by
      rw [lineStart?_eq_none_iff, hcount]
      simpa using hi
    unfold row?
    rw [List.getElem?_eq_none (Nat.not_lt.1 hi), hnone]
    rfl

/-! ## Main result -/

/-- An offset between two characters has the line whose start it is behind, and the
column that leads from there back to it. -/
theorem position_reads_back {o : Nat} (ho : f.text.Boundary o) :
    (∃ start mid, f.lineStart? ((f.position o).1 - 1) = some start ∧ start ≤ o ∧
      Text.slice? start o f.text = some mid ∧ (f.position o).2 = 1 + mid.length) ∧
    f.offset? (f.position o) = some o := by
  obtain ⟨before, after, hf, rfl⟩ := ho
  obtain ⟨ls, row, h⟩ := Text.exists_rows before
  have hf' : f.text = ls.flatten ++ (row ++ after) := by
    rw [hf, h.join, List.append_assoc]
  have hstart := lineStart?_of_rows hf' h
  rw [position_of_rows hf h, h.join, Text.width_append]
  refine ⟨⟨_, row, hstart, Nat.le_add_right _ _, ?_, Nat.add_comm _ _⟩, ?_⟩
  · rw [hf']
    exact Text.slice?_append _ _ _
  · unfold offset?
    dsimp only
    rw [Nat.add_sub_cancel, Nat.add_sub_cancel, hstart]
    dsimp only [Option.bind_eq_bind, Option.bind_some]
    rw [hf', Text.splitAt?_width_append]
    simp

/-- Every offset of a file has the line that the line feeds among the bytes in front
of it say, and between two characters the column that the characters from the start
of its line say. Lines and columns come in the order of the offsets. The lines of
the table are the lines of the text. -/
theorem line_and_column (f : SourceFile) :
    (∀ offset, (f.position offset).1 =
      1 + ((Text.bytes f.text).take (min offset (Text.width f.text))).count '\n'.toUInt8) ∧
    (∀ o, f.text.Boundary o →
      (∃ start mid, f.lineStart? ((f.position o).1 - 1) = some start ∧ start ≤ o ∧
        Text.slice? start o f.text = some mid ∧ (f.position o).2 = 1 + mid.length) ∧
      f.offset? (f.position o) = some o) ∧
    (∀ o o', f.text.Boundary o → f.text.Boundary o' → o < o' →
      Prod.Lex (· < ·) (· < ·) (f.position o) (f.position o')) ∧
    f.starts.toList.Pairwise (· < ·) ∧
    f.lineCount = 1 + f.text.count '\n' ∧
    ∃ rows : List Text, rows.length = f.lineCount ∧ (∀ i, rows[i]? = f.row? i) ∧
      rows.flatten = f.text := by
  refine ⟨?_, fun o => position_reads_back, ?_, ?_, lineCount_eq f, ?_⟩
  · intro offset
    have hclamp : f.position offset = f.position (min offset (Text.width f.text)) := by
      unfold position
      rw [Nat.min_assoc, Nat.min_self]
    obtain ⟨before, after, hf, hcut⟩ :=
      Text.exists_cutAt f.text (min offset (Text.width f.text)) (Nat.min_le_right _ _)
    rw [hclamp, fst_position hf hcut (Nat.min_le_right _ _)]
    have hcount := Text.count_take_bytes hcut
    rw [← hf] at hcount
    rw [hcount, Nat.add_comm]
  · rintro o o' ⟨a, b, hf, rfl⟩ ⟨c, d, hf', rfl⟩ hlt
    obtain ⟨m, hm, rfl, rfl⟩ := Rules.exists_between (hf.symm.trans hf') hlt
    exact position_lt hf hm
  · rw [f.starts_eq]
    exact pairwise_lineStarts f.text
  · obtain ⟨ls, row, h⟩ := Text.exists_rows f.text
    refine ⟨ls ++ [row], ?_, getElem?_rows h, ?_⟩
    · rw [lineCount_eq, h.count_feed, List.length_append, List.length_singleton, Nat.add_comm]
    · rw [h.join, List.flatten_append, List.flatten_singleton]

/-- The line of an offset inside a character, and an offset behind an empty line. -/
theorem line_and_column_accent :
    ∃ f : SourceFile, f.text = ['é', '\n', '\n', 'b'] ∧
      (f.position 1).1 = 1 + ((Text.bytes f.text).take (min 1 (Text.width f.text))).count '\n'.toUInt8 ∧
      f.text.Boundary 2 ∧ f.text.Boundary 4 ∧ f.position 4 = (3, 1) ∧
      f.offset? (f.position 4) = some 4 ∧
      Prod.Lex (· < ·) (· < ·) (f.position 2) (f.position 4) := by
  have h := line_and_column (.ofText "accent" ['é', '\n', '\n', 'b'])
  have h2 : Text.Boundary ['é', '\n', '\n', 'b'] 2 := ⟨['é'], ['\n', '\n', 'b'], rfl, rfl⟩
  have h4 : Text.Boundary ['é', '\n', '\n', 'b'] 4 := ⟨['é', '\n', '\n'], ['b'], rfl, rfl⟩
  exact ⟨_, rfl, h.1 1, h2, h4, by decide +kernel, (h.2.1 4 h4).2, h.2.2.1 2 4 h2 h4 (by decide)⟩

end SourceFile
end Gloss
