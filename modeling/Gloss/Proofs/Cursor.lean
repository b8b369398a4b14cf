import Gloss.Cursor
import Gloss.Proofs.Construct
/-!
# Where a cursor stands

`Cursor.between before rest` stands in the text `before ++ rest` where `rest`
starts. What such a cursor answers is said of the characters of `rest`: the
bytes below 128 and the comparison of bytes read nothing else
(`current_between`, `startsWith_between`), and every move of a scanner leads to
such a cursor again (`advance?_between`, `advanceLineAware?_between`,
`skip_between`).
-/

namespace Gloss

/-! ## UTF-8 -/

namespace Text

@[simp] theorem size_utf8Encode (s : Text) : s.utf8Encode.size = width s := by
  induction s with
  | nil => rfl
  | cons c s ih =>
    rw [List.utf8Encode_cons, ByteArray.size_append, ih, List.utf8Encode_singleton,
      List.size_toByteArray, String.length_utf8EncodeChar, width_cons]

/-- A first byte below 128 is the whole character. -/
theorem exists_utf8EncodeChar (c : Char) :
    ∃ b bs, String.utf8EncodeChar c = b :: bs ∧ (b < 128 → Char.ofNat b.toNat = c ∧ bs = []) := by
  have lead : ∀ n, 128 ≤ n → n < 256 → ¬ UInt8.ofNat n < 128 := by
    intro n hn hs h
    rw [UInt8.lt_iff_toNat_lt, UInt8.toNat_ofNat_of_lt' hs] at h
    exact absurd h (Nat.not_lt.2 hn)
  unfold String.utf8EncodeChar
  dsimp only
  split
  · rename_i h
    refine ⟨_, _, rfl, fun _ => ⟨?_, rfl⟩⟩
    rw [UInt8.toNat_ofNat_of_lt' (Nat.lt_of_le_of_lt h (by decide))]
    exact Char.ofNat_toNat c
  -- two, three and four bytes: the first one carries a mark of at least 192
  split
  · exact ⟨_, _, rfl, fun h => absurd h (lead _ (by omega) (by omega))⟩
  split
  · exact ⟨_, _, rfl, fun h => absurd h (lead _ (by omega) (by omega))⟩
  · exact ⟨_, _, rfl, fun h => absurd h (lead _ (by omega) (by omega))⟩

/-- One text starts with another when its bytes do. -/
theorem prefix_iff_extract {token s : Text} :
    token <+: s ↔ s.utf8Encode.extract 0 token.utf8Encode.size = token.utf8Encode := by
  constructor
  · rintro ⟨t, rfl⟩
    rw [List.utf8Encode_append]
    exact ByteArray.extract_append_eq_left rfl
  · intro h
    have hs := congrArg ByteArray.size h
    rw [ByteArray.size_extract] at hs
    apply List.isPrefix_of_utf8Encode_append_eq_utf8Encode
      (s.utf8Encode.extract token.utf8Encode.size s.utf8Encode.size)
    conv => lhs; lhs; rw [← h]
    rw [ByteArray.extract_append_extract, Nat.zero_min, Nat.max_eq_right (by omega),
      ByteArray.extract_zero_size]

end Text

theorem beq_bytes {a b : ByteArray} : (a == b) = true ↔ a = b := by
  show (a.data == b.data) = true ↔ a = b
  rw [beq_iff_eq, ByteArray.ext_iff]

namespace Cursor
variable {before rest s : Text} {c : Char}

/-- The cursor where `before` ends and `rest` starts. -/
def between (before rest : Text) : Cursor := ⟨String.ofList (before ++ rest), Text.width before⟩

@[simp] theorem position_between : (between before rest).position = Text.width before := rfl

/-- The same text with a cursor further on. -/
theorem between_append (a b c : Text) :
    between (a ++ b) c = { between a (b ++ c) with position := Text.width a + Text.width b } := by
  rw [between, List.append_assoc, Text.width_append]
  rfl

/-! ## Bytes -/

theorem bytes_between : (between before rest).bytes = before.utf8Encode ++ rest.utf8Encode := by
  rw [bytes, between, String.toByteArray_ofList, List.utf8Encode_append]

@[simp] theorem size_bytes_between :
    (between before rest).bytes.size = Text.width before + Text.width rest := by
  rw [bytes_between, ByteArray.size_append, Text.size_utf8Encode, Text.size_utf8Encode]

theorem extract_between (n : Nat) :
    (between before rest).bytes.extract (Text.width before) (Text.width before + n) =
      rest.utf8Encode.extract 0 n := by
  have h := ByteArray.extract_append_size_add' (b := rest.utf8Encode) (i := 0) (j := n)
    (Text.size_utf8Encode before).symm
  rwa [Nat.add_zero, ← bytes_between] at h

/-- The byte a cursor stands at is the first one of its character. -/
theorem getElem?_between {b : UInt8} {bs : List UInt8} (h : String.utf8EncodeChar c = b :: bs) :
    (between before (c :: s)).bytes.data[Text.width before]? = some b := by
  have hs : before.utf8Encode.data.size = Text.width before := Text.size_utf8Encode before
  rw [bytes_between, ByteArray.data_append, Array.getElem?_append_right (Nat.le_of_eq hs), hs,
    Nat.sub_self, List.utf8Encode_cons, List.utf8Encode_singleton, h, ByteArray.data_append,
    List.data_toByteArray, Array.getElem?_append_left (by simp)]
  rfl

theorem utf8DecodeChar?_between :
    (between before (c :: s)).bytes.utf8DecodeChar? (Text.width before) = some c := by
  rw [ByteArray.utf8DecodeChar?_eq_utf8DecodeChar?_extract, bytes_between,
    ByteArray.extract_append_eq_right (Text.size_utf8Encode before).symm
      (by rw [ByteArray.size_append, Text.size_utf8Encode]),
    List.utf8DecodeChar?_utf8Encode_cons]

/-! ## What a cursor reads -/

@[simp] theorem atEnd_between : (between before rest).atEnd = rest.isEmpty := by
  rw [atEnd, size_bytes_between, position_between]
  cases rest with
  | nil => simp
  | cons c s =>
    have := Text.width_pos (List.cons_ne_nil c s)
    simp only [List.isEmpty_cons, decide_eq_false_iff_not]
    omega

@[simp] theorem current_between : (between before rest).current = rest.head?.getD '\x00' := by
  rw [current, charFrom, position_between]
  cases rest with
  | nil =>
    have hs : (between before []).bytes.data.size = Text.width before := size_bytes_between
    rw [Array.getElem?_eq_none (Nat.le_of_eq hs)]
    rfl
  | cons c s =>
    obtain ⟨b, bs, hc, hb⟩ := Text.exists_utf8EncodeChar c
    rw [getElem?_between hc]
    dsimp only
    split
    · exact (hb ‹_›).1
    · rw [utf8DecodeChar?_between]
      rfl

/-- Behind a character of one byte stands the next character. -/
theorem second_between (hc : c.utf8Size = 1) :
    (between before (c :: s)).second = s.head?.getD '\x00' := by
  have h : (between (before ++ [c]) s).current = s.head?.getD '\x00' := current_between
  rw [between_append, current] at h
  dsimp only at h
  rw [Text.width_cons, Text.width_nil, hc] at h
  exact h

/-- What `atLineEnd` and `advanceLineAware?` look for. -/
theorem return_feed_between :
    ((between before (c :: s)).current == '\r' && (between before (c :: s)).second == '\n') = true ↔
      c = '\r' ∧ s.head? = some '\n' := by
  rw [Bool.and_eq_true, beq_iff_eq, beq_iff_eq, current_between, List.head?_cons, Option.getD_some]
  refine and_congr_right ?_
  rintro rfl
  rw [second_between (by decide)]
  cases s <;> simp

@[simp] theorem atLineEnd_between : (between before rest).atLineEnd = Text.atLineEnd rest := by
  rcases rest with _ | ⟨c, s⟩
  · simp [atLineEnd, Text.atLineEnd]
  · rw [Bool.eq_iff_iff, Text.atLineEnd_iff, Text.lineEnd_cons, atLineEnd, Bool.or_eq_true,
      return_feed_between]
    simp

@[simp] theorem startsWith_between (token : Text) :
    (between before rest).startsWith token = token.isPrefixOf rest := by
  rw [Bool.eq_iff_iff, List.isPrefixOf_iff_prefix, Text.prefix_iff_extract, startsWith, beq_bytes,
    String.toByteArray_ofList, position_between, extract_between]

/-! ## Where a cursor goes -/

@[simp] theorem advance?_between :
    (between before (c :: s)).advance? = some (between (before ++ [c]) s) := by
  obtain ⟨b, bs, hc, hb⟩ := Text.exists_utf8EncodeChar c
  have hsize := String.length_utf8EncodeChar c
  rw [advance?, position_between, getElem?_between hc, between_append]
  dsimp only
  split
  · rw [hc, (hb ‹_›).2] at hsize
    simp [← hsize]
  · simp [utf8DecodeChar?_between]

theorem advanceLineAware?_between (h : ¬ (c = '\r' ∧ s.head? = some '\n')) :
    (between before (c :: s)).advanceLineAware? = some (between (before ++ [c]) s) := by
  rw [advanceLineAware?, if_neg (mt return_feed_between.1 h), advance?_between]

theorem advanceLineAware?_return_feed :
    (between before ('\r' :: '\n' :: s)).advanceLineAware? =
      some (between (before ++ ['\r', '\n']) s) := by
  rw [advanceLineAware?, if_pos (return_feed_between.2 ⟨rfl, rfl⟩), between_append]
  rfl

theorem skip_between (token : Text) :
    (between before (token ++ rest)).skip (Text.width token) = between (before ++ token) rest := by
  rw [skip, size_bytes_between, position_between, between_append, Text.width_append,
    Nat.min_eq_left (by omega)]

end Cursor
end Gloss
