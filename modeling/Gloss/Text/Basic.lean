/-!
# Texts

A source text is a list of characters. Positions in it are byte offsets of its
UTF-8 form, so cutting a text at an offset fails outside the text and inside a
character (`splitAt?`, `slice?`).

`splitAt?_width_append`: a text splits at the width of any of its prefixes, and
`eq_of_splitAt?`: it splits nowhere else.
-/

namespace Gloss

/-- A source text. -/
abbrev Text := List Char

namespace Text

/-! ## Byte offsets -/

/-- The number of bytes of the UTF-8 form. -/
def width (s : Text) : Nat := s.foldr (fun c n => c.utf8Size + n) 0

@[simp] theorem width_nil : width [] = 0 := rfl

@[simp] theorem width_cons (c : Char) (s : Text) : width (c :: s) = c.utf8Size + width s := rfl

@[simp] theorem width_append (s t : Text) : width (s ++ t) = width s + width t := by
  induction s with
  | nil => simp
  | cons c s ih => simp only [List.cons_append, width_cons, ih, Nat.add_assoc]

theorem width_pos {s : Text} (h : s ≠ []) : 0 < width s := by
  cases s with
  | nil => exact absurd rfl h
  | cons c s => have := c.utf8Size_pos; simp; omega

/-- The two parts of a text around byte offset `n`, if a character starts
there or the text ends there. -/
def splitAt? : Nat → Text → Option (Text × Text)
  | 0, s => some ([], s)
  | _ + 1, [] => none
  | n + 1, c :: s =>
    if c.utf8Size ≤ n + 1 then
      (splitAt? (n + 1 - c.utf8Size) s).map fun (a, b) => (c :: a, b)
    else none

theorem splitAt?_width_append (s t : Text) : splitAt? (width s) (s ++ t) = some (s, t) := by
  induction s with
  | nil => cases t <;> rfl
  | cons c s ih =>
    obtain ⟨k, hk⟩ : ∃ k, c.utf8Size + width s = k + 1 :=
      ⟨c.utf8Size + width s - 1, by have := c.utf8Size_pos; omega⟩
    rw [width_cons, hk, List.cons_append, splitAt?, if_pos (by omega),
      show k + 1 - c.utf8Size = width s by omega, ih]
    rfl

theorem eq_of_splitAt? {n : Nat} {s a b : Text} (h : splitAt? n s = some (a, b)) :
    s = a ++ b ∧ width a = n := by
  induction s generalizing n a with
  | nil => cases n <;> simp_all [splitAt?]
  | cons c s ih =>
    cases n with
    | zero => simp only [splitAt?, Option.some.injEq, Prod.mk.injEq] at h; simp [← h.1, ← h.2]
    | succ n =>
      simp only [splitAt?] at h
      split at h
      · obtain ⟨⟨a', b'⟩, hs, he⟩ := Option.map_eq_some_iff.1 h
        obtain ⟨rfl, rfl⟩ := Prod.mk.inj he
        obtain ⟨rfl, hw⟩ := ih hs
        simp only [width_cons]
        exact ⟨rfl, by omega⟩
      · exact absurd h (by simp)

/-- The part of a text between two byte offsets. -/
def slice? (start stop : Nat) (s : Text) : Option Text := do
  let (_, rest) ← splitAt? start s
  let (mid, _) ← splitAt? (stop - start) rest
  return mid

/-! ## Classes of characters -/

/-- Unicode's `White_Space` property. -/
def isWhite (c : Char) : Bool :=
  let n := c.toNat
  (9 ≤ n && n ≤ 13) || n == 32 || n == 0x85 || n == 0xA0 || n == 0x1680 ||
    (0x2000 ≤ n && n ≤ 0x200A) || n == 0x2028 || n == 0x2029 || n == 0x202F || n == 0x205F ||
    n == 0x3000

/-- A space or a tab: what may be trimmed from the end of a line. -/
def isPad (c : Char) : Bool := c == ' ' || c == '\t'

/-- A character that separates nothing: present, and not white space. -/
def isSolid : Option Char → Bool
  | none => false
  | some c => !isWhite c

/-! ## Ends of texts -/

/-- The text without the longest suffix of characters in `p`. -/
def dropEndWhile (p : Char → Bool) (s : Text) : Text := (s.reverse.dropWhile p).reverse

/-- The text without the characters in `p` at both ends. -/
def trim (p : Char → Bool) (s : Text) : Text := dropEndWhile p (s.dropWhile p)

/-- What follows `t`, if the text starts with it. -/
def dropPrefix? (t s : Text) : Option Text := if t.isPrefixOf s then some (s.drop t.length) else none

/-- What precedes `t`, if the text ends with it. -/
def dropSuffix? (t s : Text) : Option Text :=
  if t.isSuffixOf s then some (s.take (s.length - t.length)) else none

/-! ## Names -/

/-- A name with its ASCII letters in lower case. -/
def lower (name : String) : String := String.ofList (name.toList.map Char.toLower)

end Text
end Gloss
