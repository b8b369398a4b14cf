import Gloss.Proofs.Glyph
import Gloss.Proofs.Piece
/-!
# The line in progress

What holds of a line whenever a piece comes to it. `Line.Fits` is the invariant
of the line, `Writing` says besides which pieces may come, and `writing` that
those of a text do.
-/

namespace Gloss

/-- The glyphs of a piece. -/
def Piece.glyphs (p : Piece) : List Glyph := p.text.glyphs p.kind

/-- The glyphs of pieces. -/
def Piece.glyphsOf (ps : List Piece) : List Glyph := ps.flatMap Piece.glyphs

/-- No line end is cut in two where the pieces come behind the text. -/
def Piece.Whole (s : Text) (ps : List Piece) : Prop :=
  s.getLast? = some '\r' → (Text.ofGlyphs (Piece.glyphsOf ps)).head? ≠ some '\n'

theorem Piece.whole_line {a s : Text} {ps : List Piece} (h : Whole (a ++ '\n' :: s) ps) :
    Whole s ps := by
  refine fun hs => h ?_
  rw [List.getLast?_append, List.getLast?_cons, hs]
  rfl

/-! ## Closing a line -/

namespace Line

/-- What closing leaves of the text after the last literal. -/
def tail (policy : Policy) (l : Line) : Text :=
  if l.touched then
    let (body, terminator) := Text.splitTerminator l.loose.reverse
    let body := Text.dropEndWhile Text.isPad body
    if policy = .collapse ∧ l.guarded = [] ∧ body = [] then [] else body ++ terminator
  else l.loose.reverse

theorem tail_of_loose {policy : Policy} {l : Line} (h : l.loose = []) : l.tail policy = [] := by
  simp [tail, h, Text.splitTerminator, Text.dropEndWhile]

/-- Closing leaves the literals of the line alone. -/
theorem close_eq {policy : Policy} {l : Line}
    (h : l.touched = true → l.guarded = [] ∨ ∃ c ∈ l.guarded, Text.isWhite c = false) :
    l.close policy = l.guarded.reverse ++ l.tail policy := by
  unfold close tail
  cases ht : l.touched with
  | false => rfl
  | true =>
    simp only [if_true]
    have hn : l.guarded.length = l.guarded.reverse.length := by simp
    rcases Text.splitTerminator_append_cases l.guarded.reverse l.loose.reverse with
      hs | ⟨hl, a, b, hg, hb, hs⟩
    · rw [text, hs]
      simp only [hn, List.take_left, List.drop_left, List.append_eq_nil_iff, List.reverse_eq_nil_iff]
      split
      · rename_i he
        simp [he.2.1]
      · simp
    · -- behind its last literal the line is a line feed at most
      have hloose : Text.splitTerminator l.loose.reverse = ([], l.loose.reverse) := by
        rcases hl with hl | hl <;> rw [hl] <;> rfl
      have hempty : a = [] ↔ l.guarded = [] := by
        constructor
        · rintro rfl
          rcases h ht with hg' | ⟨c, hc, hw⟩
          · exact hg'
          · rw [hb c (by rw [← List.nil_append b, ← hg]; simpa using hc)] at hw
            cases hw
        · intro hg'
          rw [hg', List.reverse_nil, eq_comm, List.append_eq_nil_iff] at hg
          exact hg.1
      rw [text, hs, hloose, hn, hg]
      simp only [List.take_of_length_le, List.drop_of_length_le, List.length_append,
        Nat.le_add_right, Text.dropEndWhile, List.reverse_nil, List.dropWhile_nil, List.append_nil,
        and_true, hempty, List.nil_append]
      split
      · rename_i he
        simp [← hg, he.2]
      · simp

/-- Closing takes away the blanks in front of the terminator at most, or, under
the collapsing policy, the whole of an empty line. -/
theorem tail_cases (policy : Policy) (l : Line) :
    ∃ kept pads, l.loose.reverse = kept ++ (pads ++ (Text.splitTerminator l.loose.reverse).2) ∧
      (∀ c ∈ pads, Text.isPad c = true) ∧
      (l.touched = true → ∀ c, kept.getLast? = some c → Text.isPad c = false) ∧
      (l.tail policy = kept ++ (Text.splitTerminator l.loose.reverse).2 ∨
        policy = .collapse ∧ l.touched = true ∧ l.guarded = [] ∧ kept = [] ∧ l.tail policy = []) := by
  have happ := Text.splitTerminator_append l.loose.reverse
  cases ht : l.touched with
  | false => exact ⟨_, [], happ.symm, by simp, nofun, .inl (by simp [tail, ht, happ])⟩
  | true =>
    generalize hbody : (Text.splitTerminator l.loose.reverse).1 = body at happ
    have hpads : body =
        Text.dropEndWhile Text.isPad body ++ (body.reverse.takeWhile Text.isPad).reverse := by
      rw [Text.dropEndWhile, ← List.reverse_append, List.takeWhile_append_dropWhile,
        List.reverse_reverse]
    refine ⟨Text.dropEndWhile Text.isPad body, (body.reverse.takeWhile Text.isPad).reverse, ?_, ?_,
      fun _ c hc => ?_, ?_⟩
    · rw [← List.append_assoc, ← hpads, happ]
    · intro c hc
      exact List.all_eq_true.1 List.all_takeWhile c (List.mem_reverse.1 hc)
    · have hnot := List.head?_dropWhile_not Text.isPad body.reverse
      rw [Text.dropEndWhile, List.getLast?_reverse] at hc
      rw [hc] at hnot
      exact hnot
    · simp only [tail, ht, if_true, hbody]
      split
      · rename_i h
        exact .inr ⟨h.1, trivial, h.2.1, h.2.2, rfl⟩
      · exact .inl rfl

/-! ## The invariant of a line -/

/-- What holds of a line when `before` is the last character of the literal that
stands in front of its loose text, if there is one. A line may start in the
middle of a literal, and a literal that its line's end cuts may end in white
space: nothing but that line end comes behind it. -/
structure Fits (before : Option Char) (l : Line) : Prop where
  free : before = none → l.guarded = []
  solid : Text.isSolid before = true → l.guarded.head? = before
  raw : before ≠ none → Text.isSolid before = false → l.loose = []
  touched : l.touched = true → before = none ∨ ∃ c ∈ l.guarded, Text.isWhite c = false
  loose : '\n' ∉ l.loose

/-- More code and comments may come. -/
def Open (before : Option Char) : Prop := before = none ∨ Text.isSolid before = true

theorem fits_empty (before : Option Char) (h : ¬ Text.isSolid before = true) : Fits before {} :=
  ⟨fun _ => rfl, fun hs => absurd hs h, fun _ _ => rfl, nofun, by simp⟩

namespace Fits
variable {policy : Policy} {before : Option Char} {l : Line} {p : Piece}

theorem closes (h : l.Fits before) :
    l.touched = true → l.guarded = [] ∨ ∃ c ∈ l.guarded, Text.isWhite c = false :=
  fun ht => (h.touched ht).imp h.free id

theorem open_or_loose (h : l.Fits before) : Open before ∨ l.loose = [] := by
  by_cases hb : before = none
  · exact .inl (.inl hb)
  · cases hs : Text.isSolid before with
    | true => exact .inl (.inr hs)
    | false => exact .inr (h.raw hb hs)

theorem isNone_of_touched (h : l.Fits before) (ht : l.touched = true) (hg : l.guarded = []) :
    before.isNone = true := by
  rcases h.touched ht with rfl | ⟨c, hc, -⟩
  · rfl
  · rw [hg] at hc
    cases hc

theorem close_add (h : l.Fits before) (s : Text) :
    (l.add s).close policy = l.guarded.reverse ++ (l.add s).tail policy :=
  close_eq (l := l.add s) h.closes

theorem add {s : Text} (h : l.Fits before) (ho : Open before) (hs : '\n' ∉ s) :
    (l.add s).Fits before := by
  refine ⟨h.free, h.solid, fun hb hw => ?_, h.touched, ?_⟩
  · rcases ho with ho | ho
    · exact absurd ho hb
    · rw [ho] at hw
      cases hw
  · simp [Line.add, hs, h.loose]

theorem addLiteral {s : Text} {c : Char} (h : l.Fits before) (hs : s.getLast? = some c)
    (ht : l.touched = true → before = none → Text.isSolid s.head? = true) :
    (l.addLiteral s).Fits (some c) := by
  obtain ⟨a, rfl⟩ := List.getLast?_eq_some_iff.1 hs
  refine ⟨nofun, fun _ => by simp [Line.addLiteral], fun _ _ => rfl, fun htouched => .inr ?_, ?_⟩
  · rcases h.touched htouched with hb | ⟨d, hd, hw⟩
    · have hsolid := ht htouched hb
      obtain ⟨d, t, hdt⟩ := List.exists_cons_of_ne_nil (l := a ++ [c]) (by simp)
      refine ⟨d, ?_, ?_⟩
      · simp only [Line.addLiteral, hdt, List.mem_append, List.mem_reverse, List.mem_cons, true_or]
      · rw [hdt] at hsolid
        simpa [Text.isSolid] using hsolid
    · exact ⟨d, by simp [Line.addLiteral, hd], hw⟩
  · simp [Line.addLiteral]

theorem touch (h : l.Fits before) (ho : Open before) : l.touch.Fits before := by
  refine ⟨h.free, h.solid, h.raw, fun _ => ho.imp id fun hs => ?_, h.loose⟩
  have hg := h.solid hs
  cases before with
  | none => cases hs
  | some c => exact ⟨c, List.mem_of_head? hg, by simpa [Text.isSolid] using hs⟩

theorem trim (h : l.Fits before) : l.trim.Fits before := by
  refine ⟨h.free, h.solid, fun hb hw => ?_, h.touched, fun hm => h.loose ?_⟩
  · simp [Line.trim, h.raw hb hw]
  · exact (List.dropWhile_suffix _).subset hm

theorem clear (h : l.Fits before) (ho : Open before) : (l.clear p).Fits before := by
  unfold Line.clear
  split
  · exact (h.touch ho).trim
  · exact h.touch ho

theorem takeOut (h : l.Fits before) (ho : Open before) (hp : p.breaks policy = false) :
    (l.takeOut policy p).Fits before := by
  rw [Line.takeOut_next hp]
  split
  · exact (h.clear ho).add ho (by decide)
  · exact h.clear ho

end Fits

theorem guarded_clear (l : Line) (p : Piece) : (l.clear p).guarded = l.guarded := by
  unfold clear
  split <;> rfl

theorem touched_clear (l : Line) (p : Piece) : (l.clear p).touched = true := by
  unfold clear
  split <;> rfl

theorem guarded_takeOut (l : Line) (policy : Policy) (p : Piece) :
    (l.takeOut policy p).guarded = l.guarded := by
  unfold takeOut
  split
  · exact guarded_clear l p
  · split <;> exact guarded_clear l p

theorem exists_clear (l : Line) (p : Piece) :
    ∃ pads, l.loose = pads ++ (l.clear p).loose ∧ ∀ c ∈ pads, Text.isPad c = true := by
  unfold clear
  split
  · refine ⟨l.loose.takeWhile Text.isPad, (List.takeWhile_append_dropWhile).symm, fun c hc => ?_⟩
    exact List.all_eq_true.1 List.all_takeWhile c hc
  · exact ⟨[], rfl, by simp⟩

theorem mem_clear {l : Line} {p : Piece} {c : Char} (h : c ∈ (l.clear p).loose) : c ∈ l.loose := by
  obtain ⟨pads, hloose, -⟩ := exists_clear l p
  rw [hloose]
  exact List.mem_append_right _ h

end Line

/-! ## Which pieces may come -/

open Line (Open)

/-- The pieces may come behind the line, and whatever piece comes the line fits.
Ink behind a comment starts with a solid character, which the comment knows. -/
inductive Writing (policy : Policy) : Option Char → Line → List Piece → Prop
  | stop {before : Option Char} {l : Line} : l.Fits before → Writing policy before l []
  | code {before next : Option Char} {l : Line} {s : Text} {ps : List Piece} :
      l.Fits before → Open before → '\n' ∉ s → Writing policy before (l.add s) ps →
      Writing policy before l (⟨.code, s, next⟩ :: ps)
  | codeBreak {before next : Option Char} {l : Line} {a : Text} {ps : List Piece} :
      l.Fits before → '\n' ∉ a → Writing policy none {} ps →
      Writing policy before l (⟨.code, a ++ ['\n'], next⟩ :: ps)
  | literal {before next : Option Char} {l : Line} {kind : Kind} {s : Text} {c : Char}
      {ps : List Piece} : l.Fits before → kind.isLiteral = true → '\n' ∉ s → s.getLast? = some c →
      Piece.Whole s ps → Writing policy (some c) (l.addLiteral s) ps →
      Writing policy before l (⟨kind, s, next⟩ :: ps)
  | literalBreak {before next : Option Char} {l : Line} {kind : Kind} {a : Text}
      {ps : List Piece} : l.Fits before → kind.isLiteral = true → '\n' ∉ a →
      (l.loose = [] ∨ Text.isSolid (a ++ ['\n']).head? = true) →
      (l.addLiteral (a ++ ['\n'])).Fits (some '\n') → Writing policy (some '\n') {} ps →
      Writing policy before l (⟨kind, a ++ ['\n'], next⟩ :: ps)
  | comment {before : Option Char} {l : Line} {p : Piece} {ps : List Piece} :
      l.Fits before → Open before → p.kind.isComment = true → p.text ≠ [] →
      p.breaks policy = false → (policy = .preserve → '\n' ∉ p.text) → Piece.Whole p.text ps →
      (∀ i, (Piece.glyphsOf ps).head? = some i → i.isInk = true → Text.isSolid p.next = true) →
      Writing policy before (l.takeOut policy p) ps → Writing policy before l (p :: ps)
  | commentBreak {before next : Option Char} {l : Line} {kind : Kind} {a : Text}
      {ps : List Piece} : l.Fits before → Open before → kind.isComment = true → '\n' ∉ a →
      (l.loose = [] ∨ Text.isSolid (a ++ ['\n']).head? = true) → policy = .preserve →
      Writing policy none {} ps → Writing policy before l (⟨kind, a ++ ['\n'], next⟩ :: ps)

namespace Writing
variable {policy : Policy} {before : Option Char} {l : Line} {ps : List Piece}

/-- The lines of a run of code. -/
theorem code_lines (next : Option Char) {s : Text} (hl : l.Fits before)
    (ho : Open before ∨ s.LineEnd)
    (h : ∀ before l, l.Fits before → Open before → Writing policy before l ps) :
    Writing policy before l (policy.pieces .code s next ++ ps) := by
  rw [Policy.pieces, if_pos (Policy.splits_of_not_comment rfl)]
  induction s using Text.byLines generalizing before l with
  | nil => exact h before l hl (ho.resolve_right Text.not_lineEnd_nil)
  | last s hne hs =>
    have ho : Open before := by
      refine ho.resolve_right ?_
      rintro (⟨t, rfl⟩ | ⟨t, rfl⟩) <;> simp at hs
    rw [Text.lines_of_not_mem hne hs]
    exact .code hl ho hs (h before _ (hl.add ho hs) ho)
  | line a s ha ih =>
    rw [Text.lines_feed ha]
    exact .codeBreak hl ha (ih (Line.fits_empty none (by simp [Text.isSolid])) (.inl (.inl rfl)))

/-- The lines of a literal. -/
theorem literal_lines {kind : Kind} (hk : kind.isLiteral = true) (next : Option Char) {s : Text}
    (hl : l.Fits before)
    (hs : Open before → s ≠ [] → Text.isSolid s.head? = true) (hw : Piece.Whole s ps)
    (h : ∀ l : Line, l.Fits (s.getLast?.or before) → Writing policy (s.getLast?.or before) l ps) :
    Writing policy before l (policy.pieces kind s next ++ ps) := by
  rw [Policy.pieces, if_pos (Policy.splits_of_not_comment (Kind.not_comment_of_literal hk))]
  induction s using Text.byLines generalizing before l with
  | nil => exact h l hl
  | last s hne hns =>
    rw [Text.lines_of_not_mem hne hns]
    have hlast := List.getLast?_eq_some_getLast hne
    rw [hlast] at h
    exact .literal hl hk hns hlast hw
      (h _ (hl.addLiteral hlast fun _ hb => hs (.inl hb) hne))
  | line a s ha ih =>
    rw [Text.lines_feed ha]
    have hhead : (a ++ '\n' :: s).head? = (a ++ ['\n']).head? := by cases a <;> rfl
    rw [hhead] at hs
    have hfits : (l.addLiteral (a ++ ['\n'])).Fits (some '\n') :=
      hl.addLiteral (by simp) fun _ hb => hs (.inl hb) (by simp)
    have hsolid : l.loose = [] ∨ Text.isSolid (a ++ ['\n']).head? = true :=
      hl.open_or_loose.symm.imp id fun ho => hs ho (by simp)
    refine .literalBreak hl hk ha hsolid hfits
      (ih (Line.fits_empty _ (by decide)) (by simp [Open, Text.isSolid, Text.isWhite]) ?_ fun l hl => ?_)
    · exact Piece.whole_line hw
    have hlast : s.getLast?.or (some '\n') = (a ++ '\n' :: s).getLast?.or before := by
      rw [List.getLast?_append, List.getLast?_cons]
      cases s.getLast? <;> rfl
    rw [hlast] at hl ⊢
    exact h l hl

/-- The lines of a comment, or all of it. -/
theorem comment_lines {kind : Kind} (hk : kind.isComment = true) {next : Option Char} {s : Text}
    (hne : s ≠ []) (hl : l.Fits before) (ho : Open before)
    (hs : l.loose = [] ∨ Text.isSolid s.head? = true) (hw : Piece.Whole s ps)
    (hnext : ∀ i, (Piece.glyphsOf ps).head? = some i → i.isInk = true → Text.isSolid next = true)
    (h : ∀ before l, l.Fits before → Open before → Writing policy before l ps) :
    Writing policy before l (policy.pieces kind s next ++ ps) := by
  cases policy with
  | collapse =>
    have hsplits : Policy.splits .collapse kind = false := by simp [Policy.splits, hk]
    have hbreaks : Piece.breaks .collapse ⟨kind, s, next⟩ = false := by simp [Piece.breaks, hsplits]
    rw [Policy.pieces, hsplits]
    exact .comment hl ho hk hne hbreaks (fun hp => by cases hp) hw hnext
      (h before _ (hl.takeOut ho hbreaks) ho)
  | preserve =>
    -- behind its last break the comment may be over, so the induction is on any text
    show Writing .preserve before l ((Text.lines s).map (⟨kind, ·, next⟩) ++ ps)
    clear hne
    induction s using Text.byLines generalizing before l with
    | nil => exact h before l hl ho
    | last s hne hns =>
      have hbreaks : Piece.breaks .preserve ⟨kind, s, next⟩ = false := Piece.breaks_of_not_mem hns
      rw [Text.lines_of_not_mem hne hns]
      exact .comment hl ho hk hne hbreaks (fun _ => hns) hw hnext
        (h before _ (hl.takeOut ho hbreaks) ho)
    | line a s ha ih =>
      have hhead : (a ++ '\n' :: s).head? = (a ++ ['\n']).head? := by cases a <;> rfl
      rw [hhead] at hs
      rw [Text.lines_feed ha]
      exact .commentBreak hl ho hk ha hs rfl (ih (Line.fits_empty none (by simp [Text.isSolid]))
        (.inl rfl) (.inl rfl) (Piece.whole_line hw))

end Writing

/-! ## The pieces of a text may come -/

namespace Rules
variable {r : Rules} {policy : Policy}

theorem glyphsOf_pieces (s : Text) : Piece.glyphsOf (r.pieces policy s) = r.glyphs s := by
  unfold pieces glyphs Piece.glyphsOf
  rw [List.flatMap_assoc]
  congr 1
  funext f
  rw [Fragment.pieces, Policy.pieces, Fragment.glyphs]
  split
  · have hlines : ∀ ls : List Text,
        (ls.map (Piece.mk f.kind · f.next)).flatMap Piece.glyphs = Text.glyphs f.kind ls.flatten := by
      intro ls
      induction ls with
      | nil => rfl
      | cons line ls ih => simp [Piece.glyphs, ih]
    rw [hlines, Text.flatten_lines]
  · simp [Piece.glyphs]

/-- What a construct opens with is solid. -/
theorem solid_quote {o : Opener} (ho : o ∈ r.openers) (inside : Text) :
    Text.isSolid (o.token ++ inside).head? = true := by
  obtain ⟨c, t, ht⟩ := List.exists_cons_of_ne_nil (token_ne_nil ho)
  have hc := solid_token ho c (by simp [ht])
  simp [ht, Text.isSolid, hc]

/-- Ink at the front of a text is a solid character. -/
theorem solid_of_ink {s : Text} {i : Glyph} (hi : (r.glyphs s).head? = some i)
    (hink : i.isInk = true) : Text.isSolid s.head? = true := by
  induction s using readingChars r with
  | nil => simp at hi
  | code c rest ho _ =>
    rw [glyphs_code ho] at hi
    obtain rfl := Option.some.inj hi
    simpa [Glyph.isInk, Kind.isLiteral, Text.isSolid] using hink
  | construct o inside closed rest ho he _ =>
    rw [← List.append_assoc]
    simpa [List.append_assoc] using solid_quote (mem_of_opener? ho).1 (inside ++ rest)

theorem not_lineEnd_of_solid {s : Text} (h : Text.isSolid s.head? = true) :
    ¬ (s = [] ∨ s.LineEnd) := by
  rintro (rfl | ⟨t, rfl⟩ | ⟨t, rfl⟩) <;> exact absurd h (by simp [Text.isSolid, Text.isWhite])

/-- A run of code holds the whole of the line end at its front. -/
theorem Code.lineEnd {code rest : Text} (hc : r.Code code rest) (hne : code ≠ [])
    (h : (code ++ rest).LineEnd) : code.LineEnd := by
  obtain ⟨c, t, rfl⟩ := List.exists_cons_of_ne_nil hne
  rw [List.cons_append, Text.lineEnd_cons] at h
  refine Text.lineEnd_cons.2 (h.imp id fun ⟨hr, hn⟩ => ⟨hr, ?_⟩)
  rcases t with _ | ⟨d, t⟩
  · exact absurd hn hc.not_return
  · exact hn

/-- A literal that does not end with a solid character is cut by its line's end
or by the end of the text. -/
theorem rest_of_literal {o : Opener} {inside rest : Text} {closed : Bool} (ho : o ∈ r.openers)
    (h : r.Ends o inside closed rest) (hk : o.kind.isLiteral = true)
    (hl : ¬ Text.isSolid (o.token ++ inside).getLast? = true) : rest = [] ∨ rest.LineEnd := by
  rw [ends_iff_of_literal hk] at h
  cases closed with
  | false => exact h.rest_of_unclosed.imp id And.right
  | true =>
    obtain ⟨q, hq, hw, -⟩ := quote_of_literal ho hk
    rw [hq] at h
    have hlast : inside.getLast? = some q := h.getLast?_of_closed
    rw [List.getLast?_append, hlast] at hl
    simp [Text.isSolid, hw] at hl

/-- The pieces of a text may come to any line that fits, where a literal that is
cut by its line's end stands in front only if a line end follows. -/
theorem writing {s : Text} {before : Option Char} {l : Line} (hl : l.Fits before)
    (ho : Open before ∨ s = [] ∨ s.LineEnd) : Writing policy before l (r.pieces policy s) := by
  induction s using reading r generalizing before l with
  | nil =>
    rw [pieces_nil]
    exact .stop hl
  | code code rest hne hc ih =>
    rw [pieces_code hne hc]
    refine .code_lines _ hl ?_ fun before l hl ho => ih hl (.inl ho)
    exact ho.imp id fun ho => hc.lineEnd hne (ho.resolve_left (by simp [hne]))
  | construct o inside closed rest hop he ih =>
    have hm := (mem_of_opener? hop).1
    have hopen : Open before := by
      -- no opener starts with white space, so this is no line end
      refine ho.resolve_right ?_
      rw [← List.append_assoc]
      exact not_lineEnd_of_solid (by simpa using solid_quote hm (inside ++ rest))
    have hwhole : Piece.Whole (o.token ++ inside) (r.pieces policy rest) := by
      rw [Piece.Whole, glyphsOf_pieces, ofGlyphs_glyphs]
      exact not_return hm he
    rw [pieces_construct hop he]
    rcases comment_or_literal hm with hk | hk
    · refine .comment_lines hk (by simp [token_ne_nil hm]) hl hopen (.inr (solid_quote hm inside))
        hwhole ?_ fun before l hl ho => ih hl (.inl ho)
      rw [glyphsOf_pieces]
      exact fun i => solid_of_ink
    · refine .literal_lines hk _ hl (fun _ _ => solid_quote hm inside) hwhole fun l hl => ih hl ?_
      have hor : (o.token ++ inside).getLast?.or before = (o.token ++ inside).getLast? := by
        rw [List.getLast?_eq_some_getLast (by simp [token_ne_nil hm])]
        rfl
      rw [hor]
      by_cases hs : Text.isSolid (o.token ++ inside).getLast? = true
      · exact .inl (.inr hs)
      · exact .inr (rest_of_literal hm he hk hs)

end Rules
end Gloss
