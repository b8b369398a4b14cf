import Gloss.Proofs.Rows
import Gloss.Proofs.Written
/-!
# The lines of a stripped text

Under the preserving policy a text keeps its lines. `Follows` pairs the rows of
two texts, the first of them in progress; `Writing.follows` finds it kept up
from piece to piece, and `lines_strip` is what it comes to for a whole text.
-/

namespace Gloss

open Glyph (HasComment Kept Tracks Trimmed rows terminator)

namespace Glyph

/-- The rows of two texts in pairs, the first row in progress. -/
def Follows (touched : Bool) (σ ω : List Glyph) : Prop :=
  ∃ x xs y ys, rows σ = x :: xs ∧ rows ω = y :: ys ∧ Tracks touched x y ∧
    List.Forall₂ (Tracks false) xs ys

theorem Follows.forall₂ {σ ω : List Glyph} (h : Follows false σ ω) :
    List.Forall₂ (Tracks false) (rows σ) (rows ω) := by
  obtain ⟨x, xs, y, ys, hx, hy, hxy, hxs⟩ := h
  rw [hx, hy]
  exact .cons hxy hxs

/-- A change in front of the first line feed changes the first row only. -/
theorem Follows.change {touched touched' : Bool} {π π' ρ σ ω : List Glyph}
    (hπ : '\n' ∉ Text.ofGlyphs π) (hπ' : '\n' ∉ Text.ofGlyphs π') (hρ : '\n' ∉ Text.ofGlyphs ρ)
    (hstep : ∀ x y, x.head? = σ.head? → Tracks touched' (π' ++ x) y →
      Tracks touched (π ++ x) (ρ ++ y))
    (h : Follows touched' (π' ++ σ) ω) : Follows touched (π ++ σ) (ρ ++ ω) := by
  obtain ⟨x', xs', y, ys, hx', hy, hxy, hxs⟩ := h
  obtain ⟨x, xs, hx⟩ := List.exists_cons_of_ne_nil (rows_ne_nil σ)
  rw [rows_append hπ', hx] at hx'
  obtain ⟨rfl, rfl⟩ := List.cons.inj hx'
  refine ⟨π ++ x, xs, ρ ++ y, ys, ?_, ?_, hstep x y (head?_rows hx) hxy, hxs⟩
  · rw [rows_append hπ, hx]
    rfl
  · rw [rows_append hρ, hy]
    rfl

namespace Tracks
variable {touched : Bool} {σ ω σ' ω' : List Glyph}

/-- The last row. -/
theorem follows_last (h : Tracks touched σ ω) (hσ : '\n' ∉ Text.ofGlyphs σ) :
    Follows touched σ ω :=
  ⟨σ, [], ω, [], rows_of_not_mem hσ, h.rows_last hσ, h, .nil⟩

/-- A row with its line feed, and the rows behind it. -/
theorem follows_line {π : List Glyph} {g : Glyph} (h : Tracks touched (π ++ [g]) ω)
    (hπ : '\n' ∉ Text.ofGlyphs π) (hg : g.char = '\n') (h' : Follows false σ' ω') :
    Follows touched ((π ++ [g]) ++ σ') (ω ++ ω') := by
  have hterm : Text.isTerminated (Text.ofGlyphs (π ++ [g])) = true := by
    rw [Text.ofGlyphs_append, Text.ofGlyphs_cons, hg]
    exact Text.isTerminated_feed _
  refine ⟨π ++ [g], rows σ', ω, rows ω', ?_, h.rows_line hterm ω', h, h'.forall₂⟩
  rw [List.append_assoc, List.singleton_append, Glyph.rows_line hπ hg]

end Tracks
end Glyph

open Glyph (Follows)

theorem Piece.hasComment (p : Piece) (hk : p.kind.isComment = true) (hne : p.text ≠ []) :
    HasComment p.glyphs := by
  obtain ⟨c, t, hc⟩ := List.exists_cons_of_ne_nil hne
  exact ⟨⟨p.kind, c⟩, Text.mem_glyphs.2 ⟨rfl, by simp [hc]⟩, hk⟩

namespace Line
variable {l : Line}

/-- Closing a line does with its loose text what it may. -/
theorem tracks_tail (h : '\n' ∉ l.loose ∨ ∃ a : Text, '\n' ∉ a ∧ l.loose.reverse = a ++ ['\n']) :
    Tracks l.touched (Text.glyphs .code l.loose.reverse)
      (Text.glyphs .code (l.tail .preserve)) := by
  obtain ⟨kept, pads, hl, hpads, hneat, htail⟩ := tail_cases .preserve l
  have htail := htail.resolve_right (by simp)
  have hgap := (Glyph.blank_of_pads hpads).gap.filter_isInk
  refine ⟨fun ht _ => ?_, ?_, Text.ink_or_blank, ?_, ?_⟩
  · rw [tail, ht, if_neg (by simp)]
  · conv_rhs => rw [hl]
    rw [htail]
    simp [hgap]
  · rw [Text.ofGlyphs_glyphs, Text.ofGlyphs_glyphs, htail]
    conv_rhs => rw [hl]
    simp only [List.mem_append]
    exact Or.imp id .inr
  · refine ⟨Text.glyphs .code kept, Text.glyphs .code (Text.splitTerminator l.loose.reverse).2,
      ?_, ?_, ?_, fun ht g hg hpad => ?_⟩
    · rw [htail, Text.glyphs_append]
    · rw [terminator, Text.ofGlyphs_glyphs, Text.ofGlyphs_glyphs]
    · have hbody : '\n' ∉ (Text.splitTerminator l.loose.reverse).1 := by
        rcases h with h | ⟨a, ha, hl⟩
        · rw [← List.mem_reverse, ← Text.splitTerminator_append l.loose.reverse] at h
          exact fun hm => h (List.mem_append_left _ hm)
        · rw [hl]
          exact Text.not_mem_body ha
      have happ := Text.splitTerminator_append l.loose.reverse
      rw [← List.append_assoc] at hl
      rw [List.append_cancel_right (happ.trans hl)] at hbody
      rw [Text.ofGlyphs_glyphs]
      exact fun hm => hbody (List.mem_append_left _ hm)
    · have ht := ht.resolve_right (Glyph.not_hasComment_glyphs rfl _)
      rw [Text.glyphs, List.getLast?_map] at hg
      obtain ⟨c, hc, rfl⟩ := Option.map_eq_some_iff.1 hg
      rw [hneat ht c hc] at hpad
      cases hpad

theorem follows_add {before : Option Char} (hl : l.Fits before) {a : Text} (ha : '\n' ∉ a)
    {σ ω : List Glyph} (h : Follows false σ ω) :
    Follows l.touched (Text.glyphs .code (l.add (a ++ ['\n'])).loose.reverse ++ σ)
      (Text.glyphs .code ((l.add (a ++ ['\n'])).tail .preserve) ++ ω) := by
  have hline : (l.add (a ++ ['\n'])).loose.reverse = (l.loose.reverse ++ a) ++ ['\n'] := by
    simp [add]
  have hnot : '\n' ∉ l.loose.reverse ++ a := by simp [ha, hl.loose]
  have htracks := tracks_tail (l := l.add (a ++ ['\n'])) (.inr ⟨_, hnot, hline⟩)
  rw [hline, Text.glyphs_append] at htracks ⊢
  exact htracks.follows_line (by rwa [Text.ofGlyphs_glyphs]) rfl h

/-- What is written for a line from which a comment was taken out is written for
the line that had the comment. -/
theorem tracks_clear {p : Piece} (hk : p.kind.isComment = true) (hne : p.text ≠ []) {s : Text}
    (hs : ∀ c ∈ s, Text.isWhite c = true) (hr : '\r' ∈ s → '\r' ∈ p.text) {x y : List Glyph}
    (ht : terminator (Text.glyphs .code ((l.clear p).add s).loose.reverse ++ x) =
        terminator (Text.glyphs .code l.loose.reverse ++ (p.glyphs ++ x)) ∨
      terminator (Text.glyphs .code ((l.clear p).add s).loose.reverse ++ x) =
        '\r' :: terminator (Text.glyphs .code l.loose.reverse ++ (p.glyphs ++ x)))
    (h : Tracks true (Text.glyphs .code ((l.clear p).add s).loose.reverse ++ x) y) :
    Tracks l.touched (Text.glyphs .code l.loose.reverse ++ (p.glyphs ++ x)) y := by
  obtain ⟨pads, hloose, hpads⟩ := exists_clear l p
  have hcomment : p.glyphs.filter Glyph.isInk = [] :=
    Glyph.Gap.filter_isInk fun g => Text.gap_of_comment hk
  have hblank := (Glyph.blank_glyphs hs).gap.filter_isInk
  have hpads' := (Glyph.blank_of_pads fun c hc => hpads c (List.mem_reverse.1 hc)).gap.filter_isInk
  refine h.retract (.inr ?_) ?_ ?_ ht
  · exact Glyph.hasComment_append.2 (.inr (Glyph.hasComment_append.2 (.inl (p.hasComment hk hne))))
  · rw [hloose]
    simp [add, hblank, hcomment, hpads']
  · simp only [add, List.reverse_append, List.reverse_reverse, Text.ofGlyphs_append,
      Text.ofGlyphs_glyphs, Piece.glyphs, List.mem_append]
    rw [hloose]
    simp only [List.reverse_append, List.mem_append]
    rintro ((hm | hm) | hm)
    · exact .inl (.inl hm)
    · exact .inr (.inl (hr hm))
    · exact .inr (.inr hm)

theorem follows_literal {before : Option Char} (hl : l.Fits before) {p : Piece}
    (hk : p.kind.isLiteral = true) (hp : '\n' ∉ p.text) (hne : p.text ≠ []) {ps : List Piece}
    (hw : Piece.Whole p.text ps) {ω : List Glyph}
    (h : Follows l.touched (Piece.glyphsOf ps) ω) :
    Follows l.touched (Text.glyphs .code l.loose.reverse ++ Piece.glyphsOf (p :: ps))
      (Text.glyphs .code l.loose.reverse ++ (p.glyphs ++ ω)) := by
  have hloose : '\n' ∉ l.loose.reverse := by simpa using hl.loose
  have hfront : '\n' ∉ Text.ofGlyphs (Text.glyphs .code l.loose.reverse ++ p.glyphs) := by
    simp [Piece.glyphs, hl.loose, hp]
  have h : Follows l.touched ([] ++ Piece.glyphsOf ps) ω := h
  have h : Follows l.touched ((Text.glyphs .code l.loose.reverse ++ p.glyphs) ++ Piece.glyphsOf ps)
      ((Text.glyphs .code l.loose.reverse ++ p.glyphs) ++ ω) := by
    refine h.change hfront (by simp) hfront fun x y hx hxy => ?_
    rw [List.append_assoc, List.append_assoc]
    refine Tracks.literal hk hloose hp hne (fun hr => ?_) hxy
    have := hw hr
    rwa [Text.ofGlyphs, List.head?_map, ← hx, ← List.head?_map] at this
  simpa [Piece.glyphsOf] using h

theorem follows_clear {before : Option Char} (hl : l.Fits before) {p : Piece}
    (hk : p.kind.isComment = true) (hne : p.text ≠ []) (hp : '\n' ∉ p.text) {s : Text}
    (hs : ∀ c ∈ s, Text.isWhite c = true) (hr : ∀ c ∈ s, c ≠ '\r' ∧ c ≠ '\n') {ps : List Piece}
    (hw : Piece.Whole p.text ps) {ω : List Glyph}
    (h : Follows ((l.clear p).add s).touched
      (Text.glyphs .code ((l.clear p).add s).loose.reverse ++ Piece.glyphsOf ps) ω) :
    Follows l.touched (Text.glyphs .code l.loose.reverse ++ Piece.glyphsOf (p :: ps)) ω := by
  have hclear : '\n' ∉ (l.clear p).loose := fun hm => hl.loose (mem_clear hm)
  have hnew : '\n' ∉ ((l.clear p).add s).loose.reverse := by
    simpa [add, hclear] using fun hm => (hr _ hm).2 rfl
  have hold : '\n' ∉ l.loose.reverse ++ p.text := by simp [hl.loose, hp]
  have hlast : (l.loose.reverse ++ p.text).getLast? = p.text.getLast? := by
    rw [List.getLast?_append, List.getLast?_eq_some_getLast hne]
    rfl
  rw [show ((l.clear p).add s).touched = true from touched_clear l p] at h
  have h : Follows l.touched ((Text.glyphs .code l.loose.reverse ++ p.glyphs) ++ Piece.glyphsOf ps)
      ([] ++ ω) := by
    refine h.change ?_ (by rwa [Text.ofGlyphs_glyphs]) (by simp) fun x y hx hxy => ?_
    · simpa [Piece.glyphs] using hold
    · rw [List.append_assoc]
      refine tracks_clear hk hne hs (fun hm => absurd rfl (hr _ hm).1) ?_ hxy
      -- taking the comment out leaves the terminator, unless a carriage return in
      -- front of it now joins the line feed
      have hx' : (Text.ofGlyphs x).head? = (Text.ofGlyphs (Piece.glyphsOf ps)).head? := by
        rw [Text.ofGlyphs, Text.ofGlyphs, List.head?_map, List.head?_map, hx]
      have hterm : terminator (Text.glyphs .code l.loose.reverse ++ (p.glyphs ++ x)) =
          terminator x := by
        rw [terminator, terminator, Text.ofGlyphs_append, Text.ofGlyphs_append,
          Text.ofGlyphs_glyphs, Piece.glyphs, Text.ofGlyphs_glyphs, ← List.append_assoc]
        refine Text.terminator_of_whole hold ?_
        rw [hlast, hx']
        exact hw
      rw [hterm, terminator, Text.ofGlyphs_append, Text.ofGlyphs_glyphs]
      rcases Text.terminator_append hnew (Text.ofGlyphs x) with ht | ⟨-, hx, ht⟩
      · exact .inl ht
      · rw [ht, terminator, hx]
        exact .inr rfl
  simpa [Piece.glyphsOf] using h

theorem follows_clear_line {before : Option Char} (hl : l.Fits before) {kind : Kind}
    (hk : kind.isComment = true) {a : Text} (ha : '\n' ∉ a) {next : Option Char}
    (hs : l.loose = [] ∨ Text.isSolid (a ++ ['\n']).head? = true) {ps : List Piece}
    {ω : List Glyph} (h : Follows false (Piece.glyphsOf ps) ω) :
    Follows l.touched
      (Text.glyphs .code l.loose.reverse ++ Piece.glyphsOf (⟨kind, a ++ ['\n'], next⟩ :: ps))
      (Text.glyphs .code (((l.clear ⟨kind, a ++ ['\n'], next⟩).add
        (Text.splitTerminator (a ++ ['\n'])).2).tail .preserve) ++ ω) := by
  generalize hp : Piece.mk kind (a ++ ['\n']) next = p
  have htext : p.text = a ++ ['\n'] := by rw [← hp]
  have hclear : '\n' ∉ (l.clear p).loose.reverse := fun hm =>
    hl.loose (mem_clear (List.mem_reverse.1 hm))
  have happ := Text.splitTerminator_append (a ++ ['\n'])
  have hself := Text.terminator_terminator (a ++ ['\n'])
  have hwhite := Text.white_terminator (a ++ ['\n'])
  have hold : terminator (Text.glyphs .code l.loose.reverse ++ (p.glyphs ++ [])) =
      (Text.splitTerminator (a ++ ['\n'])).2 := by
    rw [List.append_nil, terminator, Text.ofGlyphs_append, Text.ofGlyphs_glyphs, Piece.glyphs,
      Text.ofGlyphs_glyphs, htext]
    exact Text.terminator_of_solid (hs.imp (fun h => by rw [h]; rfl) id)
  have hsplit : ∃ t : Text, '\n' ∉ t ∧ (Text.splitTerminator (a ++ ['\n'])).2 = t ++ ['\n'] := by
    rcases Text.terminator_cases (Text.isTerminated_feed a) with ht | ht
    · exact ⟨[], by simp, ht⟩
    · exact ⟨['\r'], by decide, ht⟩
  generalize (Text.splitTerminator (a ++ ['\n'])).2 = stop at *
  obtain ⟨t, ht, hstop⟩ := hsplit
  have hline : ((l.clear p).add stop).loose.reverse =
      ((l.clear p).loose.reverse ++ t) ++ ['\n'] := by
    simp [add, hstop]
  have htail := tracks_tail (l := (l.clear p).add stop)
    (.inr ⟨_, by rw [List.mem_append]; exact not_or.2 ⟨hclear, ht⟩, hline⟩)
  rw [show ((l.clear p).add stop).touched = true from touched_clear l p,
    ← List.append_nil (Text.glyphs .code _)] at htail
  have htracks := tracks_clear (by rwa [← hp]) (by simp [htext]) hwhite
    (fun hm => by rw [htext, ← happ]; exact List.mem_append_right _ hm) ?_ htail
  · rw [List.append_nil, ← hp, Piece.glyphs, Text.glyphs_append, ← List.append_assoc] at htracks
    have := htracks.follows_line (by simp [hl.loose, ha]) rfl h
    simpa [Piece.glyphsOf, Piece.glyphs, ← hp] using this
  · rw [hold, List.append_nil, terminator, Text.ofGlyphs_glyphs, add, List.reverse_append,
      List.reverse_reverse]
    rcases Text.terminator_append hclear stop with h | ⟨-, hs, h⟩
    · exact .inl (h.trans hself)
    · exact .inr (by rw [h, hs])

end Line

/-- What is written keeps up with the pieces, row by row. -/
theorem Writing.follows {before : Option Char} {l : Line} {ps : List Piece}
    (h : Writing .preserve before l ps) :
    Follows l.touched (Text.glyphs .code l.loose.reverse ++ Piece.glyphsOf ps)
      (l.written .preserve ps) := by
  induction h with
  | stop hl =>
    have h := Line.tracks_tail (.inl hl.loose)
    simpa [Piece.glyphsOf, Line.written] using h.follows_last (by simpa using hl.loose)
  | code hl ho hs _ ih =>
    rw [Line.written_next rfl (Piece.breaks_of_not_mem hs), Line.feed_code]
    simpa [Line.add, Piece.glyphsOf, Piece.glyphs] using ih
  | codeBreak hl ha _ ih =>
    rw [Line.written_break rfl (Piece.breaks_of_not_comment rfl), Line.feed_code]
    have h := Line.follows_add hl ha ih
    simpa [Line.add, Piece.glyphsOf, Piece.glyphs] using h
  | literal hl hk hs hc hw _ ih =>
    rw [Line.written_literal hk (Piece.breaks_of_not_mem hs)]
    exact Line.follows_literal hl hk hs (by rintro rfl; cases hc) hw ih
  | @literalBreak _ _ l kind a ps hl hk ha hs hfits _ ih =>
    have hc := Kind.not_comment_of_literal hk
    rw [Line.written_literalBreak hk (Piece.breaks_of_not_comment hc)]
    have hsolid : l.loose.reverse = [] ∨ Text.isSolid (a ++ ['\n']).head? = true :=
      hs.imp (fun h => by rw [h]; rfl) id
    have h := Tracks.literal_line hk (by simpa using hl.loose) ha hsolid l.touched
    rw [Text.glyphs_append, ← List.append_assoc] at h
    have h := h.follows_line (by simpa [ha] using hl.loose) rfl ih
    simpa [Piece.glyphsOf, Piece.glyphs] using h
  | comment hl ho hk hne hbreaks hp hw hnext _ ih =>
    rw [Line.written_next (Kind.not_literal_of_comment hk) hbreaks, Line.feed_comment hk]
    rw [Line.takeOut_next hbreaks] at ih ⊢
    split
    · rename_i hsolid
      rw [if_pos hsolid] at ih
      exact Line.follows_clear hl hk hne (hp rfl) (by simp [Text.isWhite]) (by simp) hw ih
    · rename_i hsolid
      rw [if_neg hsolid] at ih
      exact Line.follows_clear (s := []) hl hk hne (hp rfl) (by simp) (by simp) hw ih
  | commentBreak hl ho hk ha hs hp _ ih =>
    rw [Line.written_break (Kind.not_literal_of_comment hk) Piece.breaks_feed, Line.feed_comment hk,
      Line.takeOut_break Piece.breaks_feed]
    exact Line.follows_clear_line hl hk ha hs ih

/-! ## Main result -/

namespace Rules

theorem tracks_strip (r : Rules) (s : Text) :
    List.Forall₂ (Tracks false) (rows (r.glyphs s)) (rows (r.glyphs (r.strip .preserve s))) := by
  have h := (r.writing_pieces .preserve s).follows
  rw [glyphsOf_pieces] at h
  rw [glyphs_strip]
  exact h.forall₂

/-- Under the preserving policy a text keeps its lines. A line without a comment
stays as it is; of a line with one the ink stays, and in front of the terminator
that the line had no blank is left outside a literal. Where no carriage return is
bare every line keeps its terminator. -/
theorem lines_strip (r : Rules) (s : Text) :
    (r.strip .preserve s).count '\n' = s.count '\n' ∧
      List.Forall₂ Kept (rows (r.glyphs s)) (rows (r.glyphs (r.strip .preserve s))) ∧
      (s.NoBareReturn → List.Forall₂ (fun σ ω => terminator ω = terminator σ)
        (rows (r.glyphs s)) (rows (r.glyphs (r.strip .preserve s)))) := by
  have h := tracks_strip r s
  refine ⟨?_, h.imp fun _ _ h => h.kept, fun hs => ?_⟩
  · have hlen := h.length_eq
    rw [Glyph.length_rows, Glyph.length_rows, ofGlyphs_glyphs, ofGlyphs_glyphs] at hlen
    omega
  · rw [← ofGlyphs_glyphs (r := r) s] at hs
    have hrow : ∀ row ∈ rows (r.glyphs s),
        '\r' ∈ Text.ofGlyphs row → terminator row = ['\r', '\n'] :=
      fun row hrow => Glyph.terminator_of_return hs hrow
    exact ((List.forall₂_and_left _ _).2 ⟨hrow, h⟩).imp fun _ _ h => h.2.terminator_eq h.1

/-- A bare carriage return that comes to stand in front of the line feed makes a
longer terminator, and the blanks in front of that one are left. -/
theorem not_trimmed_of_bare_return :
    ¬ List.Forall₂ (fun σ ω => HasComment σ → Trimmed (terminator ω) ω)
      (rows (common.glyphs ['x', ' ', '\r', '/', '*', '*', '/', ' ', '\n']))
      (rows (common.glyphs
        (common.strip .preserve ['x', ' ', '\r', '/', '*', '*', '/', ' ', '\n']))) := by
  have hs : common.glyphs ['x', ' ', '\r', '/', '*', '*', '/', ' ', '\n'] =
      Text.glyphs .code ['x', ' ', '\r'] ++ (Text.glyphs .blockComment ['/', '*', '*', '/'] ++
        Text.glyphs .code [' ', '\n']) := by decide +kernel
  have hω : common.glyphs (common.strip .preserve ['x', ' ', '\r', '/', '*', '*', '/', ' ', '\n']) =
      Text.glyphs .code ['x', ' ', '\r', '\n'] := by decide +kernel
  rw [hs, hω]
  rintro (_ | ⟨h, -⟩)
  obtain ⟨body, tail, hrow, htail, hneat⟩ := h ⟨⟨.blockComment, '/'⟩, by decide, rfl⟩
  have hlen : tail.length = ['\r', '\n'].length := by
    rw [← List.length_map (f := Glyph.char)]
    exact congrArg List.length htail
  have hrow : Text.glyphs .code ['x', ' '] ++ Text.glyphs .code ['\r', '\n'] = body ++ tail := hrow
  rw [← (List.append_inj' hrow hlen.symm).1] at hneat
  cases hneat ⟨.code, ' '⟩ rfl rfl

end Rules
end Gloss
