import Mathlib.Data.List.DropRight
import Gloss.Proofs.LineStructure
import Gloss.Proofs.LogicalRows
/-!
# The logical rows of a stripped text

Under the collapsing policy each logical row of a text comes to a piece of the
output, maybe an empty one. `Folds` says of the row in progress, from the loose
text of its line on, what is written for it; `Writing.folding` finds it kept up
from piece to piece, and `collapse_rows` is what it comes to for a whole text.
-/

namespace Gloss

open Glyph (Collapsed Emptied HasComment Resembles Tracks isFeed logicalRows plain terminator)

namespace Glyph

/-- A comment was taken out in front of the row, or will be taken out of it. -/
def Loses (touched : Bool) (σ : List Glyph) : Prop := touched = true ∨ HasComment σ

/-- A logical row from the loose text of its line on, and what is written for it.
`guarded` is what the line has in front of that. -/
structure Folds (touched : Bool) (guarded : Text) (σ ω : List Glyph) : Prop where
  same : ¬ Loses touched σ → ω = σ
  solid : Loses touched σ → guarded = [] ∨
    ∃ c ∈ guarded ++ Text.ofGlyphs (plain σ), Text.isWhite c = false
  dropped : Loses touched σ → guarded = [] → Emptied σ → ω = []
  tracks : Loses touched σ → (guarded = [] → ¬ Emptied σ) → Tracks true (plain σ) ω
  nonempty : Loses touched σ → guarded = [] → ¬ Emptied σ →
    Text.ofGlyphs ω ≠ terminator (plain σ)

/-- The logical rows of a text, the first one in progress, and the pieces of the
output written for them. -/
def Folding (touched : Bool) (guarded : Text) (σ ω : List Glyph) : Prop :=
  ∃ x xs y ys, logicalRows σ = x :: xs ∧ ω = y ++ ys.flatten ∧ Folds touched guarded x y ∧
    List.Forall₂ Collapsed xs ys

namespace Folds
variable {touched : Bool} {guarded : Text} {σ ω : List Glyph}

/-- What is written for a row from its front on is what the policy owes it. -/
theorem collapsed (h : Folds false [] σ ω) : Collapsed σ ω := by
  refine ⟨fun hc => h.same (by simp [Loses, hc]), fun hc => h.dropped (.inr hc) rfl, ?_⟩
  intro hc he
  have htracks := h.tracks (.inr hc) fun _ => he
  refine ⟨htracks.ink.trans (filter_isInk_plain σ), htracks.clean, ?_⟩
  obtain ⟨body, tail, rfl, htail, -, hneat⟩ := htracks.ends
  refine ⟨body, tail, rfl, htail, ?_, hneat (.inl rfl)⟩
  rintro rfl
  exact h.nonempty (.inr hc) rfl he htail

/-- A row is not dropped if some solid character outside comments is in it. -/
theorem of_solid (hsame : ¬ Loses touched σ → ω = σ)
    (hsolid : Loses touched σ → ∃ c ∈ guarded ++ Text.ofGlyphs (plain σ), Text.isWhite c = false)
    (htracks : Loses touched σ → Tracks true (plain σ) ω) : Folds touched guarded σ ω := by
  have hink : Loses touched σ → guarded = [] →
      ∃ c ∈ Text.ofGlyphs (plain σ), Text.isWhite c = false := by
    intro ht hg
    have hsolid := hsolid ht
    rwa [hg] at hsolid
  refine ⟨hsame, fun ht => .inr (hsolid ht), ?_, fun ht _ => htracks ht, ?_⟩
  · intro ht hg he
    exact absurd he (not_emptied_of_solid (hink ht hg))
  · intro ht hg _
    exact (htracks ht).ne_terminator (hink ht hg)

/-- What is written for a row from which a comment was taken out is written for the
row that had the comment. -/
theorem of_resembles {τ : List Glyph} (h : Folds true guarded τ ω) (hr : Resembles σ τ)
    (hc : HasComment σ) : Folds touched guarded σ ω := by
  have hloses : Loses true τ := .inl rfl
  constructor
  · intro hno
    exact absurd (.inr hc) hno
  · intro _
    refine (h.solid hloses).imp id ?_
    rintro ⟨c, hc, hw⟩
    refine ⟨c, ?_, hw⟩
    rcases List.mem_append.1 hc with hc | hc
    · exact List.mem_append_left _ hc
    · exact List.mem_append_right _ (hr.solid hc hw)
  · intro _ hnil he
    exact h.dropped hloses hnil (hr.emptied.1 he)
  · intro _ he
    have htracks := h.tracks hloses fun hnil => mt hr.emptied.2 (he hnil)
    refine htracks.retract (.inl rfl) ?_ hr.returns (.inl hr.ends.symm)
    rw [filter_isInk_plain, filter_isInk_plain, hr.ink]
  · intro _ hnil he
    rw [hr.ends]
    exact h.nonempty hloses hnil (mt hr.emptied.2 he)

end Folds

/-! ## The rows one after the other -/

section Folding
variable {touched : Bool} {guarded : Text} {σ ω : List Glyph}

theorem Folding.pieces (h : Folding false [] σ ω) :
    ∃ pieces, List.Forall₂ Collapsed (logicalRows σ) pieces ∧ ω = pieces.flatten := by
  obtain ⟨x, xs, y, ys, hx, rfl, hxy, hxs⟩ := h
  rw [hx]
  exact ⟨y :: ys, .cons hxy.collapsed hxs, rfl⟩

/-- The last row. -/
theorem Folds.last (h : Folds touched guarded σ ω) (hσ : ∀ g ∈ σ, g.isFeed = false) :
    Folding touched guarded σ ω :=
  ⟨σ, [], ω, [], cutBehind_of_not hσ, by simp, h, .nil⟩

/-- A row with its line feed, and the rows behind it. -/
theorem Folds.line {π σ' ω' : List Glyph} {g : Glyph} (h : Folds touched guarded (π ++ [g]) ω)
    (hπ : ∀ g ∈ π, g.isFeed = false) (hg : g.isFeed = true) (h' : Folding false [] σ' ω') :
    Folding touched guarded ((π ++ [g]) ++ σ') (ω ++ ω') := by
  obtain ⟨pieces, hpieces, rfl⟩ := h'.pieces
  refine ⟨π ++ [g], logicalRows σ', ω, pieces, ?_, rfl, h, hpieces⟩
  rw [List.append_assoc, List.singleton_append]
  exact cutBehind_line hπ hg σ'

/-- A change in front of the first line feed changes the first row only. -/
theorem Folding.change {touched' : Bool} {guarded' : Text} {π π' ρ : List Glyph}
    (hπ : ∀ g ∈ π, g.isFeed = false) (hπ' : ∀ g ∈ π', g.isFeed = false)
    (hstep : ∀ x y, Folds touched' guarded' (π' ++ x) y → Folds touched guarded (π ++ x) (ρ ++ y))
    (h : Folding touched' guarded' (π' ++ σ) ω) : Folding touched guarded (π ++ σ) (ρ ++ ω) := by
  obtain ⟨x', xs', y, ys, hx', rfl, hxy, hxs⟩ := h
  obtain ⟨x, xs, hx⟩ := List.exists_cons_of_ne_nil (cutBehind_ne_nil isFeed σ)
  rw [logicalRows, cutBehind_append hπ', hx] at hx'
  obtain ⟨rfl, rfl⟩ := List.cons.inj hx'
  refine ⟨π ++ x, xs, ρ ++ y, ys, ?_, (List.append_assoc ..).symm, hstep x y hxy, hxs⟩
  rw [logicalRows, cutBehind_append hπ, hx]
  rfl

end Folding
end Glyph

open Glyph (Folding Folds Loses)

namespace Line
variable {l : Line}

/-! ## The end of a row -/

theorem dropEndWhile_eq_nil {s : Text} :
    Text.dropEndWhile Text.isPad s = [] ↔ ∀ c ∈ s, Text.isPad c = true :=
  List.rdropWhile_eq_nil_iff

theorem tail_of_touched (ht : l.touched = true) (policy : Policy) :
    l.tail policy =
      if policy = .collapse ∧ l.guarded = [] ∧
        Text.dropEndWhile Text.isPad (Text.lineBody l.loose.reverse) = [] then []
      else Text.dropEndWhile Text.isPad (Text.lineBody l.loose.reverse) ++
        (Text.splitTerminator l.loose.reverse).2 := by
  rw [tail, if_pos ht]
  rfl

/-- An empty touched line goes, -/
theorem tail_of_empty (ht : l.touched = true) (hg : l.guarded = [])
    (hp : ∀ c ∈ Text.lineBody l.loose.reverse, Text.isPad c = true) : l.tail .collapse = [] := by
  rw [tail_of_touched ht, if_pos ⟨rfl, hg, dropEndWhile_eq_nil.2 hp⟩]

/-- and any other line ends as under the preserving policy. -/
theorem tail_of_not_empty (ht : l.touched = true)
    (h : l.guarded = [] → ¬ ∀ c ∈ Text.lineBody l.loose.reverse, Text.isPad c = true) :
    l.tail .collapse = l.tail .preserve := by
  rw [tail_of_touched ht, tail_of_touched ht, if_neg, if_neg (by simp)]
  rintro ⟨-, hg, hb⟩
  exact h hg (dropEndWhile_eq_nil.1 hb)

theorem tail_ne_terminator (ht : l.touched = true)
    (h : ¬ ∀ c ∈ Text.lineBody l.loose.reverse, Text.isPad c = true) :
    l.tail .preserve ≠ (Text.splitTerminator l.loose.reverse).2 := by
  rw [tail_of_touched ht, if_neg (by simp)]
  intro he
  exact h (dropEndWhile_eq_nil.1 (List.append_cancel_right (he.trans (List.nil_append _).symm)))

theorem folds_tail (hl : l.touched = true → l.guarded = [] ∨ ∃ c ∈ l.guarded, Text.isWhite c = false)
    (h : '\n' ∉ l.loose ∨ ∃ a : Text, '\n' ∉ a ∧ l.loose.reverse = a ++ ['\n']) :
    Folds l.touched l.guarded (Text.glyphs .code l.loose.reverse)
      (Text.glyphs .code (l.tail .collapse)) := by
  -- all that is left is code, so it loses nothing but to comments in front
  have hloses : Loses l.touched (Text.glyphs .code l.loose.reverse) → l.touched = true :=
    fun ht => ht.resolve_right (Glyph.not_hasComment_glyphs rfl _)
  have hemptied : Emptied (Text.glyphs .code l.loose.reverse) ↔
      ∀ c ∈ Text.lineBody l.loose.reverse, Text.isPad c = true := by
    rw [Emptied, Glyph.plain_code, Text.ofGlyphs_glyphs]
  constructor
  · intro hno
    have ht : l.touched = false := by simpa using fun ht => hno (.inl ht)
    rw [tail, ht, if_neg (by simp)]
  · intro ht
    refine (hl (hloses ht)).imp id ?_
    rintro ⟨c, hc, hw⟩
    exact ⟨c, List.mem_append_left _ hc, hw⟩
  · intro ht hg he
    rw [tail_of_empty (hloses ht) hg (hemptied.1 he)]
    rfl
  · intro ht he
    rw [tail_of_not_empty (hloses ht) fun hg => mt hemptied.2 (he hg), Glyph.plain_code]
    have htracks := tracks_tail h
    rwa [hloses ht] at htracks
  · intro ht _ he
    have he := mt hemptied.2 he
    rw [tail_of_not_empty (hloses ht) fun _ => he, Glyph.plain_code, terminator,
      Text.ofGlyphs_glyphs, Text.ofGlyphs_glyphs]
    exact tail_ne_terminator (hloses ht) he

/-- A row that ends in code. -/
theorem folding_add {before : Option Char} (hl : l.Fits before) {a : Text} (ha : '\n' ∉ a)
    {σ ω : List Glyph} (h : Folding false [] σ ω) :
    Folding l.touched l.guarded (Text.glyphs .code (l.add (a ++ ['\n'])).loose.reverse ++ σ)
      (Text.glyphs .code ((l.add (a ++ ['\n'])).tail .collapse) ++ ω) := by
  have hline : (l.add (a ++ ['\n'])).loose.reverse = (l.loose.reverse ++ a) ++ ['\n'] := by
    simp [add]
  have hnot : '\n' ∉ l.loose.reverse ++ a := by simp [ha, hl.loose]
  have hfolds := folds_tail (l := l.add (a ++ ['\n'])) hl.closes (.inr ⟨_, hnot, hline⟩)
  rw [hline, Text.glyphs_append] at hfolds ⊢
  exact hfolds.line (Glyph.not_feed_glyphs (.inr hnot)) rfl h

/-! ## Literals -/

/-- The solid character of a line to which a literal came. -/
theorem solid_addLiteral {s u : Text} (hne : s ≠ [])
    (h : (l.addLiteral s).guarded = [] ∨
      ∃ c ∈ (l.addLiteral s).guarded ++ u, Text.isWhite c = false) :
    ∃ c ∈ l.guarded ++ (l.loose.reverse ++ (s ++ u)), Text.isWhite c = false := by
  obtain ⟨c, hc, hw⟩ := h.resolve_left (by simp [addLiteral, hne])
  refine ⟨c, ?_, hw⟩
  simp only [addLiteral, List.mem_append, List.mem_reverse] at hc ⊢
  rcases hc with (hc | hc | hc) | hc
  · exact .inr (.inr (.inl hc))
  · exact .inr (.inl hc)
  · exact .inl hc
  · exact .inr (.inr (.inr hc))

theorem loses_literal {touched : Bool} {kind : Kind} (hk : kind.isLiteral = true) {p s : Text}
    {σ : List Glyph} :
    Loses touched (Text.glyphs .code p ++ (Text.glyphs kind s ++ σ)) ↔ Loses touched σ := by
  unfold Loses
  rw [Glyph.hasComment_append, Glyph.hasComment_append,
    or_iff_right (Glyph.not_hasComment_glyphs rfl p),
    or_iff_right (Glyph.not_hasComment_glyphs (Kind.not_comment_of_literal hk) s)]

theorem plain_literal {kind : Kind} (hk : kind.isLiteral = true) {p s : Text} {σ : List Glyph} :
    plain (Text.glyphs .code p ++ (Text.glyphs kind s ++ σ)) =
      Text.glyphs .code p ++ (Text.glyphs kind s ++ plain σ) := by
  rw [Glyph.plain_append, Glyph.plain_append, Glyph.plain_code,
    Glyph.plain_glyphs (Kind.not_comment_of_literal hk)]

/-- The row goes on behind a literal. -/
theorem folds_literal {kind : Kind} (hk : kind.isLiteral = true) (hloose : '\n' ∉ l.loose) {s : Text}
    (hs : '\n' ∉ s) (hr : '\r' ∉ s) (hne : s ≠ []) {x y : List Glyph}
    (h : Folds (l.addLiteral s).touched (l.addLiteral s).guarded x y) :
    Folds l.touched l.guarded (Text.glyphs .code l.loose.reverse ++ (Text.glyphs kind s ++ x))
      (Text.glyphs .code l.loose.reverse ++ (Text.glyphs kind s ++ y)) := by
  have hguarded : (l.addLiteral s).guarded ≠ [] := by simp [addLiteral, hne]
  -- behind the literal a comment has to have something solid in front of it
  apply Folds.of_solid
  · intro hno
    rw [loses_literal hk] at hno
    rw [h.same hno]
  · intro ht
    rw [loses_literal hk] at ht
    rw [plain_literal hk]
    simpa using solid_addLiteral hne (h.solid ht)
  · intro ht
    rw [loses_literal hk] at ht
    rw [plain_literal hk]
    refine Tracks.literal hk (by simpa using hloose) hs hne (fun hl => ?_)
      (h.tracks ht fun hg => absurd hg hguarded)
    exact absurd (List.mem_of_getLast? hl) hr

theorem folding_literal {before : Option Char} (hl : l.Fits before) {p : Piece}
    (hk : p.kind.isLiteral = true) (hp : '\n' ∉ p.text) (hr : '\r' ∉ p.text) (hne : p.text ≠ [])
    {ps : List Piece} {ω : List Glyph}
    (h : Folding (l.addLiteral p.text).touched (l.addLiteral p.text).guarded
      (Piece.glyphsOf ps) ω) :
    Folding l.touched l.guarded (Text.glyphs .code l.loose.reverse ++ Piece.glyphsOf (p :: ps))
      (Text.glyphs .code l.loose.reverse ++ (p.glyphs ++ ω)) := by
  have hloose : '\n' ∉ l.loose.reverse := by simpa using hl.loose
  have hfront : ∀ g ∈ Text.glyphs .code l.loose.reverse ++ p.glyphs, g.isFeed = false :=
    List.forall_mem_append.2
      ⟨Glyph.not_feed_glyphs (.inr hloose), Glyph.not_feed_glyphs (.inr hp)⟩
  have h : Folding (l.addLiteral p.text).touched (l.addLiteral p.text).guarded
      ([] ++ Piece.glyphsOf ps) ω := h
  have h : Folding l.touched l.guarded
      ((Text.glyphs .code l.loose.reverse ++ p.glyphs) ++ Piece.glyphsOf ps)
      ((Text.glyphs .code l.loose.reverse ++ p.glyphs) ++ ω) := by
    refine h.change hfront (by simp) fun x y hxy => ?_
    rw [List.append_assoc, List.append_assoc]
    exact folds_literal hk hl.loose hp hr hne hxy
  simpa [Piece.glyphsOf] using h

/-- The row ends inside a literal. -/
theorem folds_literal_line {kind : Kind} (hk : kind.isLiteral = true) (hloose : '\n' ∉ l.loose)
    {a : Text} (ha : '\n' ∉ a) (hs : l.loose = [] ∨ Text.isSolid (a ++ ['\n']).head? = true)
    (hl : l.touched = true → (l.addLiteral (a ++ ['\n'])).guarded = [] ∨
      ∃ c ∈ (l.addLiteral (a ++ ['\n'])).guarded, Text.isWhite c = false) :
    Folds l.touched l.guarded
      (Text.glyphs .code l.loose.reverse ++ (Text.glyphs kind (a ++ ['\n']) ++ []))
      (Text.glyphs .code l.loose.reverse ++ (Text.glyphs kind (a ++ ['\n']) ++ [])) := by
  apply Folds.of_solid
  · intro _
    rfl
  · intro ht
    rw [loses_literal hk] at ht
    have ht : l.touched = true := ht.resolve_right (by simp [HasComment])
    rw [plain_literal hk]
    simpa [plain] using solid_addLiteral (s := a ++ ['\n']) (u := []) (by simp) (by simpa using hl ht)
  · intro _
    rw [plain_literal hk]
    simpa [plain] using Tracks.literal_line hk (by simpa using hloose) ha (by simpa using hs) true

/-! ## Comments -/

theorem folds_clear {p : Piece} (hk : p.kind.isComment = true) (hne : p.text ≠ []) {s : Text}
    (hs : ∀ c ∈ s, Text.isPad c = true) (hn : '\n' ∉ l.loose) (hr : '\r' ∉ l.loose)
    {x y : List Glyph}
    (h : Folds true l.guarded (Text.glyphs .code ((l.clear p).add s).loose.reverse ++ x) y) :
    Folds l.touched l.guarded (Text.glyphs .code l.loose.reverse ++ (p.glyphs ++ x)) y := by
  obtain ⟨pads, hloose, hpads⟩ := exists_clear l p
  have hold : l.loose.reverse = (l.clear p).loose.reverse ++ pads.reverse := by
    rw [hloose, List.reverse_append]
  have hnew : ((l.clear p).add s).loose.reverse = (l.clear p).loose.reverse ++ s := by simp [add]
  rw [hloose] at hn hr
  rw [hnew] at h
  rw [hold]
  refine h.of_resembles (Glyph.resembles_front hk ?_ ?_ ?_ hs _ _) ?_
  · exact fun hm => hn (List.mem_append_right _ (List.mem_reverse.1 hm))
  · exact fun hm => hr (List.mem_append_right _ (List.mem_reverse.1 hm))
  · exact fun c hc => hpads c (List.mem_reverse.1 hc)
  · exact Glyph.hasComment_append.2 (.inr (Glyph.hasComment_append.2 (.inl (p.hasComment hk hne))))

theorem folding_clear {before : Option Char} (hl : l.Fits before) (hr : '\r' ∉ l.loose) {p : Piece}
    (hk : p.kind.isComment = true) (hne : p.text ≠ []) {s : Text}
    (hs : ∀ c ∈ s, Text.isPad c = true) {ps : List Piece} {ω : List Glyph}
    (h : Folding ((l.clear p).add s).touched ((l.clear p).add s).guarded
      (Text.glyphs .code ((l.clear p).add s).loose.reverse ++ Piece.glyphsOf ps) ω) :
    Folding l.touched l.guarded (Text.glyphs .code l.loose.reverse ++ Piece.glyphsOf (p :: ps)) ω := by
  have hloose : '\n' ∉ l.loose.reverse := by simpa using hl.loose
  have hold : ∀ g ∈ Text.glyphs .code l.loose.reverse ++ p.glyphs, g.isFeed = false :=
    List.forall_mem_append.2
      ⟨Glyph.not_feed_glyphs (.inr hloose), Glyph.not_feed_glyphs (.inl hk)⟩
  have hnew : '\n' ∉ ((l.clear p).add s).loose.reverse := by
    rw [List.mem_reverse, add, List.mem_append, List.mem_reverse]
    rintro (hm | hm)
    · cases hs _ hm
    · exact hl.loose (mem_clear hm)
  rw [show ((l.clear p).add s).touched = true from touched_clear l p,
    show ((l.clear p).add s).guarded = l.guarded from guarded_clear l p] at h
  have h : Folding l.touched l.guarded
      ((Text.glyphs .code l.loose.reverse ++ p.glyphs) ++ Piece.glyphsOf ps) ([] ++ ω) := by
    -- the line feeds of the comment do not cut the row
    refine h.change hold (Glyph.not_feed_glyphs (.inr hnew)) fun x y hxy => ?_
    rw [List.append_assoc]
    exact folds_clear hk hne hs hl.loose hr hxy
  simpa [Piece.glyphsOf] using h

end Line

/-! ## From piece to piece -/

/-- What is written keeps up with the pieces, logical row by logical row. -/
theorem Writing.folding {before : Option Char} {l : Line} {ps : List Piece}
    (h : Writing .collapse before l ps) (hr : '\r' ∉ l.loose)
    (hps : ∀ p ∈ ps, p.kind.isComment = false → '\r' ∉ Text.lineBody p.text) :
    Folding l.touched l.guarded (Text.glyphs .code l.loose.reverse ++ Piece.glyphsOf ps)
      (l.written .collapse ps) := by
  -- code waits in the loose text until its row is over, literals are written at once
  induction h with
  | @stop _ l hl =>
    have hfeed : ∀ g ∈ Text.glyphs .code l.loose.reverse, g.isFeed = false :=
      Glyph.not_feed_glyphs (.inr (by simpa using hl.loose))
    simpa [Piece.glyphsOf, Line.written] using (Line.folds_tail hl.closes (.inl hl.loose)).last hfeed
  | @code _ next l s ps hl ho hs _ ih =>
    have hs' := hps ⟨.code, s, next⟩ (by simp) rfl
    rw [Text.lineBody_of_not_mem hs] at hs'
    have ih := ih (by simp [Line.add, hs', hr]) fun p hp => hps p (by simp [hp])
    rw [Line.written_next rfl (Piece.breaks_of_not_mem hs), Line.feed_code]
    simpa [Line.add, Piece.glyphsOf, Piece.glyphs] using ih
  | codeBreak hl ha _ ih =>
    have ih := ih (by simp) fun p hp => hps p (by simp [hp])
    rw [Line.written_break rfl (Piece.breaks_of_not_comment rfl), Line.feed_code]
    have h := Line.folding_add hl ha ih
    simpa [Line.add, Piece.glyphsOf, Piece.glyphs] using h
  | @literal _ next l kind s c ps hl hk hs hc _ _ ih =>
    have hs' := hps ⟨kind, s, next⟩ (by simp) (Kind.not_comment_of_literal hk)
    rw [Text.lineBody_of_not_mem hs] at hs'
    have ih := ih (by simp [Line.addLiteral]) fun p hp => hps p (by simp [hp])
    rw [Line.written_literal hk (Piece.breaks_of_not_mem hs)]
    exact Line.folding_literal hl hk hs hs' (by rintro rfl; cases hc) ih
  | @literalBreak _ next l kind a ps hl hk ha hs hfits _ ih =>
    have ih := ih (by simp) fun p hp => hps p (by simp [hp])
    have hc := Kind.not_comment_of_literal hk
    rw [Line.written_literalBreak hk (Piece.breaks_of_not_comment hc)]
    have hfolds := Line.folds_literal_line hk hl.loose ha hs hfits.closes
    rw [List.append_nil, Text.glyphs_append, ← List.append_assoc] at hfolds
    have hfeed : (Glyph.mk kind '\n').isFeed = true := by simp [isFeed, hc]
    have hloose : '\n' ∉ l.loose.reverse := by simpa using hl.loose
    have hfront : ∀ g ∈ Text.glyphs .code l.loose.reverse ++ Text.glyphs kind a,
        g.isFeed = false :=
      List.forall_mem_append.2
        ⟨Glyph.not_feed_glyphs (.inr hloose), Glyph.not_feed_glyphs (.inr ha)⟩
    have h := hfolds.line hfront hfeed ih
    simpa [Piece.glyphsOf, Piece.glyphs] using h
  | @comment _ l p ps hl ho hk hne hbreaks _ _ _ _ ih =>
    rw [Line.written_next (Kind.not_literal_of_comment hk) hbreaks, Line.feed_comment hk]
    rw [Line.takeOut_next hbreaks] at ih ⊢
    have hclear : '\r' ∉ (l.clear p).loose := fun hm => hr (Line.mem_clear hm)
    have hps' : ∀ p ∈ ps, p.kind.isComment = false → '\r' ∉ Text.lineBody p.text :=
      fun p hp => hps p (by simp [hp])
    split
    · rename_i hsolid
      rw [if_pos hsolid] at ih
      exact Line.folding_clear hl hr hk hne (by simp [Text.isPad])
        (ih (by simp [Line.add, hclear]) hps')
    · rename_i hsolid
      rw [if_neg hsolid] at ih
      exact Line.folding_clear (s := []) hl hr hk hne (by simp) (ih hclear hps')
  | commentBreak _ _ _ _ _ hp _ _ => cases hp

/-! ## Main result -/

namespace Rules
variable {r : Rules}

/-- Where no carriage return is bare, a piece that is not of a comment has one in
its terminator only. -/
theorem not_return_pieces {policy : Policy} {s : Text} (hs : s.NoBareReturn) :
    ∀ p ∈ r.pieces policy s, p.kind.isComment = false → '\r' ∉ Text.lineBody p.text := by
  -- a span ends in the middle of no line end, so its text has no bare return either
  have hlines : ∀ {kind : Kind} {t : Text} {next : Option Char}, t.NoBareReturn →
      ∀ p ∈ policy.pieces kind t next, p.kind.isComment = false → '\r' ∉ Text.lineBody p.text := by
    intro kind t next ht p hp hk
    have hkind : kind.isComment = false := by
      unfold Policy.pieces at hp
      split at hp
      · obtain ⟨line, -, rfl⟩ := List.mem_map.1 hp
        exact hk
      · rw [List.mem_singleton.1 hp] at hk
        exact hk
    rw [Policy.pieces, if_pos (Policy.splits_of_not_comment hkind)] at hp
    obtain ⟨line, hline, rfl⟩ := List.mem_map.1 hp
    exact Text.not_return_lineBody ht hline
  induction s using reading r with
  | nil => simp
  | code code rest hne hc ih =>
    intro p hp
    rw [pieces_code hne hc] at hp
    rcases List.mem_append.1 hp with hp | hp
    · exact hlines (hs.front fun _ => hc.not_return) p hp
    · exact ih hs.of_append p hp
  | construct o inside closed rest ho he ih =>
    intro p hp
    rw [pieces_construct ho he] at hp
    rw [← List.append_assoc] at hs
    rcases List.mem_append.1 hp with hp | hp
    · exact hlines (hs.front (not_return (mem_of_opener? ho).1 he)) p hp
    · exact ih hs.of_append p hp

/-- Under the collapsing policy a text comes to one piece for each of its logical
rows, if none of its carriage returns is bare. -/
theorem collapse_rows (r : Rules) {s : Text} (hs : s.NoBareReturn) :
    ∃ pieces, List.Forall₂ Collapsed (logicalRows (r.glyphs s)) pieces ∧
      r.strip .collapse s = Text.ofGlyphs pieces.flatten ∧
      r.glyphs (r.strip .collapse s) = pieces.flatten := by
  have h := (r.writing_pieces .collapse s).folding (by simp) (not_return_pieces hs)
  rw [glyphsOf_pieces] at h
  obtain ⟨pieces, hpieces, hwritten⟩ := Glyph.Folding.pieces h
  refine ⟨pieces, hpieces, ?_, ?_⟩
  · rw [strip_eq_ofGlyphs]
    exact congrArg Text.ofGlyphs hwritten
  · rw [glyphs_strip]
    exact hwritten

/-- A comment over two lines, and one that is all there is in its line. -/
theorem collapse_rows_common :
    ∃ s : Text, s = ['x', ' ', '/', '*', '\r', '\n', '*', '/', '\r', '\n', '\t', '/', '/', '\n'] ∧
      s.NoBareReturn ∧ common.strip .collapse s = ['x', '\r', '\n'] ∧
      ∃ pieces, List.Forall₂ Collapsed (logicalRows (common.glyphs s)) pieces ∧
        common.strip .collapse s = Text.ofGlyphs pieces.flatten ∧
        common.glyphs (common.strip .collapse s) = pieces.flatten := by
  have hs : Text.NoBareReturn
      ['x', ' ', '/', '*', '\r', '\n', '*', '/', '\r', '\n', '\t', '/', '/', '\n'] := by simp
  exact ⟨_, rfl, hs, by decide +kernel, collapse_rows common hs⟩

end Rules
end Gloss
