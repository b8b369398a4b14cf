import Gloss.Language
import Gloss.Proofs.Append
import Gloss.Proofs.Collapse
import Gloss.Proofs.CommentText
import Gloss.Proofs.Joined
/-!
# Line comments

Where there are no block comments, stripping takes every line by itself: its comment
goes, and so do the spaces and tabs of code in front of it (`Glyph.uncomment`). The
collapsing policy leaves out the lines of which nothing is left (`Glyph.isVacated`).

The line in progress shows what has been read of its row (`Line.Shows`) and stays
untouched, since behind a comment the row is over. So `Line.finish` comes to the rows
one after the other (`Follows`).
-/

namespace Gloss

open Glyph (rows)

/-- A text without line feeds has no carriage return either, if none is bare. -/
theorem Text.NoBareReturn.not_mem {s : Text} (h : s.NoBareReturn) (hs : '\n' ∉ s) : '\r' ∉ s := by
  intro hr
  obtain ⟨a, b, rfl⟩ := List.append_of_mem hr
  have hb := (h a b rfl).subset (List.mem_singleton_self _)
  exact hs (List.mem_append_right a (List.mem_cons_of_mem _ hb))

/-- A line end and nothing else. -/
def Text.IsStop (stop : Text) : Prop := stop = ['\n'] ∨ stop = ['\r', '\n']

theorem Text.IsStop.splitTerminator {stop : Text} (h : stop.IsStop) :
    stop.splitTerminator = ([], stop) := by
  rcases h with rfl | rfl <;> rfl

theorem Text.LineEnd.exists_stop {s : Text} (h : s.LineEnd) :
    ∃ stop t, stop.IsStop ∧ s = stop ++ t := by
  rcases h with ⟨t, rfl⟩ | ⟨t, rfl⟩
  · exact ⟨_, t, .inl rfl, rfl⟩
  · exact ⟨_, t, .inr rfl, rfl⟩

theorem Text.ne_nil_of_solid {s : Text} (h : isSolid s.head? = true) : s ≠ [] := by
  rintro rfl
  cases h

theorem Text.not_comment_glyphs {kind : Kind} (hk : kind.isComment = false) (s : Text) :
    ∀ g ∈ glyphs kind s, g.kind.isComment = false := by
  intro g hg
  rw [(mem_glyphs.1 hg).1, hk]

/-! ## The reference -/

namespace Glyph

/-- A space or a tab of code. -/
def isPadding (g : Glyph) : Bool := g.kind == .code && Text.isPad g.char

/-- Spaces and tabs of code, if any, and then a comment. -/
def beforeComment : List Glyph → Bool
  | [] => false
  | g :: gs => g.kind.isComment || (g.isPadding && beforeComment gs)

/-- What is left without the comments and the spaces and tabs of code directly before
one. -/
def uncomment : List Glyph → List Glyph
  | [] => []
  | g :: gs => if beforeComment (g :: gs) then uncomment gs else g :: uncomment gs

/-- The text that is left. -/
def bare (σ : List Glyph) : Text := Text.ofGlyphs (uncomment σ)

/-- A comment stood in the row, and nothing is left in front of its terminator. -/
def isVacated (row : List Glyph) : Bool :=
  row.any (·.kind.isComment) && (Text.lineBody (bare row)).isEmpty

/-- What the policy leaves of a row. -/
def leave (policy : Policy) (row : List Glyph) : Text :=
  if policy = .collapse ∧ isVacated row = true then [] else bare row

/-- What the policy leaves of the rows. -/
def leaveAll (policy : Policy) (σ : List Glyph) : Text := (rows σ).flatMap (leave policy)

/-- No comment, and no space or tab of code at the end. -/
structure Sealed (σ : List Glyph) : Prop where
  plain : ∀ g ∈ σ, g.kind.isComment = false
  ends : ∀ g, σ.getLast? = some g → g.isPadding = false

variable {π σ τ : List Glyph} {g : Glyph} {policy : Policy}

/-! ## Taking comments out of glyphs -/

theorem not_padding_of_feed (h : g.char = '\n') : g.isPadding = false := by
  simp [isPadding, h, Text.isPad]

theorem beforeComment_append (hg : g.isPadding = false) (π τ : List Glyph) :
    beforeComment (π ++ g :: τ) = beforeComment (π ++ [g]) := by
  induction π with
  | nil => simp [beforeComment, hg]
  | cons h π ih => rw [List.cons_append, List.cons_append, beforeComment, beforeComment, ih]

/-- What stands behind anything but a space or a tab of code does not matter in front
of it. -/
theorem uncomment_append (hg : g.isPadding = false) (π τ : List Glyph) :
    uncomment (π ++ g :: τ) = uncomment (π ++ [g]) ++ uncomment τ := by
  induction π with
  | nil =>
    have h := beforeComment_append hg [] τ
    rw [List.nil_append, List.nil_append] at h ⊢
    rw [uncomment, uncomment, h]
    split <;> rfl
  | cons h π ih =>
    have hb := beforeComment_append hg (h :: π) τ
    rw [List.cons_append, List.cons_append] at hb ⊢
    rw [uncomment, uncomment, hb, ih]
    split <;> rfl

theorem uncomment_of_plain (h : ∀ g ∈ σ, g.kind.isComment = false) : uncomment σ = σ := by
  have hbefore : ∀ τ : List Glyph, (∀ g ∈ τ, g.kind.isComment = false) → beforeComment τ = false := by
    intro τ hτ
    induction τ with
    | nil => rfl
    | cons g τ ih =>
      rw [List.forall_mem_cons] at hτ
      rw [beforeComment, hτ.1, ih hτ.2, Bool.and_false, Bool.or_false]
  induction σ with
  | nil => rfl
  | cons g σ ih =>
    rw [uncomment, hbefore _ h, ih fun k hk => h k (List.mem_cons_of_mem _ hk)]
    rfl

theorem Sealed.uncomment_append (h : Sealed π) (τ : List Glyph) :
    uncomment (π ++ τ) = π ++ uncomment τ := by
  rcases List.eq_nil_or_concat π with rfl | ⟨σ, g, rfl⟩
  · rfl
  · rw [List.concat_eq_append] at h ⊢
    rw [List.append_assoc, List.singleton_append,
      Glyph.uncomment_append (h.ends g List.getLast?_concat), uncomment_of_plain h.plain]

theorem sealed_nil : Sealed [] := ⟨nofun, nofun⟩

theorem uncomment_comment {kind : Kind} (hk : kind.isComment = true) (s : Text) (τ : List Glyph) :
    uncomment (Text.glyphs kind s ++ τ) = uncomment τ := by
  induction s with
  | nil => rfl
  | cons c s ih =>
    rw [Text.glyphs_cons, List.cons_append, uncomment, beforeComment, hk, Bool.true_or, if_pos rfl, ih]

/-- Spaces and tabs go with the comment behind them. -/
theorem uncomment_pads {p : Text} (hp : ∀ c ∈ p, Text.isPad c = true)
    (hτ : beforeComment τ = true) : uncomment (Text.glyphs .code p ++ τ) = uncomment τ := by
  -- each of them stands in front of a comment, too
  have hbefore : beforeComment (Text.glyphs .code p ++ τ) = true ∧
      uncomment (Text.glyphs .code p ++ τ) = uncomment τ := by
    induction p with
    | nil => exact ⟨hτ, rfl⟩
    | cons c p ih =>
      rw [List.forall_mem_cons] at hp
      obtain ⟨hb, hu⟩ := ih hp.2
      have hb' : beforeComment (⟨.code, c⟩ :: (Text.glyphs .code p ++ τ)) = true := by
        simp [beforeComment, isPadding, hp.1, hb]
      refine ⟨hb', ?_⟩
      rw [Text.glyphs_cons, List.cons_append, uncomment, hb', if_pos rfl, hu]
  exact hbefore.2

/-- Code keeps its spaces and tabs but for those at its end. -/
theorem Sealed.append_code (h : Sealed π) {core : Text}
    (hcore : ∀ c, core.getLast? = some c → Text.isPad c = false) :
    Sealed (π ++ Text.glyphs .code core) := by
  constructor
  · intro g hg
    rcases List.mem_append.1 hg with hg | hg
    · exact h.plain g hg
    · exact Text.not_comment_glyphs rfl core g hg
  · intro g hg
    rw [List.getLast?_append, Text.glyphs, List.getLast?_map] at hg
    cases hc : core.getLast? with
    | none =>
      rw [hc] at hg
      exact h.ends g hg
    | some c =>
      rw [hc] at hg
      obtain rfl := Option.some.inj hg
      simp [isPadding, hcore c hc]

/-- Of code in front of a comment the spaces and tabs at its end go. -/
theorem Sealed.uncomment_code (h : Sealed π) {kind : Kind} (hk : kind.isComment = true)
    {s : Text} (hs : s ≠ []) (code : Text) (τ : List Glyph) :
    uncomment (π ++ (Text.glyphs .code code ++ (Text.glyphs kind s ++ τ))) =
      π ++ (Text.glyphs .code (Text.dropEndWhile Text.isPad code) ++ uncomment τ) := by
  have hcode : code = Text.dropEndWhile Text.isPad code ++ code.rtakeWhile Text.isPad :=
    (List.rdropWhile_append_rtakeWhile ..).symm
  have hcore : ∀ c, (Text.dropEndWhile Text.isPad code).getLast? = some c → Text.isPad c = false := by
    intro c hc
    have hne := List.ne_nil_of_mem (List.mem_of_getLast? hc)
    rw [List.getLast?_eq_some_getLast hne] at hc
    obtain rfl := Option.some.inj hc
    exact Bool.eq_false_iff.2 (List.rdropWhile_last_not _ _ hne)
  have hbefore : beforeComment (Text.glyphs kind s ++ τ) = true := by
    obtain ⟨c, s, rfl⟩ := List.exists_cons_of_ne_nil hs
    simp [beforeComment, hk]
  conv_lhs => rw [hcode]
  rw [Text.glyphs_append, List.append_assoc, ← List.append_assoc, (h.append_code hcore).uncomment_append,
    uncomment_pads (fun c hc => List.mem_rtakeWhile_imp hc) hbefore, uncomment_comment hk,
    List.append_assoc]

/-! ## The rows -/

theorem leave_of_plain (h : ∀ g ∈ σ, g.kind.isComment = false) :
    leave policy σ = Text.ofGlyphs σ := by
  have hany : σ.any (·.kind.isComment) = false := by simpa using h
  rw [leave, isVacated, hany, bare, uncomment_of_plain h, if_neg (by simp)]

/-- A row with a comment behind the code. -/
theorem Sealed.leave_comment (h : Sealed π) {kind : Kind} (hk : kind.isComment = true)
    {s code stop : Text} (hs : s ≠ []) (hstop : Text.splitTerminator stop = ([], stop))
    (hn : '\n' ∉ Text.ofGlyphs π ++ Text.dropEndWhile Text.isPad code)
    (hr : '\r' ∉ Text.ofGlyphs π ++ Text.dropEndWhile Text.isPad code) :
    leave policy (π ++ (Text.glyphs .code code ++ (Text.glyphs kind s ++ Text.glyphs .code stop))) =
      if policy = .collapse ∧ Text.ofGlyphs π ++ Text.dropEndWhile Text.isPad code = [] then []
      else Text.ofGlyphs π ++ Text.dropEndWhile Text.isPad code ++ stop := by
  have htext : bare (π ++ (Text.glyphs .code code ++ (Text.glyphs kind s ++ Text.glyphs .code stop))) =
      Text.ofGlyphs π ++ Text.dropEndWhile Text.isPad code ++ stop := by
    rw [bare, h.uncomment_code hk hs, uncomment_of_plain (Text.not_comment_glyphs rfl stop)]
    simp
  have hbody : Text.lineBody (Text.ofGlyphs π ++ Text.dropEndWhile Text.isPad code ++ stop) =
      Text.ofGlyphs π ++ Text.dropEndWhile Text.isPad code := by
    rw [Text.lineBody, Text.splitTerminator_front hn hr, hstop, List.append_nil]
  have hany : (π ++ (Text.glyphs .code code ++ (Text.glyphs kind s ++ Text.glyphs .code stop))).any
      (·.kind.isComment) = true := by
    obtain ⟨c, s, rfl⟩ := List.exists_cons_of_ne_nil hs
    simp [hk]
  simp only [leave, isVacated, hany, htext, hbody, Bool.true_and, List.isEmpty_iff]

theorem leaveAll_line (policy : Policy) (hπ : '\n' ∉ Text.ofGlyphs π) (hg : g.char = '\n')
    (σ : List Glyph) :
    leaveAll policy (π ++ g :: σ) = leave policy (π ++ [g]) ++ leaveAll policy σ := by
  rw [leaveAll, Glyph.rows_line hπ hg, List.flatMap_cons, leaveAll]

/-- Behind some glyphs a line end of code ends the row. -/
theorem leaveAll_stop (policy : Policy) {stop : Text} (hstop : stop.IsStop)
    (hπ : '\n' ∉ Text.ofGlyphs π) (σ : List Glyph) :
    leaveAll policy (π ++ (Text.glyphs .code stop ++ σ)) =
      leave policy (π ++ Text.glyphs .code stop) ++ leaveAll policy σ := by
  rcases hstop with rfl | rfl
  · exact leaveAll_line policy hπ rfl σ
  · have hπ' : '\n' ∉ Text.ofGlyphs (π ++ [⟨.code, '\r'⟩]) := by simp [hπ]
    have hline := leaveAll_line policy (g := ⟨.code, '\n'⟩) hπ' rfl σ
    rwa [List.append_assoc, List.append_assoc] at hline

theorem leaveAll_of_not_mem (hσ : '\n' ∉ Text.ofGlyphs σ) : leaveAll policy σ = leave policy σ := by
  rw [leaveAll, rows_of_not_mem hσ, List.flatMap_singleton]

theorem leaveAll_preserve (σ : List Glyph) : leaveAll .preserve σ = (rows σ).flatMap bare := rfl

/-- Taking the comments out goes row by row. -/
theorem flatMap_bare_rows (σ : List Glyph) : (rows σ).flatMap bare = bare σ := by
  induction σ using byRows with
  | last σ hσ => rw [rows_of_not_mem hσ, List.flatMap_singleton]
  | line π g σ hπ hg ih =>
    rw [Glyph.rows_line hπ hg, List.flatMap_cons, ih, bare, bare, bare,
      uncomment_append (not_padding_of_feed hg) π σ, Text.ofGlyphs_append]

theorem leaveAll_collapse (σ : List Glyph) :
    leaveAll .collapse σ = ((rows σ).filter fun row => !isVacated row).flatMap bare := by
  rw [leaveAll]
  induction rows σ with
  | nil => rfl
  | cons row rows ih =>
    rw [List.flatMap_cons, List.filter_cons, ih, leave]
    cases isVacated row <;> rfl

end Glyph

/-! ## The line in progress -/

namespace Line

open Glyph (leave leaveAll)

variable {l : Line} {front σ τ : List Glyph} {policy : Policy} {kind : Kind} {c : Char} {s : Text}
  {next : Option Char} {ps : List Piece}

/-- What is shown of the line if its glyphs up to the last literal are `front`. -/
def shown (l : Line) (front : List Glyph) : List Glyph :=
  front ++ Text.glyphs .code l.loose.reverse

/-- No comment was taken out of the line, and `front` are its glyphs up to the last
literal. -/
structure Shows (l : Line) (front : List Glyph) : Prop where
  untouched : l.touched = false
  guarded : Text.ofGlyphs front = l.guarded.reverse
  closed : Glyph.Sealed front
  quiet : '\n' ∉ l.text

theorem shows_new : Shows {} [] := ⟨rfl, rfl, Glyph.sealed_nil, by simp [text]⟩

theorem Shows.ofGlyphs (h : l.Shows front) : Text.ofGlyphs (l.shown front) = l.text := by
  simp [shown, text, h.guarded]

theorem Shows.plain (h : l.Shows front) : ∀ g ∈ l.shown front, g.kind.isComment = false := by
  intro g hg
  rcases List.mem_append.1 hg with hg | hg
  · exact h.closed.plain g hg
  · exact Text.not_comment_glyphs rfl _ g hg

theorem Shows.quiet_append (h : l.Shows front) (kind : Kind) (hs : '\n' ∉ s) :
    '\n' ∉ Text.ofGlyphs (l.shown front ++ Text.glyphs kind s) := by
  simp [h.ofGlyphs, h.quiet, hs]

theorem Shows.close (h : l.Shows front) (policy : Policy) : l.close policy = l.text := by
  rw [Line.close, h.untouched]
  rfl

/-- The line ends with characters that stay. -/
theorem Shows.close_feed (h : l.Shows front) (hk : kind.isComment = false) (policy : Policy)
    (s : Text) (next : Option Char) :
    (l.feed policy ⟨kind, s, next⟩).close policy = l.text ++ s := by
  cases hl : kind.isLiteral with
  | true =>
    rw [feed_literal hl, Line.close, if_neg (by simp [addLiteral, h.untouched]), text_addLiteral]
  | false =>
    have hadd : l.feed policy ⟨kind, s, next⟩ = l.add s := by simp [Line.feed, hk, hl]
    rw [hadd, Line.close, if_neg (by simp [add, h.untouched]), text_add]

/-- One more character that stays. -/
theorem Shows.feed (h : l.Shows front) (hk : kind.isComment = false) (hc : c ≠ '\n')
    (policy : Policy) (next : Option Char) :
    ∃ front', (l.feed policy ⟨kind, [c], next⟩).Shows front' ∧
      (l.feed policy ⟨kind, [c], next⟩).shown front' = l.shown front ++ [⟨kind, c⟩] := by
  have hquiet : '\n' ∉ l.text ++ [c] := by simp [h.quiet, hc.symm]
  cases hl : kind.isLiteral with
  | true =>
    rw [feed_literal hl]
    refine ⟨l.shown front ++ [⟨kind, c⟩], ⟨h.untouched, ?_, ⟨?_, ?_⟩, ?_⟩, by simp [shown, addLiteral]⟩
    · rw [Text.ofGlyphs_append, h.ofGlyphs]
      simp [addLiteral, text]
    · intro g hg
      rcases List.mem_append.1 hg with hg | hg
      · exact h.plain g hg
      · rw [List.mem_singleton.1 hg]
        exact hk
    · intro g hg
      rw [List.getLast?_concat] at hg
      obtain rfl := Option.some.inj hg
      cases kind <;> simp_all [Glyph.isPadding, Kind.isLiteral]
    · rwa [text_addLiteral]
  | false =>
    have hcode : kind = .code := by cases kind <;> simp_all [Kind.isLiteral, Kind.isComment]
    subst hcode
    rw [feed_code]
    exact ⟨front, ⟨h.untouched, h.guarded, h.closed, by rwa [text_add]⟩, by simp [shown, add]⟩

/-- A line from which the comment at its end is taken out. -/
theorem Shows.close_comment (h : l.Shows front) (policy : Policy) (hr : '\r' ∉ l.text)
    (hk : kind.isComment = true) (hs : s ≠ []) {stop : Text} (hstop : Text.splitTerminator stop = ([], stop)) :
    (l.touch.trim.add stop).close policy =
      leave policy (l.shown front ++ (Text.glyphs kind s ++ Text.glyphs .code stop)) := by
  have hloose : Text.dropEndWhile Text.isPad l.loose.reverse =
      (l.loose.dropWhile Text.isPad).reverse := by
    rw [Text.dropEndWhile, List.reverse_reverse]
  have hkept : l.guarded.reverse ++ Text.dropEndWhile Text.isPad l.loose.reverse ⊆ l.text :=
    List.append_subset.2 ⟨List.subset_append_left _ _,
      List.Subset.trans (List.rdropWhile_prefix ..).subset (List.subset_append_right _ _)⟩
  have hn : '\n' ∉ l.guarded.reverse ++ Text.dropEndWhile Text.isPad l.loose.reverse :=
    fun hm => h.quiet (hkept hm)
  have hr : '\r' ∉ l.guarded.reverse ++ Text.dropEndWhile Text.isPad l.loose.reverse :=
    fun hm => hr (hkept hm)
  have htext : (l.touch.trim.add stop).text =
      l.guarded.reverse ++ Text.dropEndWhile Text.isPad l.loose.reverse ++ stop := by
    rw [text_add, hloose]
    rfl
  have hsplit := Text.splitTerminator_front hn hr stop
  rw [hstop, List.append_nil] at hsplit
  rw [shown, List.append_assoc, h.closed.leave_comment hk hs hstop (h.guarded ▸ hn) (h.guarded ▸ hr),
    h.guarded, Line.close, if_pos (show (l.touch.trim.add stop).touched = true from rfl), htext, hsplit]
  have hguarded : (l.touch.trim.add stop).guarded.length = l.guarded.reverse.length :=
    (List.length_reverse ..).symm
  have htrimmed : Text.dropEndWhile Text.isPad (Text.dropEndWhile Text.isPad l.loose.reverse) =
      Text.dropEndWhile Text.isPad l.loose.reverse := List.rdropWhile_idempotent ..
  dsimp only
  rw [hguarded, List.take_left, List.drop_left, htrimmed]

/-! ## What stays -/

/-- From every line on, the pieces come to what the policy leaves of the rows of the
glyphs behind what the line shows. -/
def Follows (policy : Policy) (ps : List Piece) (σ : List Glyph) : Prop :=
  ∀ (l : Line) front, l.Shows front → (Text.ofGlyphs (l.shown front ++ σ)).NoBareReturn →
    l.finish policy ps = leaveAll policy (l.shown front ++ σ)

theorem Shows.leaveAll (h : l.Shows front) : Glyph.leaveAll policy (l.shown front) = l.text := by
  rw [Glyph.leaveAll_of_not_mem (h.ofGlyphs ▸ h.quiet), Glyph.leave_of_plain h.plain, h.ofGlyphs]

theorem follows_nil (policy : Policy) : Follows policy [] [] := by
  intro l front h _
  rw [List.append_nil, h.leaveAll]
  exact h.close policy

/-- What stays goes into the line character by character. -/
theorem finish_cons (hk : kind.isComment = false) (l : Line) :
    l.finish policy (policy.pieces kind (c :: s) next ++ ps) =
      if c = '\n' then
        (l.feed policy ⟨kind, [c], next⟩).close policy ++
          finish policy {} (policy.pieces kind s next ++ ps)
      else (l.feed policy ⟨kind, [c], next⟩).finish policy (policy.pieces kind s next ++ ps) := by
  have hsplits : policy.splits kind = true := Policy.splits_of_not_comment hk
  unfold Policy.pieces
  rw [if_pos hsplits, if_pos hsplits, Text.lines]
  split
  · rename_i hc
    subst hc
    have hbreaks : Piece.breaks policy ⟨kind, ['\n'], next⟩ = true :=
      Piece.breaks_of_not_comment (a := []) hk
    rw [List.map_cons, List.cons_append, finish_break hbreaks]
  · rename_i hc
    have hbreaks : Piece.breaks policy ⟨kind, [c], next⟩ = false :=
      Piece.breaks_of_not_mem (by simp [Ne.symm hc])
    cases hs : Text.lines s with
    | nil => rw [List.map_cons, List.cons_append, finish_next hbreaks]
    | cons line lines =>
      -- the character is the first one of a longer piece
      have hline : Piece.breaks policy ⟨kind, c :: line, next⟩ = Piece.breaks policy ⟨kind, line, next⟩ := by
        unfold Piece.breaks Text.isTerminated
        cases line <;> simp [hc]
      have hfeed : l.feed policy ⟨kind, c :: line, next⟩ =
          (l.feed policy ⟨kind, [c], next⟩).feed policy ⟨kind, line, next⟩ := by
        unfold feed
        cases hl : kind.isLiteral <;> simp [hk, add, addLiteral]
      rw [List.map_cons, List.map_cons, List.cons_append, List.cons_append, finish, finish, hline, hfeed]

theorem Follows.kept (h : Follows policy ps τ) (hk : kind.isComment = false) (s : Text)
    (next : Option Char) :
    Follows policy (policy.pieces kind s next ++ ps) (Text.glyphs kind s ++ τ) := by
  induction s with
  | nil =>
    have hnil : policy.pieces kind [] next = [] := by
      rw [Policy.pieces, if_pos (Policy.splits_of_not_comment hk)]
      rfl
    rw [hnil]
    exact h
  | cons c s ih =>
    intro l front hl hr
    rw [finish_cons hk]
    split
    · -- the row is over, and what is left is finished from a new line on
      rename_i hc
      subst hc
      have hnew := ih {} [] shows_new
      have hrow : ∀ g ∈ l.shown front ++ [⟨kind, '\n'⟩], g.kind.isComment = false := by
        rw [List.forall_mem_append, List.forall_mem_singleton]
        exact ⟨hl.plain, hk⟩
      rw [Text.glyphs_cons, List.cons_append] at hr ⊢
      rw [hl.close_feed hk, Glyph.leaveAll_line policy (hl.ofGlyphs ▸ hl.quiet) rfl,
        Glyph.leave_of_plain hrow, Text.ofGlyphs_append, hl.ofGlyphs]
      rw [← List.singleton_append, ← List.append_assoc, Text.ofGlyphs_append] at hr
      exact congrArg _ (hnew hr.of_append)
    · rename_i hc
      obtain ⟨front', hl', hshown⟩ := hl.feed hk hc policy next
      have hglyphs : l.shown front ++ (Text.glyphs kind (c :: s) ++ τ) =
          (l.feed policy ⟨kind, [c], next⟩).shown front' ++ (Text.glyphs kind s ++ τ) := by
        rw [hshown]
        simp
      rw [hglyphs] at hr ⊢
      exact ih _ _ hl' hr

/-! ## What goes -/

theorem finish_comment (hk : kind.isComment = true) (hne : s ≠ []) (hs : '\n' ∉ s)
    (hnext : next.all Text.isWhite = true) (l : Line) :
    l.finish policy (policy.pieces kind s next ++ ps) = l.touch.trim.finish policy ps := by
  have hpieces : policy.pieces kind s next = [⟨kind, s, next⟩] := by
    unfold Policy.pieces
    split
    · rw [Text.lines_of_not_mem hne hs]
      rfl
    · rfl
  have hbreaks : Piece.breaks policy ⟨kind, s, next⟩ = false := Piece.breaks_of_not_mem hs
  have hsolid : Text.isSolid next = false := by
    rw [Text.all_isWhite_eq] at hnext
    simpa using hnext
  have hclear : l.clear ⟨kind, s, next⟩ = l.touch.trim := by
    rw [clear, hnext, Bool.true_or, if_pos rfl]
  rw [hpieces, List.singleton_append, finish_next hbreaks, feed_comment hk, takeOut_next hbreaks, hclear,
    hsolid, Bool.and_false, if_neg (by simp)]

/-- In front of a comment the line has no carriage return, unless one is bare. -/
theorem Shows.not_return (h : l.Shows front) (hs : Text.isSolid s.head? = true)
    (hr : (Text.ofGlyphs (l.shown front ++ (Text.glyphs kind s ++ σ))).NoBareReturn) :
    '\r' ∉ l.text := by
  rw [Text.ofGlyphs_append, h.ofGlyphs, Text.ofGlyphs_append, Text.ofGlyphs_glyphs] at hr
  refine (hr.front fun _ hfeed => ?_).not_mem h.quiet
  cases s with
  | nil => cases hs
  | cons c s =>
    obtain rfl := Option.some.inj hfeed
    cases hs

/-- Behind a comment the text is over, -/
theorem follows_comment_end (hk : kind.isComment = true) (hs : '\n' ∉ s)
    (hsolid : Text.isSolid s.head? = true) (policy : Policy) :
    Follows policy (policy.pieces kind s none ++ []) (Text.glyphs kind s ++ []) := by
  intro l front h hr
  have hne := Text.ne_nil_of_solid hsolid
  have hquiet := h.quiet_append kind hs
  have hstop : Text.splitTerminator [] = ([], []) := rfl
  have hclose := h.close_comment policy (h.not_return hsolid hr) hk hne hstop
  rw [finish_comment hk hne hs rfl, List.append_nil, Glyph.leaveAll_of_not_mem hquiet]
  rwa [Text.glyphs_nil, List.append_nil] at hclose

/-- or the row. -/
theorem follows_comment (hk : kind.isComment = true) (hs : '\n' ∉ s)
    (hsolid : Text.isSolid s.head? = true) {stop : Text} (hstop : stop.IsStop)
    (hnext : next.all Text.isWhite = true) {next' : Option Char}
    (h : Follows policy (⟨.code, stop, next'⟩ :: ps) (Text.glyphs .code stop ++ τ)) :
    Follows policy (policy.pieces kind s next ++ ⟨.code, stop, next'⟩ :: ps)
      (Text.glyphs kind s ++ (Text.glyphs .code stop ++ τ)) := by
  intro l front hl hr
  have hne := Text.ne_nil_of_solid hsolid
  have hbreaks : Piece.breaks policy ⟨.code, stop, next'⟩ = true := by
    rcases hstop with rfl | rfl <;> cases policy <;> rfl
  -- what follows the line end is finished like a new text
  have hnew : finish policy {} ps = Glyph.leaveAll policy τ := by
    have hrest : (Text.ofGlyphs (Text.glyphs .code stop ++ τ)).NoBareReturn := by
      rw [← List.append_assoc, Text.ofGlyphs_append] at hr
      exact hr.of_append
    have hfinish := h {} [] shows_new hrest
    have hrow := Glyph.leaveAll_stop policy (π := []) hstop (by simp) τ
    rw [finish_break hbreaks, shows_new.close_feed rfl] at hfinish
    rw [List.nil_append, List.nil_append, Glyph.leave_of_plain (Text.not_comment_glyphs rfl stop),
      Text.ofGlyphs_glyphs] at hrow
    exact List.append_cancel_left (hfinish.trans hrow)
  have hquiet := hl.quiet_append kind hs
  rw [finish_comment hk hne hs hnext, finish_break hbreaks, feed_code,
    hl.close_comment policy (hl.not_return hsolid hr) hk hne hstop.splitTerminator, hnew,
    ← List.append_assoc (l.shown front), ← List.append_assoc (l.shown front),
    Glyph.leaveAll_stop policy hstop hquiet]

end Line

/-! ## Main result -/

namespace Rules

open Glyph (bare isVacated)

variable {r : Rules} {s inside rest : Text} {o : Opener} {closed : Bool}

theorem code_stop {stop : Text} (hstop : stop.IsStop) : r.Code stop [] := by
  refine ⟨fun a b hab hb => ?_, .inl rfl⟩
  obtain ⟨c, b, rfl⟩ := List.exists_cons_of_ne_nil hb
  refine opener?_white ?_
  have hmem : c ∈ stop := by simp [hab]
  rcases hstop with rfl | rfl <;> simp at hmem <;> rcases hmem with rfl | rfl <;> decide

/-- A line end is code and stands in a row with what is in front of it. -/
theorem pieces_stop {stop : Text} (hstop : stop.IsStop) (policy : Policy)
    (t : Text) : ∃ next, r.pieces policy (stop ++ t) = ⟨.code, stop, next⟩ :: r.pieces policy t := by
  have hend : Text.isTerminated stop = true := by rcases hstop with rfl | rfl <;> rfl
  obtain ⟨next, hp⟩ := pieces_code_append policy hend (code_stop hstop) t
  have hpiece : policy.pieces .code stop next = [⟨.code, stop, next⟩] := by
    rcases hstop with rfl | rfl <;> cases policy <;> rfl
  exact ⟨next, by rw [hp, hpiece, List.singleton_append]⟩

theorem glyphs_stop {stop : Text} (hstop : stop.IsStop) (t : Text) :
    r.glyphs (stop ++ t) = Text.glyphs .code stop ++ r.glyphs t := by
  rcases hstop with rfl | rfl
  · exact glyphs_code (opener?_white (by decide))
  · have hfeed : r.glyphs ('\n' :: t) = ⟨.code, '\n'⟩ :: r.glyphs t :=
      glyphs_code (opener?_white (by decide))
    exact (glyphs_code (opener?_white (by decide))).trans (congrArg _ hfeed)

/-- Without block comments there is no line feed in a comment. -/
theorem not_feed_of_no_block (h : r.blockComment = none) (hm : o ∈ r.openers)
    (he : r.Ends o inside closed rest) (hk : o.kind.isComment = true) :
    '\n' ∉ o.token ++ inside := by
  unfold Ends at he
  simp only [kind_of_no_block h hm hk] at he
  rw [List.mem_append]
  rintro (hfeed | hfeed)
  · have hsolid := solid_token hm _ hfeed
    cases hsolid
  · obtain ⟨a, b, hab⟩ := List.append_of_mem hfeed
    exact he.1.quiet a ('\n' :: b) hab (by simp) (Text.lineEnd_cons.2 (.inl rfl))

theorem follows (h : r.blockComment = none) (policy : Policy) (s : Text) :
    Line.Follows policy (r.pieces policy s) (r.glyphs s) := by
  induction s using reading r with
  | nil =>
    rw [pieces_nil, glyphs_nil]
    exact Line.follows_nil policy
  | code code rest hne hc ih =>
    rw [pieces_code hne hc, glyphs_code_run hc]
    exact ih.kept rfl code _
  | construct o inside closed rest ho he ih =>
    have hm := (mem_of_opener? ho).1
    rw [pieces_construct ho he, glyphs_construct ho he]
    rcases comment_or_literal hm with hk | hk
    · -- behind a comment nothing comes but a line end
      have hsolid := solid_quote hm inside
      have hquiet := not_feed_of_no_block h hm he hk
      rcases rest_of_no_block h hm he hk with rfl | hl
      · rw [pieces_nil, glyphs_nil]
        exact Line.follows_comment_end hk hquiet hsolid policy
      · obtain ⟨stop, t, hstop, rfl⟩ := hl.exists_stop
        obtain ⟨next, hp⟩ := pieces_stop (r := r) hstop policy t
        have hwhite : (stop ++ t).head?.all Text.isWhite = true := by
          rcases hstop with rfl | rfl <;> rfl
        rw [hp, glyphs_stop hstop] at ih ⊢
        exact Line.follows_comment hk hquiet hsolid hstop hwhite ih
    · exact ih.kept (Kind.not_comment_of_literal hk) _ _

/-- Without block comments and bare carriage returns stripping takes the comments out,
and the spaces and tabs of code in front of them, and nothing else. Under the collapsing
policy the lines go of which that leaves nothing. -/
theorem strip_rows (h : r.blockComment = none) (hs : s.NoBareReturn) :
    r.strip .preserve s = bare (r.glyphs s) ∧
      r.strip .preserve s = (rows (r.glyphs s)).flatMap bare ∧
      r.strip .collapse s = ((rows (r.glyphs s)).filter fun row => !isVacated row).flatMap bare := by
  have hfinish : ∀ policy : Policy, r.strip policy s = Glyph.leaveAll policy (r.glyphs s) := by
    intro policy
    have hreturn : (Text.ofGlyphs (r.glyphs s)).NoBareReturn := by rwa [ofGlyphs_glyphs]
    rw [strip_eq_finish]
    exact follows h policy s {} [] Line.shows_new hreturn
  have hpreserve := (hfinish .preserve).trans (Glyph.leaveAll_preserve _)
  exact ⟨hpreserve.trans (Glyph.flatMap_bare_rows _), hpreserve,
    (hfinish .collapse).trans (Glyph.leaveAll_collapse _)⟩

/-- A literal that goes on behind an escaped line end, a comment in a line of its own and
one behind a tab. -/
theorem strip_rows_script :
    ∃ s : Text, s = ['\'', '#', ' ', '\\', '\n', ' ', '\'', '\t', '#', '\n', ' ', '#', '\'', '\r', '\n',
        '\n', 'x'] ∧
      Language.numberSign.strip .preserve s =
        ['\'', '#', ' ', '\\', '\n', ' ', '\'', '\n', '\r', '\n', '\n', 'x'] ∧
      Language.numberSign.strip .collapse s =
        ['\'', '#', ' ', '\\', '\n', ' ', '\'', '\n', '\n', 'x'] ∧
      Language.numberSign.strip .preserve s = bare (Language.numberSign.glyphs s) ∧
      Language.numberSign.strip .preserve s = (rows (Language.numberSign.glyphs s)).flatMap bare ∧
      Language.numberSign.strip .collapse s =
        ((rows (Language.numberSign.glyphs s)).filter fun row => !isVacated row).flatMap bare := by
  have hs : Text.NoBareReturn ['\'', '#', ' ', '\\', '\n', ' ', '\'', '\t', '#', '\n', ' ', '#',
      '\'', '\r', '\n', '\n', 'x'] := by simp
  exact ⟨_, rfl, by decide +kernel, by decide +kernel, strip_rows rfl hs⟩

end Rules
end Gloss
