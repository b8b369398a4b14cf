import Gloss.Proofs.Alignment
import Gloss.Proofs.Rows
/-!
# Logical rows

The collapsing policy drops the line breaks inside comments, so it works on
logical rows: a text cut at the line feeds outside comments. `Collapsed` is what
it owes each of them: a row without a comment stays as it is, one whose other
text is blank goes with its terminator, and of any other one the ink stays.
-/

namespace Gloss

namespace Text

@[simp] theorem noBareReturn_nil : NoBareReturn [] := by
  intro a b h
  simp at h

@[simp] theorem noBareReturn_cons {c : Char} {s : Text} :
    NoBareReturn (c :: s) ↔ (c = '\r' → ['\n'] <+: s) ∧ NoBareReturn s := by
  constructor
  · intro h
    refine ⟨?_, fun a b hab => h (c :: a) b (by rw [hab, List.cons_append])⟩
    rintro rfl
    exact h [] s rfl
  · rintro ⟨hc, hs⟩ a b hab
    rcases a with _ | ⟨d, a⟩
    · obtain ⟨rfl, rfl⟩ := List.cons.inj hab
      exact hc rfl
    · exact hs a b (List.cons.inj hab).2

/-- The front of a text has no bare return if it ends with no half of a line end. -/
theorem NoBareReturn.front {s t : Text} (h : (s ++ t).NoBareReturn)
    (hw : s.getLast? = some '\r' → t.head? ≠ some '\n') : s.NoBareReturn := by
  intro a b hab
  have hb := h a (b ++ t) (by rw [hab, List.append_assoc, List.cons_append])
  rcases b with _ | ⟨c, b⟩
  · obtain ⟨u, rfl⟩ := hb
    exact absurd rfl (hw (by rw [hab, List.getLast?_concat]))
  · rw [List.cons_append, List.cons_prefix_cons] at hb
    exact List.cons_prefix_cons.2 ⟨hb.1, List.nil_prefix⟩

/-- Without a bare return a line has a return in its terminator only. -/
theorem not_return_of_line {a : Text} (ha : '\n' ∉ a) (h : (a ++ ['\n']).NoBareReturn) :
    '\r' ∉ lineBody (a ++ ['\n']) := by
  have hlast : ∀ x y, a = x ++ '\r' :: y → y = [] := by
    intro x y hxy
    have hfeed := h x (y ++ ['\n']) (by rw [hxy, List.append_assoc, List.cons_append])
    rcases y with _ | ⟨c, y⟩
    · rfl
    · rw [List.cons_append, List.cons_prefix_cons] at hfeed
      exact absurd (by simp [hxy, ← hfeed.1]) ha
  intro hr
  rw [lineBody] at hr
  rcases splitTerminator_cases (a ++ ['\n']) with ⟨ht, -⟩ | ⟨b, hb, hne, ht⟩ | ⟨b, hb, ht⟩
  · rw [isTerminated_feed] at ht
    cases ht
  · rw [ht] at hr
    dsimp only at hr
    obtain rfl := List.append_cancel_right hb
    obtain ⟨x, y, hxy⟩ := List.append_of_mem hr
    rw [hlast x y hxy] at hxy
    exact hne (by rw [hxy, List.getLast?_concat])
  · rw [ht] at hr
    dsimp only at hr
    rw [show b ++ ['\r', '\n'] = (b ++ ['\r']) ++ ['\n'] by simp] at hb
    obtain rfl := List.append_cancel_right hb
    obtain ⟨x, y, hxy⟩ := List.append_of_mem hr
    have hnil := hlast x (y ++ ['\r']) (by rw [hxy, List.append_assoc, List.cons_append])
    simp at hnil

theorem not_return_lineBody {s line : Text} (h : s.NoBareReturn) (hl : line ∈ lines s) :
    '\r' ∉ lineBody line := by
  induction s using byLines with
  | nil => simp [lines] at hl
  | last s hne hs =>
    rw [lines_of_not_mem hne hs, List.mem_singleton] at hl
    rw [hl]
    intro hr
    have hmem : '\r' ∈ s := by
      rw [← splitTerminator_append s]
      exact List.mem_append_left _ hr
    obtain ⟨a, b, hab⟩ := List.append_of_mem hmem
    have hfeed := (h a b hab).subset (List.mem_singleton_self _)
    exact hs (by simp [hab, hfeed])
  | line a s ha ih =>
    rw [lines_feed ha] at hl
    rw [← List.singleton_append, ← List.append_assoc] at h
    rcases List.mem_cons.1 hl with rfl | hl
    · exact not_return_of_line ha (h.front (by simp))
    · exact ih h.of_append hl

/-- What stands in front of a line goes into its body, if there is no line feed or
return in it. -/
theorem splitTerminator_front {p : Text} (hn : '\n' ∉ p) (hr : '\r' ∉ p) (s : Text) :
    splitTerminator (p ++ s) = (p ++ (splitTerminator s).1, (splitTerminator s).2) := by
  have hterm : (splitTerminator (p ++ s)).2 = (splitTerminator s).2 :=
    terminator_of_whole hn fun h => absurd (List.mem_of_getLast? h) hr
  have happ := splitTerminator_append (p ++ s)
  rw [hterm] at happ
  have hbody : (splitTerminator (p ++ s)).1 = p ++ (splitTerminator s).1 := by
    refine List.append_cancel_right (happ.trans ?_)
    rw [List.append_assoc, splitTerminator_append]
  rw [← hbody, ← hterm]

end Text

namespace Glyph

/-- A line feed outside comments. -/
def isFeed (g : Glyph) : Bool := g.char == '\n' && !g.kind.isComment

/-- What is not in a comment. -/
def plain (σ : List Glyph) : List Glyph := σ.filter fun g => !g.kind.isComment

/-- The lines of a text, cut only at line feeds outside comments. The last one
has none and may be empty. -/
def logicalRows (σ : List Glyph) : List (List Glyph) := cutBehind isFeed σ

/-- Outside comments and in front of its terminator the row has spaces and tabs
at most. -/
def Emptied (row : List Glyph) : Prop :=
  ∀ c ∈ Text.lineBody (Text.ofGlyphs (plain row)), Text.isPad c = true

/-- What is written for a row from which a comment was taken out: its terminator,
and in front of it some text with the ink of the row that ends neatly. -/
structure Reduced (σ ω : List Glyph) : Prop where
  ink : ω.filter isInk = σ.filter isInk
  clean : ∀ g ∈ ω, g.isInk = true ∨ g.isBlank = true
  ends : ∃ body tail, ω = body ++ tail ∧ Text.ofGlyphs tail = terminator (plain σ) ∧ body ≠ [] ∧
    EndsNeat body

/-- What becomes of a logical row under the collapsing policy. -/
structure Collapsed (σ ω : List Glyph) : Prop where
  same : ¬ HasComment σ → ω = σ
  dropped : HasComment σ → Emptied σ → ω = []
  reduced : HasComment σ → ¬ Emptied σ → Reduced σ ω

/-! ## What is not in a comment -/

theorem not_feed_glyphs {kind : Kind} {s : Text} (h : kind.isComment = true ∨ '\n' ∉ s) :
    ∀ g ∈ Text.glyphs kind s, g.isFeed = false := by
  intro g hg
  obtain ⟨hk, hc⟩ := Text.mem_glyphs.1 hg
  rw [isFeed, hk, Bool.and_eq_false_iff]
  refine h.symm.imp (fun hs => ?_) (fun hk => by simp [hk])
  rw [beq_eq_false_iff_ne]
  intro hfeed
  exact hs (hfeed ▸ hc)

@[simp] theorem plain_append (σ τ : List Glyph) : plain (σ ++ τ) = plain σ ++ plain τ :=
  List.filter_append ..

theorem plain_glyphs {kind : Kind} (hk : kind.isComment = false) (s : Text) :
    plain (Text.glyphs kind s) = Text.glyphs kind s := by
  refine List.filter_eq_self.2 fun g hg => ?_
  simp [(Text.mem_glyphs.1 hg).1, hk]

@[simp] theorem plain_code (s : Text) : plain (Text.glyphs .code s) = Text.glyphs .code s :=
  plain_glyphs rfl s

theorem plain_comment {kind : Kind} (hk : kind.isComment = true) (s : Text) :
    plain (Text.glyphs kind s) = [] := by
  refine List.filter_eq_nil_iff.2 fun g hg => ?_
  simp [(Text.mem_glyphs.1 hg).1, hk]

theorem filter_isInk_plain (σ : List Glyph) : (plain σ).filter isInk = σ.filter isInk := by
  rw [plain, List.filter_filter]
  apply List.filter_congr
  intro g _
  cases hi : g.isInk with
  | false => rfl
  | true => simp [not_comment_of_isInk hi]

/-- A solid character outside comments is ink. -/
theorem ink_of_solid {g : Glyph} {σ : List Glyph} (hg : g ∈ plain σ)
    (hw : Text.isWhite g.char = false) : g.isInk = true := by
  have hk := (List.mem_filter.1 hg).2
  obtain ⟨kind, c⟩ := g
  cases kind <;> simp_all [isInk, Kind.isComment, Kind.isLiteral]

/-- A row with a solid character outside comments is not emptied, -/
theorem not_emptied_of_solid {σ : List Glyph}
    (h : ∃ c ∈ Text.ofGlyphs (plain σ), Text.isWhite c = false) : ¬ Emptied σ := by
  obtain ⟨c, hc, hw⟩ := h
  intro he
  rw [← Text.splitTerminator_append (Text.ofGlyphs (plain σ))] at hc
  rcases List.mem_append.1 hc with hc | hc
  · rw [Text.isWhite_of_isPad (he c hc)] at hw
    cases hw
  · rw [Text.white_terminator _ c hc] at hw
    cases hw

/-- and the character stands in what is written for it. -/
theorem Tracks.ne_terminator {touched : Bool} {σ ω : List Glyph} (h : Tracks touched (plain σ) ω)
    (hs : ∃ c ∈ Text.ofGlyphs (plain σ), Text.isWhite c = false) :
    Text.ofGlyphs ω ≠ terminator (plain σ) := by
  obtain ⟨c, hc, hw⟩ := hs
  obtain ⟨g, hg, rfl⟩ := List.mem_map.1 hc
  have hmem : g ∈ ω.filter isInk := by
    rw [h.ink]
    exact List.mem_filter.2 ⟨hg, ink_of_solid hg hw⟩
  intro he
  have hchar : g.char ∈ Text.ofGlyphs ω := List.mem_map_of_mem (List.mem_filter.1 hmem).1
  rw [he] at hchar
  rw [Text.white_terminator _ _ hchar] at hw
  cases hw

/-! ## The front of a row -/

/-- Text in front of a row is in front of its terminator. -/
theorem emptied_front {p : Text} (hn : '\n' ∉ p) (hr : '\r' ∉ p) (σ : List Glyph) :
    Emptied (Text.glyphs .code p ++ σ) ↔ (∀ c ∈ p, Text.isPad c = true) ∧ Emptied σ := by
  unfold Emptied
  rw [plain_append, plain_code, Text.ofGlyphs_append, Text.ofGlyphs_glyphs, Text.lineBody,
    Text.splitTerminator_front hn hr, List.forall_mem_append]
  rfl

theorem terminator_front {p : Text} (hn : '\n' ∉ p) (hr : '\r' ∉ p) (σ : List Glyph) :
    terminator (plain (Text.glyphs .code p ++ σ)) = terminator (plain σ) := by
  rw [plain_append, plain_code, terminator, terminator, Text.ofGlyphs_append, Text.ofGlyphs_glyphs,
    Text.splitTerminator_front hn hr]

/-- The first row is the second one but for comments, spaces and tabs, and they end
alike. -/
structure Resembles (σ τ : List Glyph) : Prop where
  ink : τ.filter isInk = σ.filter isInk
  emptied : Emptied σ ↔ Emptied τ
  ends : terminator (plain σ) = terminator (plain τ)
  returns : '\r' ∈ Text.ofGlyphs (plain τ) → '\r' ∈ Text.ofGlyphs (plain σ)

/-- A comment, and spaces and tabs in front of it, may stand there or not. -/
theorem resembles_front {kind : Kind} (hk : kind.isComment = true) {core p q : Text}
    (hn : '\n' ∉ core) (hr : '\r' ∉ core) (hp : ∀ c ∈ p, Text.isPad c = true)
    (hq : ∀ c ∈ q, Text.isPad c = true) (s : Text) (σ : List Glyph) :
    Resembles (Text.glyphs .code (core ++ p) ++ (Text.glyphs kind s ++ σ))
      (Text.glyphs .code (core ++ q) ++ σ) := by
  have hnot : ∀ {u : Text} {c : Char}, (∀ c ∈ u, Text.isPad c = true) → Text.isPad c = false →
      c ∉ core → c ∉ core ++ u := by
    intro u c hu hc hcore hm
    rcases List.mem_append.1 hm with hm | hm
    · exact hcore hm
    · rw [hu c hm] at hc
      cases hc
  have hplain : plain (Text.glyphs .code (core ++ p) ++ (Text.glyphs kind s ++ σ)) =
      plain (Text.glyphs .code (core ++ p) ++ σ) := by
    rw [plain_append, plain_append, plain_append, plain_comment hk, List.nil_append]
  constructor
  · have hblank : ∀ {u : Text}, (∀ c ∈ u, Text.isPad c = true) →
        (Text.glyphs .code u).filter isInk = [] :=
      fun hu => (blank_of_pads hu).gap.filter_isInk
    have hcomment : (Text.glyphs kind s).filter isInk = [] :=
      Gap.filter_isInk fun g => Text.gap_of_comment hk
    simp [hblank hp, hblank hq, hcomment]
  · rw [Emptied, hplain, ← Emptied, emptied_front (hnot hp (by decide) hn) (hnot hp (by decide) hr),
      emptied_front (hnot hq (by decide) hn) (hnot hq (by decide) hr), List.forall_mem_append,
      List.forall_mem_append]
    simp only [iff_true_intro hp, iff_true_intro hq]
  · rw [hplain, terminator_front (hnot hp (by decide) hn) (hnot hp (by decide) hr),
      terminator_front (hnot hq (by decide) hn) (hnot hq (by decide) hr)]
  · rw [hplain]
    simp only [plain_append, plain_code, Text.ofGlyphs_append, Text.ofGlyphs_glyphs]
    intro hm
    exact List.mem_append_right _
      ((List.mem_append.1 hm).resolve_left (hnot hq (by decide) hr))

/-- The solid characters of a row stand in the ones that resemble it. -/
theorem Resembles.solid {σ τ : List Glyph} (h : Resembles σ τ) {c : Char}
    (hc : c ∈ Text.ofGlyphs (plain τ)) (hw : Text.isWhite c = false) :
    c ∈ Text.ofGlyphs (plain σ) := by
  obtain ⟨g, hg, rfl⟩ := List.mem_map.1 hc
  have hmem : g ∈ (plain σ).filter isInk := by
    rw [filter_isInk_plain, ← h.ink, ← filter_isInk_plain]
    exact List.mem_filter.2 ⟨hg, ink_of_solid hg hw⟩
  exact List.mem_map_of_mem (List.mem_filter.1 hmem).1

end Glyph
end Gloss
