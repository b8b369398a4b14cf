import Gloss.Lexeme
import Gloss.Proofs.Rules
/-!
# Where constructs end

`Rules.Ends` says where a construct ends by what it may hold and what may
follow, without cutting anything: a line comment at the first line end, a block
comment after the first end token, a literal where reading it left to right
meets its quote or its line's end. A construct ends so where it is cut
(`ends_cut`), and nowhere else (`cut_of_ends`).

Stripping changes what follows a construct. `EndsLiteral.of_rest` says what may
be changed after a literal without moving its end.
-/

namespace Gloss

/-- A line terminator stands at the front. -/
def Text.LineEnd (s : Text) : Prop := ['\n'] <+: s ∨ ['\r', '\n'] <+: s

theorem Text.atLineEnd_iff {s : Text} : atLineEnd s = true ↔ LineEnd s := by
  unfold atLineEnd LineEnd
  split <;> simp_all [List.cons_prefix_cons]
  rename_i h1 h2
  refine ⟨fun h => ?_, fun h => ?_⟩
  · obtain ⟨t, rfl⟩ := h; exact h1 t rfl
  · obtain ⟨t, rfl⟩ := h; exact h2 t rfl

theorem Text.not_lineEnd_nil : ¬ LineEnd [] := by simp [LineEnd]

theorem Text.lineEnd_cons {c : Char} {s : Text} :
    LineEnd (c :: s) ↔ c = '\n' ∨ c = '\r' ∧ s.head? = some '\n' := by
  cases s <;> simp [LineEnd, List.cons_prefix_cons, eq_comm]

/-- Where `s` is over so is `t`, and where `s` starts with a line end `t` starts
with the same one. -/
structure Text.StopsLike (s t : Text) : Prop where
  nil : s = [] → t = []
  lineFeed : ['\n'] <+: s → ['\n'] <+: t
  returnFeed : ['\r', '\n'] <+: s → ['\r', '\n'] <+: t

/-! ## The three ways to end -/

/-- A line comment holds no line end and stops at one, or with the text. -/
structure EndsLine (inside rest : Text) : Prop where
  quiet : ∀ a b, inside = a ++ b → b ≠ [] → ¬ (b ++ rest).LineEnd
  stops : rest = [] ∨ rest.LineEnd

/-- A block comment ends with the first `stop` in it, or with the text if there
is none. -/
inductive EndsBlock (stop : Text) : Text → Bool → Text → Prop
  | closed {body rest : Text} :
      (∀ a b, body ++ stop ++ rest = a ++ (stop ++ b) → body.length ≤ a.length) →
      EndsBlock stop (body ++ stop) true rest
  | unclosed {inside : Text} : ¬ stop <:+: inside → EndsBlock stop inside false []

/-- A literal, read left to right from behind its opening quote. -/
inductive EndsLiteral (escape : Option Char) (multiline : Bool) (quote : Char) :
    Text → Bool → Text → Prop
  /-- Its quote closes it. -/
  | closed {rest : Text} : EndsLiteral escape multiline quote [quote] true rest
  /-- The end of its line cuts it. -/
  | lineEnd {rest : Text} : multiline = false → rest.LineEnd →
      EndsLiteral escape multiline quote [] false rest
  /-- The text is over. -/
  | textEnd : EndsLiteral escape multiline quote [] false []
  /-- The text is over behind an escape. -/
  | escapeEnd {e : Char} : escape = some e → EndsLiteral escape multiline quote [e] false []
  /-- An escape takes one character, -/
  | escaped {e c : Char} {inside rest : Text} {closed : Bool} : escape = some e →
      ¬ (c = '\r' ∧ (inside ++ rest).head? = some '\n') →
      EndsLiteral escape multiline quote inside closed rest →
      EndsLiteral escape multiline quote (e :: c :: inside) closed rest
  /-- or a carriage return and line feed together. -/
  | escapedBreak {e : Char} {inside rest : Text} {closed : Bool} : escape = some e →
      EndsLiteral escape multiline quote inside closed rest →
      EndsLiteral escape multiline quote (e :: '\r' :: '\n' :: inside) closed rest
  /-- Any other character stands for itself. -/
  | plain {c : Char} {inside rest : Text} {closed : Bool} : escape ≠ some c → c ≠ quote →
      (multiline = true ∨ ¬ Text.LineEnd (c :: (inside ++ rest))) →
      EndsLiteral escape multiline quote inside closed rest →
      EndsLiteral escape multiline quote (c :: inside) closed rest

/-- The construct that `o` opens holds `inside` after its token, `rest` follows,
and `closed` says whether it met its own end. -/
def Rules.Ends (r : Rules) (o : Opener) (inside : Text) (closed : Bool) (rest : Text) : Prop :=
  match o.kind with
  | .code => inside = [] ∧ closed = true
  | .lineComment => EndsLine inside rest ∧ closed = true
  | .blockComment => EndsBlock r.blockEnd inside closed rest
  | .stringLiteral | .charLiteral =>
    EndsLiteral r.escape r.multiline (o.token.headD '\x00') inside closed rest

theorem Rules.ends_iff_of_literal {r : Rules} {o : Opener} {inside rest : Text} {closed : Bool}
    (hk : o.kind.isLiteral = true) :
    r.Ends o inside closed rest ↔
      EndsLiteral r.escape r.multiline (o.token.headD '\x00') inside closed rest := by
  unfold Ends
  cases ho : o.kind <;> simp [ho, Kind.isLiteral] at hk ⊢

/-! ## Line comments -/

theorem endsLine_cutLine (s : Text) : EndsLine (cutLine s).inside (cutLine s).rest := by
  induction s with
  | nil => exact ⟨by simp [cutLine], .inl rfl⟩
  | cons c s ih =>
    rw [cutLine]
    split
    · rename_i h
      exact ⟨by simp, .inr (Text.atLineEnd_iff.1 h)⟩
    · rename_i h
      refine ⟨?_, ih.stops⟩
      intro a b he hb hl
      simp only [Cut.push, List.singleton_append] at he hl
      rcases a with _ | ⟨d, a⟩
      · rw [List.nil_append] at he
        rw [← he, List.cons_append, cutLine_append, ← Text.atLineEnd_iff] at hl
        exact h hl
      · rw [List.cons_append, List.cons.injEq] at he
        exact ih.quiet a b he.2 hb hl

theorem cutLine_of_ends {inside rest : Text} (h : EndsLine inside rest) :
    cutLine (inside ++ rest) = ⟨inside, true, rest⟩ := by
  induction inside with
  | nil =>
    rcases h.stops with rfl | hl
    · rfl
    · rcases rest with _ | ⟨c, rest⟩
      · exact absurd hl Text.not_lineEnd_nil
      · simp [cutLine, Text.atLineEnd_iff.2 hl]
  | cons c inside ih =>
    have hq : EndsLine inside rest := by
      refine ⟨?_, h.stops⟩
      intro a b he hb
      exact h.quiet (c :: a) b (by rw [he, List.cons_append]) hb
    have hc : ¬ Text.atLineEnd (c :: (inside ++ rest)) = true := by
      rw [Text.atLineEnd_iff]
      exact h.quiet [] (c :: inside) rfl (by simp)
    rw [List.cons_append, cutLine, if_neg hc, ih hq]
    rfl

/-! ## Block comments -/

theorem cutBlock_cons {stop : Text} (hs : stop ≠ []) (c : Char) (s : Text) :
    cutBlock stop (c :: s) =
      if stop.isPrefixOf (c :: s) then ⟨stop, true, (c :: s).drop stop.length⟩
      else (cutBlock stop s).push [c] := by
  rw [cutBlock, List.isEmpty_eq_false_iff.2 hs, Bool.not_false, Bool.true_and]

theorem endsBlock_cutBlock {stop : Text} (hs : stop ≠ []) (s : Text) :
    EndsBlock stop (cutBlock stop s).inside (cutBlock stop s).closed (cutBlock stop s).rest := by
  induction s with
  | nil => exact .unclosed (by simpa [cutBlock] using hs)
  | cons c s ih =>
    have happ := cutBlock_append stop s
    rw [cutBlock_cons hs]
    split
    · show EndsBlock stop ([] ++ stop) true _
      exact .closed (by simp)
    · rename_i hp
      rw [List.isPrefixOf_iff_prefix] at hp
      simp only [Cut.push, List.singleton_append]
      generalize cutBlock stop s = cut at ih happ ⊢
      obtain ⟨inside, closed, rest⟩ := cut
      cases ih with
      | @closed body _ hfirst =>
        show EndsBlock stop ((c :: body) ++ stop) true rest
        refine .closed ?_
        intro a b he
        rcases a with _ | ⟨d, a⟩
        · refine absurd ⟨b, ?_⟩ hp
          simpa [← happ] using he.symm
        · simp only [List.cons_append, List.cons.injEq] at he
          have := hfirst a b he.2
          simp only [List.length_cons]
          omega
      | unclosed hno =>
        refine .unclosed ?_
        rw [List.infix_cons_iff]
        rintro (hpre | hin)
        · simp only [List.append_nil] at happ
          exact hp (happ ▸ hpre)
        · exact hno hin

theorem cutBlock_of_ends {stop inside rest : Text} {closed : Bool} (hs : stop ≠ [])
    (h : EndsBlock stop inside closed rest) :
    cutBlock stop (inside ++ rest) = ⟨inside, closed, rest⟩ := by
  cases h with
  | @closed body _ hfirst =>
    induction body with
    | nil =>
      obtain ⟨c, t, rfl⟩ := List.exists_cons_of_ne_nil hs
      simp [cutBlock]
    | cons c body ih =>
      have hp : ¬ stop.isPrefixOf (c :: (body ++ (stop ++ rest))) = true := by
        rw [List.isPrefixOf_iff_prefix]
        rintro ⟨b, hb⟩
        have := hfirst [] b (by simpa using hb.symm)
        simp at this
      have ih := ih (by
        intro a b he
        have := hfirst (c :: a) b (by simp only [List.cons_append, he])
        simpa using this)
      rw [List.append_assoc] at ih
      rw [List.append_assoc, List.cons_append, cutBlock_cons hs, if_neg hp, ih]
      rfl
  | unclosed hno =>
    rw [List.append_nil]
    induction inside with
    | nil => rfl
    | cons c inside ih =>
      rw [List.infix_cons_iff, not_or] at hno
      rw [cutBlock_cons hs, if_neg (by rw [List.isPrefixOf_iff_prefix]; exact hno.1), ih hno.2]
      rfl

/-! ## Literals -/

section Literal
variable {escape : Option Char} {multiline : Bool} {quote : Char}

/-- The two steps after an escape: one character, or the two of a line end. -/
theorem cutLiteral_escaped (c : Char) (s : Text) :
    cutLiteral escape multiline quote true (c :: s) =
      if c = '\r' ∧ s.head? = some '\n' then
        (cutLiteral escape multiline quote false s.tail).push ['\r', '\n']
      else (cutLiteral escape multiline quote false s).push [c] := by
  rw [cutLiteral, if_pos rfl]
  by_cases h : c = '\r' ∧ s.head? = some '\n'
  · obtain ⟨rfl, hs⟩ := h
    obtain ⟨t, rfl⟩ := List.head?_eq_some_iff.1 hs
    simp [cutLiteral, Cut.push]
  · rw [if_neg h]
    have hb : (c == '\r' && s.head? == some '\n') = false := by simpa using h
    rw [hb]

theorem endsLiteral_cutLiteral (s : Text) :
    EndsLiteral escape multiline quote (cutLiteral escape multiline quote false s).inside
      (cutLiteral escape multiline quote false s).closed
      (cutLiteral escape multiline quote false s).rest := by
  match s with
  | [] => exact .textEnd
  | c :: s =>
    have happ := cutLiteral_append escape multiline quote false s
    rw [cutLiteral, if_neg (by simp)]
    split
    · -- the escape takes what follows, so two steps of the cut are one here
      rename_i he
      match s with
      | [] => exact .escapeEnd he
      | d :: s =>
        have happ := cutLiteral_append escape multiline quote false s
        rw [cutLiteral_escaped]
        split
        · rename_i hb
          obtain ⟨rfl, hs⟩ := hb
          obtain ⟨t, rfl⟩ := List.head?_eq_some_iff.1 hs
          exact .escapedBreak he (endsLiteral_cutLiteral t)
        · rename_i hb
          simp only [Cut.push, List.cons_append, List.nil_append]
          refine .escaped he ?_ (endsLiteral_cutLiteral s)
          rwa [happ]
    · rename_i he
      split
      · rename_i hq
        exact hq ▸ .closed
      · rename_i hq
        split
        · rename_i hl
          rw [Bool.and_eq_true, Bool.not_eq_true', Text.atLineEnd_iff] at hl
          exact .lineEnd hl.1 hl.2
        · rename_i hl
          simp only [Cut.push, List.cons_append, List.nil_append]
          refine .plain he hq ?_ (endsLiteral_cutLiteral s)
          rw [happ, ← Text.atLineEnd_iff]
          cases multiline <;> simp_all
termination_by s.length

theorem cutLiteral_of_ends {inside rest : Text} {closed : Bool} (hqe : escape ≠ some quote)
    (hq : Text.isWhite quote = false) (he : ∀ e, escape = some e → Text.isWhite e = false)
    (h : EndsLiteral escape multiline quote inside closed rest) :
    cutLiteral escape multiline quote false (inside ++ rest) = ⟨inside, closed, rest⟩ := by
  induction h with
  | closed => simp [cutLiteral, hqe]
  | @lineEnd rest hm hl =>
    -- the line end is neither the quote nor the escape, which are not white
    have hne : ∀ c, Text.isWhite c = true → escape ≠ some c ∧ c ≠ quote := by
      intro c hc
      refine ⟨fun h => ?_, fun h => ?_⟩
      · rw [he c h] at hc; cases hc
      · rw [h, hq] at hc; cases hc
    have hat := Text.atLineEnd_iff.2 hl
    rcases hl with ⟨t, rfl⟩ | ⟨t, rfl⟩
    · have := hne '\n' (by decide)
      simp_all [cutLiteral]
    · have := hne '\r' (by decide)
      simp_all [cutLiteral]
  | textEnd => rfl
  | escapeEnd h => simp [cutLiteral, h, Cut.push]
  | escaped h hc _ ih =>
    rw [List.cons_append, cutLiteral, if_neg (by simp), if_pos h, List.cons_append,
      cutLiteral_escaped, if_neg hc, ih]
    rfl
  | escapedBreak h _ ih =>
    rw [List.cons_append, cutLiteral, if_neg (by simp), if_pos h, List.cons_append,
      cutLiteral_escaped, List.cons_append, if_pos ⟨rfl, rfl⟩, List.tail_cons, ih]
    rfl
  | plain h hc hl _ ih =>
    rw [List.cons_append, cutLiteral, if_neg (by simp), if_neg h, if_neg hc, if_neg, ih]
    · rfl
    · rw [Bool.and_eq_true, Bool.not_eq_true', Text.atLineEnd_iff]
      rintro ⟨hm, hle⟩
      rcases hl with hl | hl
      · rw [hm] at hl; cases hl
      · exact hl hle

namespace EndsLiteral

/-- A closed literal ends with its quote. -/
theorem getLast?_of_closed {inside rest : Text}
    (h : EndsLiteral escape multiline quote inside true rest) : inside.getLast? = some quote := by
  generalize hb : true = closed at h
  induction h with
  | closed => rfl
  | lineEnd _ _ => cases hb
  | textEnd => cases hb
  | escapeEnd _ => cases hb
  | escaped _ _ _ ih => simp [List.getLast?_cons, ih hb]
  | escapedBreak _ _ ih => simp [List.getLast?_cons, ih hb]
  | plain _ _ _ _ ih => simp [List.getLast?_cons, ih hb]

/-- A literal that is not closed runs to the end of its line or of the text. -/
theorem rest_of_unclosed {inside rest : Text}
    (h : EndsLiteral escape multiline quote inside false rest) :
    rest = [] ∨ multiline = false ∧ rest.LineEnd := by
  generalize hb : false = closed at h
  induction h with
  | closed => cases hb
  | lineEnd hm hl => exact .inr ⟨hm, hl⟩
  | textEnd => exact .inl rfl
  | escapeEnd _ => exact .inl rfl
  | escaped _ _ _ ih => exact ih hb
  | escapedBreak _ _ ih => exact ih hb
  | plain _ _ _ _ ih => exact ih hb

/-- A literal never holds the carriage return of a line end without its line feed. -/
theorem not_return {inside rest : Text} {closed : Bool} (hq : Text.isWhite quote = false)
    (h : EndsLiteral escape multiline quote inside closed rest)
    (hr : inside.getLast? = some '\r') : rest.head? ≠ some '\n' := by
  have hcr : Text.isWhite '\r' = true := by decide
  induction h with
  | closed =>
    obtain rfl : quote = '\r' := by simpa using hr
    rw [hq] at hcr; cases hcr
  | lineEnd _ _ => cases hr
  | textEnd => simp
  | escapeEnd _ => simp
  | @escaped e c inside rest closed _ hc h ih =>
    rcases inside with _ | ⟨d, inside⟩
    · obtain rfl : c = '\r' := by simpa using hr
      exact fun hn => hc ⟨rfl, hn⟩
    · exact ih (by simpa [List.getLast?_cons_cons] using hr)
  | @escapedBreak e inside rest closed _ h ih =>
    rcases inside with _ | ⟨d, inside⟩
    · simp at hr
    · exact ih (by simpa [List.getLast?_cons_cons] using hr)
  | @plain c inside rest closed _ _ hl h ih =>
    rcases inside with _ | ⟨d, inside⟩
    · obtain rfl : c = '\r' := by simpa using hr
      rcases hl with hm | hl
      · cases h with
        | lineEnd hm' _ => rw [hm] at hm'; cases hm'
        | textEnd => simp
      · intro hn
        obtain ⟨t, rfl⟩ := List.head?_eq_some_iff.1 hn
        exact hl (.inr ⟨t, rfl⟩)
    · exact ih (by simpa [List.getLast?_cons_cons] using hr)

/-- A line feed is seen behind what is read of a literal, or is not, the same way
in front of either rest. -/
theorem head?_append_iff {inside rest rest' : Text} {closed : Bool}
    (h : EndsLiteral escape multiline quote inside closed rest)
    (hr : closed = false → rest.StopsLike rest') :
    (inside ++ rest).head? = some '\n' ↔ (inside ++ rest').head? = some '\n' := by
  have hstop : ∀ {s t : Text}, s.StopsLike t → s = [] ∨ s.LineEnd →
      (s.head? = some '\n' ↔ t.head? = some '\n') := by
    rintro s t hst (rfl | hl | hl)
    · rw [hst.nil rfl]
    · obtain ⟨u, rfl⟩ := hl
      obtain ⟨v, rfl⟩ := hst.lineFeed ⟨u, rfl⟩
      simp
    · obtain ⟨u, rfl⟩ := hl
      obtain ⟨v, rfl⟩ := hst.returnFeed ⟨u, rfl⟩
      simp
  cases h with
  | lineEnd _ hl => exact hstop (hr rfl) (.inr hl)
  | textEnd => exact hstop (hr rfl) (.inl rfl)
  | _ => simp

/-- The end of a literal stays where it is when what follows is changed, if the
literal is closed or what follows still stops it. -/
theorem of_rest {inside rest rest' : Text} {closed : Bool}
    (h : EndsLiteral escape multiline quote inside closed rest)
    (hr : closed = false → rest.StopsLike rest') :
    EndsLiteral escape multiline quote inside closed rest' := by
  induction h with
  | closed => exact .closed
  | lineEnd hm hl => exact .lineEnd hm (hl.imp (hr rfl).lineFeed (hr rfl).returnFeed)
  | textEnd => rw [(hr rfl).nil rfl]; exact .textEnd
  | escapeEnd he => rw [(hr rfl).nil rfl]; exact .escapeEnd he
  | escaped he hc h ih =>
    refine .escaped he ?_ (ih hr)
    rwa [← head?_append_iff h hr]
  | escapedBreak he _ ih => exact .escapedBreak he (ih hr)
  | plain he hc hl h ih =>
    refine .plain he hc ?_ (ih hr)
    rwa [Text.lineEnd_cons, ← head?_append_iff h hr, ← Text.lineEnd_cons]

end EndsLiteral
end Literal

/-! ## The cut after an opener -/

namespace Rules
variable {r : Rules} {o : Opener}

theorem closed_cutLine (s : Text) : (cutLine s).closed = true := by
  induction s with
  | nil => rfl
  | cons c s ih => rw [cutLine]; split <;> simp [Cut.push, ih]

theorem ends_cut (ho : o ∈ r.openers) (s : Text) :
    r.Ends o (r.cut o s).inside (r.cut o s).closed (r.cut o s).rest := by
  unfold Ends Rules.cut
  cases hk : o.kind with
  | code => exact ⟨rfl, rfl⟩
  | lineComment => exact ⟨endsLine_cutLine s, closed_cutLine s⟩
  | blockComment => exact endsBlock_cutBlock (blockEnd_solid ho hk).1 s
  | stringLiteral => exact endsLiteral_cutLiteral s
  | charLiteral => exact endsLiteral_cutLiteral s

theorem cut_of_ends (ho : o ∈ r.openers) {inside rest : Text} {closed : Bool}
    (h : r.Ends o inside closed rest) : r.cut o (inside ++ rest) = ⟨inside, closed, rest⟩ := by
  have hliteral : o.kind.isLiteral = true →
      cutLiteral r.escape r.multiline (o.token.headD '\x00') false (inside ++ rest) =
        ⟨inside, closed, rest⟩ := by
    intro hk
    obtain ⟨q, hq, hw, he⟩ := quote_of_literal ho hk
    rw [ends_iff_of_literal hk, hq] at h
    rw [hq]
    exact cutLiteral_of_ends he hw r.valid.escape h
  unfold Rules.cut
  cases hk : o.kind with
  | code => exact absurd hk (kind_ne_code ho)
  | lineComment =>
    simp only [Ends, hk] at h
    rw [h.2]
    exact cutLine_of_ends h.1
  | blockComment =>
    simp only [Ends, hk] at h
    exact cutBlock_of_ends (blockEnd_solid ho hk).1 h
  | stringLiteral => exact hliteral (by rw [hk]; rfl)
  | charLiteral => exact hliteral (by rw [hk]; rfl)

/-! ## The last character of a construct -/

variable {inside rest : Text} {closed : Bool} {c : Char}

theorem not_white_of_solid {a s : Text} (hs : s.Solid) (hne : s ≠ [])
    (hl : (a ++ s).getLast? = some c) : Text.isWhite c = false := by
  rw [List.getLast?_append, List.getLast?_eq_some_getLast hne] at hl
  obtain rfl := Option.some.inj hl
  exact hs _ (List.getLast_mem hne)

/-- Only a line comment, or one that is not closed, ends with white space. -/
theorem last_of_comment (ho : o ∈ r.openers) (h : r.Ends o inside closed rest)
    (hk : o.kind.isComment = true) (hl : (o.token ++ inside).getLast? = some c)
    (hc : Text.isWhite c = true) :
    rest = [] ∨ ∃ a, inside = a ++ [c] ∧ EndsLine (a ++ [c]) rest := by
  unfold Ends at h
  cases hkind : o.kind with
  | lineComment =>
    simp only [hkind] at h
    rcases List.eq_nil_or_concat inside with rfl | ⟨a, d, rfl⟩
    · rw [not_white_of_solid (a := []) (solid_token ho) (token_ne_nil ho) (by simpa using hl)] at hc
      cases hc
    · rw [List.concat_eq_append] at h hl ⊢
      rw [← List.append_assoc, List.getLast?_concat] at hl
      obtain rfl := Option.some.inj hl
      exact .inr ⟨a, rfl, h.1⟩
  | blockComment =>
    simp only [hkind] at h
    cases h with
    | closed _ =>
      have hz := blockEnd_solid ho hkind
      rw [← List.append_assoc] at hl
      rw [not_white_of_solid hz.2 hz.1 hl] at hc
      cases hc
    | unclosed _ => exact .inl rfl
  | _ => simp [hkind, Kind.isComment] at hk

/-- A comment that ends with a line feed is the end of the text. -/
theorem rest_of_feed (ho : o ∈ r.openers) (h : r.Ends o inside closed rest)
    (hk : o.kind.isComment = true) (hl : (o.token ++ inside).getLast? = some '\n') : rest = [] := by
  rcases last_of_comment ho h hk hl (by decide) with hr | ⟨a, -, hline⟩
  · exact hr
  · exact absurd (.inl ⟨rest, rfl⟩) (hline.quiet a ['\n'] rfl (by simp))

/-- The last character of a construct is not the carriage return of a line end. -/
theorem not_return (ho : o ∈ r.openers) (h : r.Ends o inside closed rest)
    (hl : (o.token ++ inside).getLast? = some '\r') : rest.head? ≠ some '\n' := by
  rcases comment_or_literal ho with hk | hk
  · rcases last_of_comment ho h hk hl (by decide) with rfl | ⟨a, -, hline⟩
    · simp
    · intro hn
      obtain ⟨t, rfl⟩ := List.head?_eq_some_iff.1 hn
      exact absurd (.inr ⟨t, rfl⟩) (hline.quiet a ['\r'] rfl (by simp))
  · obtain ⟨q, hq, hw, -⟩ := quote_of_literal ho hk
    rw [ends_iff_of_literal hk, hq] at h
    refine h.not_return hw ?_
    rcases List.eq_nil_or_concat inside with rfl | ⟨a, d, rfl⟩
    · obtain rfl : q = '\r' := by simpa [hq] using hl
      cases hw
    · simpa [List.concat_eq_append, ← List.append_assoc] using hl

end Rules
end Gloss
