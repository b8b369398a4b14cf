import Gloss.Proofs.Rescan
import Gloss.Proofs.Tiling
import Gloss.Proofs.Unclosed
/-!
# One text behind the other

A text that ends with a line feed of code (`Rules.Complete`) can be scanned and
stripped by itself. No token has a line feed in it and a line feed ends every line,
so its lexemes stay the same whatever comes behind (`First.append`), and the
line in progress is finished at its end: `append_complete`.
-/

namespace Gloss

/-! ## A text behind a line feed -/

namespace Text
variable {s b u : Text}

/-- No token reaches over a line feed. -/
theorem prefix_of_terminated (hs : isTerminated s = true) (hu : u.Solid) (hp : u <+: s ++ b) :
    u <+: s := by
  rcases List.prefix_or_prefix_of_prefix hp (List.prefix_append s b) with h | h
  · exact h
  · rw [isTerminated, beq_iff_eq] at hs
    have hfeed := hu '\n' (h.subset (List.mem_of_getLast? hs))
    cases hfeed

/-- A line end at the front of the text is there whatever comes behind. -/
theorem lineEnd_append (hs : isTerminated s = true) (b : Text) : (s ++ b).LineEnd ↔ s.LineEnd := by
  rcases s with _ | ⟨c, _ | ⟨d, s⟩⟩
  · cases hs
  · obtain rfl : c = '\n' := by simpa [isTerminated] using hs
    simp [LineEnd]
  · rw [List.cons_append, lineEnd_cons, lineEnd_cons]
    rfl

theorem stopsLike_append (hne : s ≠ []) (b : Text) : s.StopsLike (s ++ b) where
  nil h := absurd h hne
  lineFeed h := h.trans (List.prefix_append s b)
  returnFeed h := h.trans (List.prefix_append s b)

theorem ne_nil_of_terminated (hs : isTerminated s = true) : s ≠ [] := by
  rintro rfl
  cases hs

theorem terminated_behind (hs : isTerminated s = true) (a : Text) : isTerminated (a ++ s) = true :=
  (isTerminated_append (ne_nil_of_terminated hs) a).trans hs

/-- The lines of two texts, when the first ends with a line feed. -/
theorem lines_append (hs : isTerminated s = true) (t : Text) :
    lines (s ++ t) = lines s ++ lines t := by
  induction s using byLines with
  | nil => cases hs
  | last s _ h =>
    rw [isTerminated_of_not_mem h] at hs
    cases hs
  | line a s ha ih =>
    rw [List.append_assoc, List.cons_append, lines_feed ha, lines_feed ha, List.cons_append]
    by_cases hne : s = []
    · rw [hne]
      rfl
    · rw [← List.singleton_append, ← List.append_assoc, isTerminated_append hne] at hs
      rw [ih hs]

end Text

/-! ## Lexemes in front of a line feed -/

theorem EndsLine.append {inside rest : Text} (h : EndsLine inside rest)
    (hs : Text.isTerminated rest = true) (b : Text) : EndsLine inside (rest ++ b) := by
  have hne := Text.ne_nil_of_terminated hs
  refine ⟨?_, ?_⟩
  · intro x y hxy hy hl
    rw [← List.append_assoc, Text.lineEnd_append (Text.terminated_behind hs y)] at hl
    exact h.quiet x y hxy hy hl
  · exact .inr ((Text.lineEnd_append hs b).2 (h.stops.resolve_left hne))

theorem EndsBlock.append {stop inside rest : Text} {closed : Bool}
    (h : EndsBlock stop inside closed rest) (hne : rest ≠ []) (b : Text) :
    EndsBlock stop inside closed (rest ++ b) := by
  cases h with
  | @closed body _ hfirst =>
    refine .closed ?_
    intro x y hxy
    by_cases hlt : x.length < body.length
    · -- an end token that starts earlier lies in front of what is put behind
      have hlong : x ++ stop <+: body ++ stop ++ (rest ++ b) := by
        rw [hxy, ← List.append_assoc]
        exact List.prefix_append _ _
      have hp : x ++ stop <+: body ++ stop := by
        apply List.prefix_of_prefix_length_le hlong (List.prefix_append _ _)
        simp only [List.length_append]
        omega
      obtain ⟨z, hz⟩ := hp
      have := hfirst x (z ++ rest) (by rw [← hz]; simp)
      omega
    · omega
  | unclosed _ => exact absurd rfl hne

namespace Rules
variable {r : Rules}

theorem opener?_append {s : Text} (hs : Text.isTerminated s = true) (b : Text) :
    r.opener? (s ++ b) = r.opener? s := by
  have hsolid : ∀ u : Text, u.Solid → u <+: s ++ b → u <+: s :=
    fun u hu hp => Text.prefix_of_terminated hs hu hp
  cases h : r.opener? s with
  | none => exact opener?_none_of_solid h hsolid
  | some o => exact opener?_some_of_solid h ((mem_of_opener? h).2.trans (List.prefix_append s b)) hsolid

theorem ends_append {o : Opener} {inside rest : Text} {closed : Bool}
    (h : r.Ends o inside closed rest) (hs : Text.isTerminated rest = true) (b : Text) :
    r.Ends o inside closed (rest ++ b) := by
  have hne := Text.ne_nil_of_terminated hs
  unfold Ends at h ⊢
  cases hk : o.kind <;> simp only [hk] at h ⊢
  case code => exact h
  case lineComment => exact ⟨h.1.append hs b, h.2⟩
  case blockComment => exact h.append hne b
  all_goals exact h.of_rest fun _ => Text.stopsLike_append hne b

/-- Nothing opens in code that ends with a line feed, whatever comes behind. -/
theorem quiet_append {code : Text} (h : r.Code code []) (hs : Text.isTerminated code = true)
    (b x y : Text) (hxy : code = x ++ y) (hy : y ≠ []) : r.opener? (y ++ b) = none := by
  rw [hxy, Text.isTerminated_append hy] at hs
  rw [opener?_append hs, ← List.append_nil y]
  exact h.quiet x y hxy hy

/-- A lexeme in front of a line feed stays as it is whatever comes behind. -/
theorem First.append {l : Lexeme} {rest : Text} (h : r.First l rest)
    (hs : Text.isTerminated rest = true) (b : Text) : r.First l (rest ++ b) := by
  have hne := Text.ne_nil_of_terminated hs
  cases h with
  | @code code _ hcode hc =>
    refine .code hcode ⟨?_, ?_⟩
    · intro x y hxy hy
      rw [← List.append_assoc, opener?_append (Text.terminated_behind hs y)]
      exact hc.quiet x y hxy hy
    · rw [opener?_append hs]
      exact .inr (hc.stops.resolve_left hne)
  | @construct o inside _ closed ho he =>
    refine .construct ?_ (ends_append he hs b)
    rw [← List.append_assoc inside, ← List.append_assoc o.token,
      opener?_append (Text.terminated_behind (Text.terminated_behind hs inside) o.token)]
    exact ho

/-! ## Complete texts -/

/-- The text ends with a line feed that stands in code. -/
inductive Complete (r : Rules) : Text → Prop
  | code {code : Text} : Text.isTerminated code = true → r.Code code [] → Complete r code
  | lexeme {l : Lexeme} {rest : Text} : r.First l rest → Complete r rest →
      Complete r (l.text ++ rest)

theorem Complete.isTerminated {a : Text} (h : r.Complete a) : Text.isTerminated a = true := by
  induction h with
  | code hs _ => exact hs
  | lexeme _ _ ih => exact Text.terminated_behind ih _

/-- A closed construct does not end with a line feed. -/
theorem not_terminated_of_closed {o : Opener} {inside rest : Text} (ho : o ∈ r.openers)
    (h : r.Ends o inside true rest) : Text.isTerminated (o.token ++ inside) = false := by
  rw [Text.isTerminated, beq_eq_false_iff_ne]
  intro hl
  rcases comment_or_literal ho with hk | hk
  · unfold Ends at h
    cases hkind : o.kind with
    | lineComment =>
      simp only [hkind] at h
      by_cases hi : inside = []
      · rw [hi] at hl
        have hw := not_white_of_solid (a := []) (solid_token ho) (token_ne_nil ho) (by simpa using hl)
        cases hw
      · rw [List.getLast?_append, List.getLast?_eq_some_getLast hi] at hl
        have hin : inside = inside.dropLast ++ ['\n'] := by
          rw [← Option.some.inj hl, List.dropLast_append_getLast hi]
        exact h.1.quiet _ _ hin (by simp) (.inl ⟨rest, rfl⟩)
    | blockComment =>
      simp only [hkind] at h
      cases h with
      | closed _ =>
        have hz := blockEnd_solid ho hkind
        rw [← List.append_assoc] at hl
        have hw := not_white_of_solid hz.2 hz.1 hl
        cases hw
    | _ => simp [hkind, Kind.isComment] at hk
  · obtain ⟨q, hq, hw, -⟩ := quote_of_literal ho hk
    rw [ends_iff_of_literal hk, hq] at h
    have hlast : inside.getLast? = some q := h.getLast?_of_closed
    rw [List.getLast?_append, hlast] at hl
    obtain rfl := Option.some.inj hl
    cases hw

theorem layOut_ne_nil {s : Text} (hne : s ≠ []) (offset : Nat) : layOut offset (r.lexemes s) ≠ [] := by
  have hs := r.flatten_lexemes s
  cases h : r.lexemes s with
  | nil =>
    rw [h] at hs
    exact absurd hs.symm hne
  | cons l ls => simp [layOut]

/-- A text is complete if it ends with a line feed and its last span is closed. -/
theorem complete_of_terminated {a : Text} (ha : Text.isTerminated a = true) : ∀ offset : Nat,
    (∀ f, (layOut offset (r.lexemes a)).getLast? = some f → f.isTerminated r = true) →
      r.Complete a := by
  induction a using byLexemes r with
  | nil => cases ha
  | cons l rest hl ih =>
    intro offset hlast
    rw [hl.lexemes_append, layOut] at hlast
    by_cases hne : rest = []
    · -- the last span: a closed construct would not end with a line feed
      subst hne
      rw [List.append_nil] at ha ⊢
      rw [lexemes_nil] at hlast
      have hclosed : l.closed = true := (terminates_eq hl).symm.trans (hlast _ rfl)
      cases hl with
      | code _ hc => exact .code ha hc
      | @construct o inside _ closed ho he =>
        obtain rfl : closed = true := hclosed
        rw [not_terminated_of_closed (mem_of_opener? ho).1 he] at ha
        cases ha
    · obtain ⟨g, gs, hgs⟩ := List.exists_cons_of_ne_nil
        (layOut_ne_nil (r := r) hne (offset + Text.width l.text))
      rw [Text.isTerminated_append hne] at ha
      refine .lexeme hl (ih ha (offset + Text.width l.text) fun f hf => hlast f ?_)
      rw [hgs] at hf ⊢
      rw [List.getLast?_cons_cons]
      exact hf

/-- Code that ends with a line feed is a run by itself, or the front of the run
that starts behind it. -/
theorem code_append {code : Text} (h : r.Code code []) (hs : Text.isTerminated code = true)
    (b : Text) :
    r.Code code b ∨ ∃ code' rest, b = code' ++ rest ∧ code' ≠ [] ∧ r.Code code' rest ∧
      r.Code (code ++ code') rest := by
  have hquiet := quiet_append h hs
  induction b using byLexemes r with
  | nil => exact .inl h
  | cons l rest hl _ =>
    cases hl with
    | @code code' _ hne hc =>
      refine .inr ⟨code', rest, rfl, hne, hc, ?_, hc.stops⟩
      intro x y hxy hy
      -- what is left of both runs starts in the first one or in the second
      rcases List.append_eq_append_iff.1 hxy.symm with ⟨z, rfl, rfl⟩ | ⟨z, rfl, hz⟩
      · by_cases hz : z = []
        · rw [hz] at hy ⊢
          exact hc.quiet [] _ rfl hy
        · rw [List.append_assoc]
          exact hquiet _ x z rfl hz
      · exact hc.quiet z y hz hy
    | @construct o inside _ closed ho he =>
      refine .inl ⟨hquiet _, .inr ⟨o, ?_⟩⟩
      rw [List.append_assoc]
      exact ho

end Rules

/-! ## Spans one behind the other -/

namespace Region

/-- The region in a text that has `n` bytes more in front. -/
def shift (n : Nat) (g : Region) : Region :=
  ⟨g.kind, ⟨g.span.start + n, g.span.stop + n, Nat.add_le_add_right g.span.start_le_stop n⟩⟩

/-- Code behind code is one region. -/
def meld? (g h : Region) : Option Region :=
  if g.kind = .code ∧ h.kind = .code then (g.span.join? h.span).map (⟨.code, ·⟩) else none

/-- The regions of a text and those of the text behind it. Where code meets code
the last region and the first one are one. -/
def weld (gs hs : List Region) : List Region :=
  match gs.getLast?, hs with
  | some g, h :: hs' =>
    match g.meld? h with
    | some k => gs.dropLast ++ k :: hs'
    | none => gs ++ hs
  | _, _ => gs ++ hs

theorem weld_nil (gs : List Region) : weld gs [] = gs := by
  unfold weld
  cases gs.getLast? <;> simp

theorem weld_cons (g : Region) {gs : List Region} (hne : gs ≠ []) (hs : List Region) :
    weld (g :: gs) hs = g :: weld gs hs := by
  obtain ⟨k, gs, rfl⟩ := List.exists_cons_of_ne_nil hne
  unfold weld
  rw [List.getLast?_cons_cons]
  cases hs with
  | nil => rfl
  | cons h hs =>
    cases hl : (k :: gs).getLast? with
    | none => rfl
    | some l => cases hm : l.meld? h <;> simp [hm]

theorem weld_apart {g : Region} {hs : List Region}
    (h : ∀ k, hs.head? = some k → k.kind ≠ .code) : weld [g] hs = g :: hs := by
  cases hs with
  | nil => exact weld_nil [g]
  | cons k hs =>
    have hk := h k rfl
    simp [weld, meld?, hk]

theorem weld_code {n w w' : Nat} {hs : List Region} :
    weld [⟨.code, .ofLength n w⟩] (⟨.code, .ofLength (n + w) w'⟩ :: hs) =
      ⟨.code, .ofLength n (w + w')⟩ :: hs := by
  simp [weld, meld?, Span.join?, Span.ofLength, Nat.add_assoc]

end Region

namespace Rules
variable {r : Rules} {policy : Policy} {a b : Text}

theorem map_region_shift (n : Nat) (ls : List Lexeme) : ∀ offset : Nat,
    (layOut (offset + n) ls).map (·.region) =
      ((layOut offset ls).map (·.region)).map (Region.shift n) := by
  induction ls with
  | nil => exact fun _ => rfl
  | cons l ls ih =>
    intro offset
    rw [map_region_layOut, map_region_layOut, List.map_cons, ← ih, Nat.add_right_comm]
    congr 1
    simp only [Region.shift, Span.ofLength, Nat.add_right_comm]

theorem Complete.weld (h : r.Complete a) (b : Text) : ∀ offset : Nat,
    (layOut offset (r.lexemes (a ++ b))).map (·.region) =
      Region.weld ((layOut offset (r.lexemes a)).map (·.region))
        ((layOut (offset + Text.width a) (r.lexemes b)).map (·.region)) := by
  induction h with
  | @code code hs hc =>
    -- the only region there is, so the one that may grow
    intro offset
    have hne := Text.ne_nil_of_terminated hs
    have halone := lexemes_code hne hc
    rw [List.append_nil, lexemes_nil] at halone
    rw [halone, map_region_layOut]
    rcases code_append hc hs b with hb | ⟨code', rest, rfl, hne', hc', hb⟩
    · rw [lexemes_code hne hb, map_region_layOut]
      refine (Region.weld_apart fun k hk => ?_).symm
      obtain ⟨l, hl, hlk⟩ := head?_layOut hk
      rw [← hlk]
      exact head?_lexemes_of_code hb hl
    · rw [lexemes_code hne' hc', map_region_layOut, ← List.append_assoc,
        lexemes_code (by simp [hne]) hb, map_region_layOut]
      dsimp only
      rw [Text.width_append, ← Nat.add_assoc]
      exact Region.weld_code.symm
  | @lexeme l rest hl hrest ih =>
    intro offset
    have hs := hrest.isTerminated
    have hgs : (layOut (offset + Text.width l.text) (r.lexemes rest)).map (·.region) ≠ [] := by
      rw [ne_eq, List.map_eq_nil_iff]
      exact layOut_ne_nil (Text.ne_nil_of_terminated hs) _
    rw [List.append_assoc, (hl.append hs b).lexemes_append, hl.lexemes_append, map_region_layOut,
      map_region_layOut, ih, Region.weld_cons _ hgs, Text.width_append, Nat.add_assoc]

end Rules

/-! ## Stripping one behind the other -/

namespace Line
variable {policy : Policy} {l : Line} {ps qs qs' : List Piece} {t : Text}

theorem finish_nil : Line.finish policy {} [] = [] := by
  cases policy <;> rfl

/-- What is put behind the pieces is put behind what they come to. -/
theorem finish_append (h : ∀ l : Line, l.finish policy qs' = l.finish policy qs ++ t) :
    ∀ l : Line, l.finish policy (ps ++ qs') = l.finish policy (ps ++ qs) ++ t := by
  induction ps with
  | nil => exact h
  | cons p ps ih =>
    intro l
    rw [List.cons_append, List.cons_append]
    cases hp : p.breaks policy with
    | true => rw [finish_break hp, finish_break hp, ih, List.append_assoc]
    | false => rw [finish_next hp, finish_next hp, ih]

/-- Code that ends with a line feed finishes the line in progress, and nothing of
it is left for what comes behind. -/
theorem finish_code {code : Text} (hs : Text.isTerminated code = true) (next : Option Char)
    (ps : List Piece) : ∀ l : Line,
    l.finish policy (policy.pieces .code code next ++ ps) =
      l.finish policy (policy.pieces .code code none) ++ finish policy {} ps := by
  have hsplits : policy.splits .code = true := Policy.splits_of_not_comment rfl
  unfold Policy.pieces
  rw [if_pos hsplits, if_pos hsplits]
  induction code using Text.byLines with
  | nil => cases hs
  | last s _ h =>
    rw [Text.isTerminated_of_not_mem h] at hs
    cases hs
  | line a s ha ih =>
    intro l
    rw [Text.lines_feed ha, List.map_cons, List.map_cons, List.cons_append,
      finish_break (Piece.breaks_of_not_comment rfl), finish_break (Piece.breaks_of_not_comment rfl),
      feed_code, feed_code, List.append_assoc]
    by_cases hne : s = []
    · rw [hne]
      simp [Text.lines, finish_nil]
    · rw [← List.singleton_append, ← List.append_assoc, Text.isTerminated_append hne] at hs
      rw [ih hs]

end Line

namespace Rules
variable {r : Rules} {policy : Policy} {a b : Text}

theorem pieces_code_append (policy : Policy) {code : Text} (hs : Text.isTerminated code = true)
    (hc : r.Code code []) (b : Text) :
    ∃ next, r.pieces policy (code ++ b) = policy.pieces .code code next ++ r.pieces policy b := by
  have hne := Text.ne_nil_of_terminated hs
  rcases code_append hc hs b with hb | ⟨code', rest, rfl, hne', hc', hb⟩
  · exact ⟨_, pieces_code hne hb⟩
  · refine ⟨rest.head?, ?_⟩
    have hsplits : policy.splits .code = true := Policy.splits_of_not_comment rfl
    rw [← List.append_assoc, pieces_code (by simp [hne]) hb, pieces_code hne' hc']
    unfold Policy.pieces
    rw [if_pos hsplits, if_pos hsplits, if_pos hsplits, Text.lines_append hs, List.map_append,
      List.append_assoc]

theorem Complete.finish (h : r.Complete a) (b : Text) : ∀ l : Line,
    l.finish policy (r.pieces policy (a ++ b)) =
      l.finish policy (r.pieces policy a) ++ r.strip policy b := by
  induction h with
  | @code code hs hc =>
    intro l
    obtain ⟨next, hb⟩ := pieces_code_append policy hs hc b
    have halone : r.pieces policy (code ++ []) = _ :=
      pieces_code (Text.ne_nil_of_terminated hs) hc
    rw [List.append_nil, pieces_nil, List.append_nil] at halone
    rw [hb, halone, strip_eq_finish]
    exact Line.finish_code hs next _ l
  | @lexeme l rest hl hrest ih =>
    have hs := hrest.isTerminated
    have hnext : (rest ++ b).head? = rest.head? := by
      obtain ⟨c, t, rfl⟩ := List.exists_cons_of_ne_nil (Text.ne_nil_of_terminated hs)
      rfl
    rw [List.append_assoc, pieces_lexeme (hl.append hs b).lexemes_append,
      pieces_lexeme hl.lexemes_append, hnext]
    exact Line.finish_append ih

/-- A text that is empty, or ends with a line feed and whose last span is closed,
is scanned and stripped by itself, whatever text comes behind it. -/
theorem append_complete (r : Rules) (policy : Policy) {a : Text}
    (ha : a = [] ∨ Text.isTerminated a = true)
    (hlast : ∀ f, (r.fragments a).getLast? = some f → f.isTerminated r = true) (b : Text) :
    r.scan (a ++ b) = Region.weld (r.scan a) ((r.scan b).map (Region.shift (Text.width a))) ∧
      r.strip policy (a ++ b) = r.strip policy a ++ r.strip policy b := by
  rcases ha with rfl | ha
  · have hshift := map_region_shift 0 (r.lexemes b) 0
    constructor
    · unfold scan fragments
      rw [lexemes_nil, List.nil_append, Text.width_nil, ← hshift]
      rfl
    · rw [strip_eq_finish [], pieces_nil, Line.finish_nil]
      rfl
  · have hcomplete := complete_of_terminated ha 0 hlast
    constructor
    · have hweld := hcomplete.weld b 0
      rw [map_region_shift (Text.width a) _ 0] at hweld
      exact hweld
    · rw [strip_eq_finish, strip_eq_finish a]
      exact hcomplete.finish b {}

/-- A line with a comment in it, and behind it one that starts with white space. -/
theorem append_complete_common :
    ∃ a b : Text, a = ['x', '/', '*', '*', '/', '\n'] ∧ b = [' ', '/', '/', '\n', '"', '\n'] ∧
      Text.isTerminated a = true ∧
      (∀ f, (common.fragments a).getLast? = some f → f.isTerminated common = true) ∧
      common.scan (a ++ b) =
        Region.weld (common.scan a) ((common.scan b).map (Region.shift (Text.width a))) ∧
      common.strip .collapse (a ++ b) = common.strip .collapse a ++ common.strip .collapse b := by
  have hend : Text.isTerminated ['x', '/', '*', '*', '/', '\n'] = true := by decide
  have hfragment : (common.fragments ['x', '/', '*', '*', '/', '\n']).getLast? =
      some ⟨.code, ⟨5, 6, by decide⟩, ['\n'], none⟩ := by decide +kernel
  have hlast : ∀ f, (common.fragments ['x', '/', '*', '*', '/', '\n']).getLast? = some f →
      f.isTerminated common = true := by
    intro f hf
    rw [hfragment] at hf
    obtain rfl := Option.some.inj hf
    rfl
  exact ⟨_, _, rfl, rfl, hend, hlast, append_complete common .collapse (.inr hend) hlast _⟩

end Rules
end Gloss
