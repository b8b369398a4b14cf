import Mathlib.Data.List.Forall2
import Mathlib.Logic.ExistsUnique
import Gloss.Proofs.Ending
import Gloss.Proofs.Writing
import Gloss.Unclosed
/-!
# Unclosed constructs

Whether a construct is closed is asked of its text alone, by other code than
ends it. `terminates_eq`: the answer is the one the scan had. From that comes what
may follow an unclosed construct (`rest_of_not_closed`) and what is warned
about: `unclosed_scan`.
-/

namespace Gloss

/-! ## Closed or not, from the text alone -/

namespace Rules
variable {r : Rules}

/-- Of two suffixes the one of fewer bytes is a suffix of the other. -/
theorem suffix_of_width_le {a b s : Text} (ha : a <:+ s) (hb : b <:+ s)
    (hw : Text.width a ≤ Text.width b) : a <:+ b := by
  rcases List.suffix_or_suffix_of_suffix ha hb with h | ⟨t, rfl⟩
  · exact h
  · rw [Text.width_append] at hw
    by_cases ht : t = []
    · rw [ht]
      exact List.suffix_refl b
    · have := Text.width_pos ht
      omega

/-- A block comment closes with an end token behind its start token, and an open
one does not, even where the two tokens share characters. -/
theorem closes_block {start stop inside rest : Text} {closed : Bool}
    (h : EndsBlock stop inside closed rest) :
    (Text.width start + Text.width stop ≤ Text.width (start ++ inside) &&
      stop.isSuffixOf (start ++ inside)) = closed := by
  cases h with
  | @closed body _ _ =>
    have hsuffix : stop <:+ start ++ (body ++ stop) := ⟨start ++ body, by rw [List.append_assoc]⟩
    rw [List.isSuffixOf_iff_suffix.2 hsuffix, Bool.and_true, decide_eq_true_eq]
    simp only [Text.width_append]
    omega
  | unclosed hno =>
    rw [Bool.and_eq_false_imp, decide_eq_true_eq, Bool.eq_false_iff]
    intro hw hsuffix
    rw [Text.width_append] at hw
    rw [List.isSuffixOf_iff_suffix] at hsuffix
    have hin := suffix_of_width_le hsuffix (List.suffix_append start _) (by omega)
    exact hno hin.isInfix

/-- An escape takes a carriage return and line feed one after the other here,
which makes no difference: neither is the escape or the quote. -/
theorem closesLiteral_eq {escape : Option Char} {multiline : Bool} {quote : Char}
    {inside rest : Text} {closed : Bool} (hqe : escape ≠ some quote)
    (hq : Text.isWhite quote = false) (he : ∀ e, escape = some e → Text.isWhite e = false)
    (h : EndsLiteral escape multiline quote inside closed rest) :
    closesLiteral escape quote false inside = closed := by
  induction h with
  | closed => simp [closesLiteral, hqe]
  | lineEnd _ _ => rfl
  | textEnd => rfl
  | escapeEnd h => simp [closesLiteral, h]
  | escaped h _ _ ih => simpa [closesLiteral, h] using ih
  | escapedBreak h _ ih =>
    have hfeed : Text.isWhite '\n' = true := by decide
    have hescape : escape ≠ some '\n' := by
      intro hn
      rw [he _ hn] at hfeed
      cases hfeed
    have hquote : '\n' ≠ quote := by
      rintro rfl
      rw [hq] at hfeed
      cases hfeed
    rw [closesLiteral, if_neg (by simp), if_pos h, closesLiteral, if_pos rfl, closesLiteral,
      if_neg (by simp), if_neg hescape, if_neg hquote]
    exact ih
  | plain h hc _ _ ih => simpa [closesLiteral, h, hc] using ih

/-- A construct is closed, judged by its text, exactly if it met its own end. -/
theorem terminates_eq {l : Lexeme} {rest : Text} (h : r.First l rest) :
    r.terminates l.kind l.text = l.closed := by
  cases h with
  | code _ _ => rfl
  | @construct o inside rest closed ho he =>
    have hm := (mem_of_opener? ho).1
    have hliteral : ∀ q, o.token = [q] → o.kind.isLiteral = true →
        r.isLiteral q (o.token ++ inside) = closed := by
      intro q hq hk
      obtain ⟨q', hq', hw, hescape⟩ := quote_of_literal hm hk
      rw [hq, List.cons.injEq] at hq'
      obtain rfl := hq'.1
      rw [ends_iff_of_literal hk, hq] at he
      rw [hq, List.singleton_append, isLiteral, beq_self_eq_true, Bool.true_and]
      exact closesLiteral_eq hescape hw r.valid.escape he
    -- the kind says which delimiters there are, and those are the ones that were read
    unfold terminates
    rcases opener_cases hm with ⟨hk, z, hz⟩ | ⟨hk, -⟩ | ⟨hk, q, hq, ht⟩ | ⟨hk, q, hq, ht⟩
    · simp only [Ends, hk, Delimiters.blockEnd_eq hz] at he
      simp only [hk, hz]
      exact closes_block he
    · simp only [Ends, hk] at he
      simp only [hk, he.2]
    · simp only [hk, hq, Option.any_some]
      exact hliteral q ht (by rw [hk]; rfl)
    · simp only [hk, hq, Option.any_some]
      exact hliteral q ht (by rw [hk]; rfl)

/-! ## What follows an unclosed construct -/

theorem hasCloser_of_not_closed {l : Lexeme} {rest : Text} (h : r.First l rest)
    (hc : l.closed = false) : l.kind.hasCloser = true := by
  cases h with
  | code _ _ => cases hc
  | @construct o inside rest closed ho he =>
    rcases opener_cases (mem_of_opener? ho).1 with ⟨hk, -⟩ | ⟨hk, -⟩ | ⟨hk, -⟩ | ⟨hk, -⟩
    · simp [hk, Kind.hasCloser]
    · simp only [Ends, hk] at he
      rw [he.2] at hc
      cases hc
    · simp [hk, Kind.hasCloser]
    · simp [hk, Kind.hasCloser]

/-- An unclosed construct ends with the text. A literal may end with its line. -/
theorem rest_of_not_closed {l : Lexeme} {rest : Text} (h : r.First l rest)
    (hc : l.closed = false) :
    rest = [] ∨ l.kind.isLiteral = true ∧ r.multiline = false ∧ rest.LineEnd := by
  cases h with
  | code _ _ => cases hc
  | @construct o inside rest closed ho he =>
    obtain rfl : closed = false := hc
    rcases comment_or_literal (mem_of_opener? ho).1 with hk | hk
    · have hk' := hasCloser_of_not_closed (.construct ho he) rfl
      cases hkind : o.kind with
      | blockComment =>
        simp only [Ends, hkind] at he
        cases he
        exact .inl rfl
      | _ => simp [hkind, Kind.isComment, Kind.hasCloser] at hk hk'
    · rw [ends_iff_of_literal hk] at he
      exact he.rest_of_unclosed.imp id fun hl => ⟨hk, hl⟩

/-- A line end starts a run of code. -/
theorem exists_code_of_lineEnd {s : Text} (h : s.LineEnd) :
    ∃ code rest, s = code ++ rest ∧ code.LineEnd ∧ r.First ⟨.code, code, true⟩ rest := by
  obtain ⟨c, t, rfl⟩ := List.exists_cons_of_ne_nil (show s ≠ [] by
    rintro rfl
    exact Text.not_lineEnd_nil h)
  have hwhite : Text.isWhite c = true := by
    rcases Text.lineEnd_cons.1 h with rfl | ⟨rfl, -⟩ <;> decide
  obtain ⟨code, rest, rfl, -, hcode⟩ := exists_code (opener?_white (r := r) (s := t) hwhite)
  exact ⟨c :: code, rest, rfl, hcode.lineEnd (by simp) h, .code (by simp) hcode⟩

end Rules

/-! ## Warnings -/

open Scanner

/-- The diagnostic is the warning about an unclosed construct of the text. It
notes a line break exactly if that is what ended the construct. -/
structure Fragment.Warned (r : Rules) (source : Text) (f : Fragment) (d : Diagnostic) : Prop where
  level : d.level = .warning
  span : d.span = f.span
  code : f.kind = .blockComment ∧ d.code = some .unclosedBlockComment ∨
    f.kind = .stringLiteral ∧ d.code = some .unclosedString ∨
    f.kind = .charLiteral ∧ d.code = some .unclosedChar
  lineEnd : EndsWith r source f.region .lineEnd → d.notes = ["the literal ends at the line break"]
  textEnd : ¬ EndsWith r source f.region .lineEnd → d.notes = []

/-- A fragment of a text and what ended it. -/
theorem Rules.exists_ending {r : Rules} {source : Text} {f : Fragment}
    (hf : f ∈ r.fragments source) :
    ∃ closed rest, r.First ⟨f.kind, f.text, closed⟩ rest ∧ f.isTerminated r = closed ∧
      (f.span.stop = Text.width source ↔ rest = []) ∧
      (f.kind.hasCloser = true →
        ∀ e, EndsWith r source f.region e ↔ e = .behind closed rest) := by
  obtain ⟨front, back, hs⟩ := List.append_of_mem hf
  obtain ⟨before, rest, closed, rfl, hspan, -, -, hfirst⟩ := exists_first hs
  refine ⟨closed, rest, hfirst, terminates_eq hfirst, ?_, fun hk e => endsWith_iff hf hspan hfirst hk⟩
  rw [hspan]
  simp only [Span.ofLength, Text.width_append]
  by_cases hr : rest = []
  · simp [hr]
  · have := Text.width_pos hr
    simp only [hr, iff_false]
    omega

theorem Fragment.warning?_of_terminated {r : Rules} {file : SourceFile} {f : Fragment}
    (h : f.isTerminated r = true) : f.warning? r file = none := by
  unfold Fragment.warning?
  rw [h]
  rfl

theorem Fragment.exists_warning {r : Rules} {file : SourceFile} {f : Fragment}
    (hf : f ∈ r.fragments file.text) (h : f.isTerminated r = false) :
    ∃ d, f.warning? r file = some d ∧ f.Warned r file.text d := by
  obtain ⟨closed, rest, hfirst, hclosed, hstop, hends⟩ := Rules.exists_ending hf
  obtain rfl : closed = false := hclosed.symm.trans h
  have hk : f.kind.hasCloser = true := Rules.hasCloser_of_not_closed hfirst rfl
  -- what is not closed ends with the text or with a line
  have hline : EndsWith r file.text f.region .lineEnd ↔ f.span.stop ≠ Text.width file.text := by
    rw [hends hk, ne_eq, hstop]
    by_cases hr : rest = [] <;> simp [Ending.behind, hr]
  obtain ⟨message, code, closer, hunclosed, hcode⟩ : ∃ message code closer,
      f.kind.unclosed? r = some (message, code, closer) ∧
      (f.kind = .blockComment ∧ some code = some .unclosedBlockComment ∨
        f.kind = .stringLiteral ∧ some code = some .unclosedString ∨
        f.kind = .charLiteral ∧ some code = some .unclosedChar) := by
    cases hkind : f.kind <;> simp [hkind, Kind.hasCloser, Kind.unclosed?] at hk ⊢
  unfold Fragment.warning?
  rw [h, hunclosed]
  refine ⟨_, rfl, rfl, rfl, hcode, ?_, ?_⟩
  · intro hl
    exact if_neg (hline.1 hl)
  · intro hl
    rw [hline, not_not] at hl
    exact if_pos hl

/-- A list of fragments gives one warning for each that is not closed, in order. -/
theorem forall₂_warnings (r : Rules) (file : SourceFile) {fs : List Fragment}
    (hfs : ∀ f ∈ fs, f ∈ r.fragments file.text) :
    List.Forall₂ (Fragment.Warned r file.text) (fs.filter fun f => !f.isTerminated r)
      (warnings r file fs) := by
  induction fs with
  | nil => exact .nil
  | cons f fs ih =>
    have ih := ih fun g hg => hfs g (List.mem_cons_of_mem _ hg)
    unfold warnings
    cases h : f.isTerminated r with
    | true =>
      rw [List.filter_cons_of_neg (by simp [h]),
        List.filterMap_cons_none (Fragment.warning?_of_terminated h)]
      exact ih
    | false =>
      obtain ⟨d, hd, hwarned⟩ := Fragment.exists_warning (hfs f (List.mem_cons_self ..)) h
      rw [List.filter_cons_of_pos (by simp [h]), List.filterMap_cons_some hd]
      exact .cons hwarned ih

/-! ## In a scan -/

namespace Rules
variable {r : Rules} {source : Text} {f : Fragment}

theorem existsUnique_ending (hf : f ∈ r.fragments source) (hk : f.kind.hasCloser = true) :
    ∃! e, EndsWith r source f.region e := by
  obtain ⟨closed, rest, -, -, -, hends⟩ := exists_ending hf
  exact ⟨.behind closed rest, (hends hk _).2 rfl, fun e he => (hends hk e).1 he⟩

theorem isTerminated_iff (hf : f ∈ r.fragments source) (hk : f.kind.hasCloser = true) :
    f.isTerminated r = true ↔ EndsWith r source f.region .closer := by
  obtain ⟨closed, rest, -, hclosed, -, hends⟩ := exists_ending hf
  rw [hclosed, hends hk]
  cases closed with
  | true => simp [Ending.behind]
  | false => by_cases hr : rest = [] <;> simp [Ending.behind, hr]

/-- An unclosed construct is the last fragment, or a literal in front of the code
that starts with its line end. -/
theorem behind_unclosed {front back : List Fragment} (hfs : r.fragments source = front ++ f :: back)
    (hopen : f.isTerminated r = false) :
    f.kind.hasCloser = true ∧
    (back = [] ∨ f.kind.isLiteral = true ∧ r.multiline = false ∧
      ∃ g back', back = g :: back' ∧ g.kind = .code ∧ g.text.LineEnd) := by
  obtain ⟨before, rest, closed, -, -, -, rfl, hfirst⟩ := exists_first hfs
  obtain rfl : closed = false := (terminates_eq hfirst).symm.trans hopen
  refine ⟨hasCloser_of_not_closed hfirst rfl, ?_⟩
  rcases rest_of_not_closed hfirst rfl with rfl | ⟨hk, hm, hl⟩
  · left
    rw [lexemes_nil]
    rfl
  · obtain ⟨code, rest', rfl, hcode, hnext⟩ := exists_code_of_lineEnd (r := r) hl
    have hcons := hnext.lexemes_append
    dsimp only at hcons
    rw [hcons]
    exact .inr ⟨hk, hm, _, _, rfl, rfl, hcode⟩

/-- A block comment or literal of a scan is closed exactly if the scanner read its
end token or quote. One that is not is the last, or is a literal cut by the end
of its line, and each gets its warning, in order. -/
theorem unclosed_scan (r : Rules) (file : SourceFile) :
    fragmentsAt? file.text (r.scan file.text) = some (r.fragments file.text) ∧
    (∀ f ∈ r.fragments file.text, f.kind.hasCloser = true →
      (∃! e, EndsWith r file.text f.region e) ∧
      (f.isTerminated r = true ↔ EndsWith r file.text f.region .closer)) ∧
    (∀ front f back, r.fragments file.text = front ++ f :: back → f.isTerminated r = false →
      f.kind.hasCloser = true ∧
      (f.kind = .blockComment → back = []) ∧
      (f.kind.isLiteral = true → back = [] ∨ r.multiline = false ∧
        ∃ g back', back = g :: back' ∧ g.kind = .code ∧ g.text.LineEnd)) ∧
    List.Forall₂ (Fragment.Warned r file.text)
      ((r.fragments file.text).filter fun f => !f.isTerminated r)
      (warnings r file (r.fragments file.text)) ∧
    (warnings r file (r.fragments file.text)).length =
      (r.fragments file.text).countP fun f => !f.isTerminated r := by
  have hwarned := forall₂_warnings r file (fun f (hf : f ∈ r.fragments file.text) => hf)
  refine ⟨fragmentsAt?_scan r file.text, ?_, ?_, hwarned, ?_⟩
  · intro f hf hk
    exact ⟨existsUnique_ending hf hk, isTerminated_iff hf hk⟩
  · intro front f back hfs hopen
    obtain ⟨hk, hback⟩ := behind_unclosed hfs hopen
    refine ⟨hk, ?_, fun _ => hback.imp_right And.right⟩
    intro hkind
    refine hback.resolve_right ?_
    rintro ⟨hliteral, -⟩
    simp [hkind, Kind.isLiteral] at hliteral
  · rw [← hwarned.length_eq, List.countP_eq_length_filter]

end Rules
end Gloss
