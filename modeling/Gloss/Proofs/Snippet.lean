import Mathlib.Data.List.DropRight
import Gloss.Proofs.Position
import Gloss.Proofs.Unclosed
/-!
# Where a snippet points

The line a snippet shows is the row of the text in which its span starts, without
the carriage returns at the end of the row (`line?_of_rows`). A construct starts
with a character that is none, so its carets start under that character and at
least one of them is in the line (`ofSpan_points`). They stay in the line except
under a construct that ends on its first line with a carriage return by itself:
the columns count that one, and the line shown does not have it. `warnings_point`
says it of every warning about a scan.
-/

namespace Gloss

/-! ## Line feeds and carriage returns at the end -/

namespace Text

/-- What a shown line does not end in. -/
def isBreak (c : Char) : Bool := c == '\n' || c == '\r'

theorem dropEndWhile_append_of_all {p : Char → Bool} {t : Text} (s : Text) (h : ∀ c ∈ t, p c = true) :
    dropEndWhile p (s ++ t) = dropEndWhile p s := by
  unfold dropEndWhile
  rw [List.reverse_append, List.dropWhile_append_of_pos]
  simpa using h

/-- Nothing in front of a character that stays is dropped. -/
theorem prefix_dropEndWhile {p : Char → Bool} {c : Char} (s t : Text) (hc : p c = false) :
    s ++ [c] <+: dropEndWhile p (s ++ [c] ++ t) := by
  induction t using List.reverseRecOn with
  | nil =>
    have h : dropEndWhile p (s ++ [c]) = s ++ [c] := List.rdropWhile_concat_neg _ _ _ (by simp [hc])
    exact ⟨[], by rw [List.append_nil, h]⟩
  | append_singleton t d ih =>
    rw [← List.append_assoc]
    by_cases hd : p d = true
    · rwa [dropEndWhile_append_of_all _ (by simpa using hd)]
    · have h : dropEndWhile p (s ++ [c] ++ t ++ [d]) = s ++ [c] ++ t ++ [d] :=
        List.rdropWhile_concat_neg _ _ _ hd
      rw [h, List.append_assoc (s ++ [c])]
      exact List.prefix_append _ _

/-- A text up to its first line feed, and what follows. -/
theorem exists_row (s : Text) :
    ∃ row stop, s = row ++ stop ∧ '\n' ∉ row ∧ (stop = [] ∨ ∃ t, stop = '\n' :: t) := by
  induction s using byLines with
  | nil => exact ⟨[], [], rfl, by simp, .inl rfl⟩
  | last s _ hs => exact ⟨s, [], by simp, hs, .inl rfl⟩
  | line a s ha _ => exact ⟨a, '\n' :: s, by simp, ha, .inr ⟨s, rfl⟩⟩

end Text

/-! ## The shown line -/

namespace SourceFile
variable {f : SourceFile} {before row a stop : Text} {ls : List Text}

theorem line?_succ (f : SourceFile) (i : Nat) :
    f.line? (i + 1) = (f.row? i).map (Text.dropEndWhile Text.isBreak) := by
  unfold line? row?
  rw [guard, if_pos (Nat.succ_pos i), Nat.add_sub_cancel]
  cases f.lineStart? i with
  | none => rfl
  | some start => exact (Option.map_eq_bind ..).symm

/-- The row behind full lines, with the line feed that follows. -/
theorem row?_of_rows (hf : f.text = before ++ (a ++ stop)) (h : Text.Rows before ls row)
    (ha : '\n' ∉ a) (hstop : stop = [] ∨ ∃ t, stop = '\n' :: t) :
    f.row? ls.length = some (row ++ a ++ stop.take 1) := by
  rcases hstop with rfl | ⟨t, rfl⟩
  · have hrows : Text.Rows f.text ls (row ++ a) := by
      rw [hf, List.append_nil]
      exact h.append ha
    rw [← getElem?_rows hrows]
    simp
  · obtain ⟨ls', row', h'⟩ := Text.exists_rows t
    have hrows : Text.Rows f.text (ls ++ (row ++ a ++ ['\n']) :: ls') row' := by
      constructor
      · rw [hf, h.join, h'.join]
        simp
      · intro l hl
        rcases List.mem_append.1 hl with hl | hl
        · exact h.full l hl
        · rcases List.mem_cons.1 hl with rfl | hl
          · exact ⟨row ++ a, rfl, (h.append ha).unended⟩
          · exact h'.full l hl
      · exact h'.unended
    rw [← getElem?_rows hrows]
    simp

/-- The line that is shown is the row without the carriage returns at its end. -/
theorem line?_of_rows (hf : f.text = before ++ (a ++ stop)) (h : Text.Rows before ls row)
    (ha : '\n' ∉ a) (hstop : stop = [] ∨ ∃ t, stop = '\n' :: t) :
    f.line? (ls.length + 1) = some (Text.dropEndWhile Text.isBreak (row ++ a)) := by
  rw [line?_succ, row?_of_rows hf h ha hstop, Option.map_some, Text.dropEndWhile_append_of_all]
  rcases hstop with rfl | ⟨t, rfl⟩ <;> simp [Text.isBreak]

end SourceFile

/-! ## The snippet of a construct -/

namespace Snippet

/-- The snippet shows the line of the file in which `text` starts behind `before`,
and its carets start there. -/
structure Points (file : SourceFile) (before text : Text) (s : Snippet) : Prop where
  line : file.line? s.number = some s.line
  /-- Full lines stand in front, and then the start of the row. -/
  place : ∃ ls row, Text.Rows before ls row ∧ s.number = ls.length + 1 ∧
    s.startColumn = row.length + 1
  /-- The character at the first caret is the first of the construct. -/
  first : ∃ c, text.head? = some c ∧ s.line[s.startColumn - 1]? = some c
  caret : s.startColumn < s.stopColumn
  /-- The carets stay in the line, but for a carriage return by itself at the end. -/
  inside : s.stopColumn ≤ s.line.length + 1 ↔ ¬ ('\n' ∉ text ∧ text.getLast? = some '\r')

variable {file : SourceFile} {before text rest : Text}

theorem Points.label {s : Snippet} (h : s.Points file before text) (label : Option String) :
    Points file before text { s with label } :=
  ⟨h.line, h.place, h.first, h.caret, h.inside⟩

/-- What is shown of a construct is its first line, and behind it no more than the
carriage return of a line end, which goes. -/
theorem exists_line (hf : file.text = before ++ (text ++ rest)) (hrest : rest = [] ∨ rest.LineEnd)
    {ls : List Text} {row : Text} (h : Text.Rows before ls row) :
    ∃ a stop, text = a ++ stop ∧ '\n' ∉ a ∧ (stop = [] ∨ ∃ t, stop = '\n' :: t) ∧
      file.line? (ls.length + 1) = some (Text.dropEndWhile Text.isBreak (row ++ a)) := by
  obtain ⟨a, stop, rfl, ha, hstop⟩ := Text.exists_row text
  refine ⟨a, stop, rfl, ha, hstop, ?_⟩
  rcases hstop with rfl | ⟨t, rfl⟩
  · obtain ⟨b, stop, rfl, hb, hfeed, hstop⟩ : ∃ b stop, rest = b ++ stop ∧
        (∀ c ∈ b, Text.isBreak c = true) ∧ '\n' ∉ b ∧ (stop = [] ∨ ∃ t, stop = '\n' :: t) := by
      rcases hrest with rfl | ⟨t, rfl⟩ | ⟨t, rfl⟩
      · exact ⟨[], [], rfl, by simp, by simp, .inl rfl⟩
      · exact ⟨[], '\n' :: t, rfl, by simp, by simp, .inr ⟨t, rfl⟩⟩
      · exact ⟨['\r'], '\n' :: t, rfl, by simp [Text.isBreak], by simp, .inr ⟨t, rfl⟩⟩
    rw [List.append_nil, ← List.append_assoc a] at hf
    rw [SourceFile.line?_of_rows hf h (by simp [ha, hfeed]) hstop, ← List.append_assoc,
      Text.dropEndWhile_append_of_all _ hb]
  · rw [List.append_assoc] at hf
    exact SourceFile.line?_of_rows hf h ha (.inr ⟨t ++ rest, rfl⟩)

/-- Behind a text without a line feed one is in the same row, and else on a later line. -/
theorem position_behind (hf : file.text = before ++ (text ++ rest)) {ls : List Text} {row : Text}
    (h : Text.Rows before ls row) :
    ∃ place, file.position (Text.width before + Text.width text) = place ∧
      ('\n' ∉ text → place = (ls.length + 1, row.length + text.length + 1)) ∧
      ('\n' ∈ text → ls.length + 1 < place.1) := by
  rw [← List.append_assoc] at hf
  rw [← Text.width_append]
  refine ⟨_, rfl, ?_, ?_⟩
  · intro hfeed
    rw [SourceFile.position_of_rows hf (h.append hfeed), List.length_append]
  · intro hfeed
    obtain ⟨ls', row', h'⟩ := Text.exists_rows (before ++ text)
    have hcount := h'.count_feed
    have hpos := List.count_pos_iff.2 hfeed
    rw [List.count_append, h.count_feed] at hcount
    rw [SourceFile.position_of_rows hf h']
    dsimp only
    omega

theorem ofSpan_eq {start n : Nat} {place place' : Nat × Nat} {line : Text}
    (hstart : file.position start = place) (hstop : file.position (start + n) = place')
    (hline : file.line? place.1 = some line) :
    ofSpan file (.ofLength start n) =
      { line, number := place.1, startColumn := place.2,
        stopColumn := max (if place'.1 = place.1 then place'.2 else line.length + 1) (place.2 + 1) } := by
  subst hstart hstop
  simp [ofSpan, Span.ofLength, hline]

/-- How far the row reaches without the line end, up to a construct in it. -/
theorem length_dropEndWhile (row : Text) (hne : text ≠ []) (hfeed : '\n' ∉ text) :
    row.length + text.length ≤ (Text.dropEndWhile Text.isBreak (row ++ text)).length ↔
      text.getLast? ≠ some '\r' := by
  rcases List.eq_nil_or_concat text with rfl | ⟨t, c, rfl⟩
  · exact absurd rfl hne
  · have hc : c ≠ '\n' := by
      rintro rfl
      simp at hfeed
    rw [List.concat_eq_append, List.getLast?_concat, ← List.append_assoc]
    by_cases hr : c = '\r'
    · subst hr
      rw [Text.dropEndWhile_append_of_all _ (by simp [Text.isBreak])]
      have hle : (Text.dropEndWhile Text.isBreak (row ++ t)).length ≤ (row ++ t).length :=
        (List.rdropWhile_prefix _ _).length_le
      simp at hle ⊢
      omega
    · have hstays : Text.isBreak c = false := by simp [Text.isBreak, hc, hr]
      have h := Text.prefix_dropEndWhile (row ++ t) [] hstays
      have hle := h.length_le
      simp [hr] at hle ⊢
      omega

/-- The snippet of a construct that does not start with the end of a line, and behind
which a line or the text ends. -/
theorem ofSpan_points (hf : file.text = before ++ (text ++ rest)) {c : Char}
    (hc : text.head? = some c) (hbreak : Text.isBreak c = false)
    (hrest : rest = [] ∨ rest.LineEnd) :
    Points file before text
      (ofSpan file (.ofLength (Text.width before) (Text.width text))) := by
  obtain ⟨ls, row, h⟩ := Text.exists_rows before
  obtain ⟨a, stop, rfl, ha, hstop, hline⟩ := exists_line hf hrest h
  obtain ⟨place, hplace, hsame, hfurther⟩ := position_behind hf h
  rw [ofSpan_eq (SourceFile.position_of_rows hf h) hplace hline]
  -- the line reaches at least over the first character
  have hfirst : row ++ [c] <+: Text.dropEndWhile Text.isBreak (row ++ a) := by
    rcases a with _ | ⟨d, t⟩
    · rcases hstop with rfl | ⟨t, rfl⟩
      · cases hc
      · cases hc
        cases hbreak
    · obtain rfl : d = c := by simpa using hc
      simpa using Text.prefix_dropEndWhile row t hbreak
  have hlength := hfirst.length_le
  rw [List.length_append, List.length_singleton] at hlength
  constructor
  · exact hline
  · exact ⟨ls, row, h, rfl, rfl⟩
  · obtain ⟨u, hu⟩ := hfirst
    refine ⟨c, hc, ?_⟩
    dsimp only
    rw [← hu]
    simp
  · dsimp only
    omega
  · dsimp only
    by_cases hfeed : '\n' ∈ a ++ stop
    · have hne : place.1 ≠ ls.length + 1 := Nat.ne_of_gt (hfurther hfeed)
      simp only [hne, if_false, hfeed, not_true_eq_false, false_and, not_false_eq_true, iff_true]
      omega
    · obtain rfl : stop = [] := by
        refine hstop.resolve_right ?_
        rintro ⟨t, rfl⟩
        simp at hfeed
      rw [List.append_nil] at hfeed hsame hc ⊢
      have hne : a ≠ [] := by
        rintro rfl
        cases hc
      have hreach := length_dropEndWhile row hne hfeed
      rw [hsame hfeed, if_pos rfl, Nat.max_le]
      simp only [hfeed, not_false_eq_true, true_and]
      rw [← ne_eq, ← hreach]
      omega

end Snippet

/-! ## Main result -/

namespace Rules

/-- An unclosed construct starts with its opener, which is no line end. -/
theorem exists_opener {r : Rules} {l : Lexeme} {rest : Text} (h : r.First l rest)
    (hc : l.closed = false) :
    ∃ o, r.opener? (l.text ++ rest) = some o ∧ o.kind = l.kind ∧ o.token <+: l.text ∧
      ∃ c, o.token.head? = some c ∧ l.text.head? = some c ∧ Text.isBreak c = false := by
  cases h with
  | code _ _ => cases hc
  | @construct o inside rest closed ho _ =>
    have hm := (mem_of_opener? ho).1
    obtain ⟨c, t, ht⟩ := List.exists_cons_of_ne_nil (token_ne_nil hm)
    have hwhite := solid_token hm c (by simp [ht])
    refine ⟨o, by rwa [List.append_assoc], rfl, List.prefix_append _ _, c, by simp [ht], by simp [ht], ?_⟩
    rw [Bool.eq_false_iff]
    intro hbreak
    simp only [Text.isBreak, Bool.or_eq_true, beq_iff_eq] at hbreak
    rcases hbreak with rfl | rfl <;> revert hwhite <;> decide

/-- Every warning about a scan has one snippet. It shows the line in which the
construct starts, and its carets start under the first character of the opener. They
end in the shown line, except under a construct that stays in its first line and has
a carriage return by itself at its end. -/
theorem warnings_point {r : Rules} {file : SourceFile} {d : Diagnostic}
    (hd : d ∈ warnings r file (r.fragments file.text)) :
    ∃ f ∈ r.fragments file.text, d.span = f.span ∧ f.isTerminated r = false ∧
      ∃ before rest o s, file.text = before ++ (f.text ++ rest) ∧
        f.span = .ofLength (Text.width before) (Text.width f.text) ∧
        r.opener? (f.text ++ rest) = some o ∧ o.kind = f.kind ∧ o.token <+: f.text ∧
        o.token.head? = f.text.head? ∧ d.snippets = [s] ∧
        (s.number, s.startColumn) = file.position d.span.start ∧ s.Points file before f.text := by
  obtain ⟨f, hf, hwarning⟩ := List.mem_filterMap.1 hd
  obtain ⟨front, back, hs⟩ := List.append_of_mem hf
  obtain ⟨before, rest, closed, htext, hspan, -, -, hfirst⟩ := exists_first hs
  have hopen : f.isTerminated r = false := by
    by_contra h
    rw [Fragment.warning?_of_terminated (by simpa using h)] at hwarning
    cases hwarning
  obtain rfl : closed = false := (terminates_eq hfirst).symm.trans hopen
  obtain ⟨o, ho, hkind, htoken, c, hc, hc', hbreak⟩ := exists_opener hfirst rfl
  have hrest : rest = [] ∨ rest.LineEnd := (rest_of_not_closed hfirst rfl).imp_right (·.2.2)
  have hpoints := Snippet.ofSpan_points htext hc' hbreak hrest
  rw [← hspan] at hpoints
  unfold Fragment.warning? at hwarning
  obtain ⟨-, -, hwarning⟩ := Option.bind_eq_some_iff.1 hwarning
  obtain ⟨⟨message, code, closer⟩, -, hwarning⟩ := Option.bind_eq_some_iff.1 hwarning
  cases hwarning
  exact ⟨f, hf, rfl, hopen, before, rest, o, _, htext, hspan, ho, hkind, htoken, hc.trans hc'.symm,
    rfl, rfl, hpoints.label _⟩

/-- Behind a character of two bytes, with the carets up to the end of the line. -/
theorem warnings_point_accent :
    ∃ (file : SourceFile) (d : Diagnostic) (s : Snippet),
      file.text = ['é', ' ', '"', 'b', '\n', 'c'] ∧
      d ∈ warnings common file (common.fragments file.text) ∧ d.snippets = [s] ∧
      s.line = ['é', ' ', '"', 'b'] ∧ (s.startColumn, s.stopColumn) = (3, 5) ∧
      (s.number, s.startColumn) = file.position d.span.start ∧
      ∃ before text, d.span = .ofLength (Text.width before) (Text.width text) ∧
        s.Points file before text := by
  have hlist : warnings common (.ofText "accent" ['é', ' ', '"', 'b', '\n', 'c'])
      (common.fragments ['é', ' ', '"', 'b', '\n', 'c']) =
        [{ level := .warning, message := "unterminated string literal", span := ⟨3, 5, by decide⟩,
           code := some .unclosedString, notes := ["the literal ends at the line break"],
           helps := ["add the closing `\"`"],
           snippets := [{ line := ['é', ' ', '"', 'b'], number := 1, startColumn := 3, stopColumn := 5,
                          label := some "starts here" }] }] := by
    decide +kernel
  have hmem := List.mem_of_mem_head? (congrArg List.head? hlist)
  obtain ⟨f, -, hspan, -, before, rest, o, s, -, hf, -, -, -, -, hs, hplace, hpoints⟩ := warnings_point hmem
  obtain rfl := (List.cons.inj hs).1
  exact ⟨_, _, _, rfl, hmem, rfl, rfl, rfl, hplace, before, f.text, hspan.trans hf, hpoints⟩

/-- The carets under a literal that ends in a carriage return by itself go on behind
the line that is shown. -/
theorem caret_behind_bare_return :
    ∃ d ∈ warnings common (.ofText "open" ['"', 'a', '\r']) (common.fragments ['"', 'a', '\r']),
      ∃ s ∈ d.snippets, s.line = ['"', 'a'] ∧ s.stopColumn = 4 ∧
        ¬ s.stopColumn ≤ s.line.length + 1 := by
  have hlist : warnings common (.ofText "open" ['"', 'a', '\r'])
      (common.fragments ['"', 'a', '\r']) =
        [{ level := .warning, message := "unterminated string literal", span := ⟨0, 3, by decide⟩,
           code := some .unclosedString, notes := [], helps := ["add the closing `\"`"],
           snippets := [{ line := ['"', 'a'], number := 1, startColumn := 1, stopColumn := 4,
                          label := some "starts here" }] }] := by
    decide +kernel
  rw [hlist]
  exact ⟨_, List.mem_singleton_self _, _, List.mem_singleton_self _, rfl, rfl, by decide⟩

end Rules
end Gloss
