import Gloss.Comment
import Gloss.Proofs.Position
import Gloss.Proofs.Unclosed
/-!
# The comments of a text

`Comment.Delimited` says how the text of a comment is made of its tokens and its
body, and where its end token may stand. The listing goes through the spans of a
text once and counts lines as it goes; `exists_place_of_mem` carries what it has
counted along, so a comment stands on the line the table of its file says.
`comments_scan` is what a listing of a scan comes to.
-/

namespace Gloss

/-! ## Tokens taken off a text -/

namespace Text

theorem dropPrefix?_append (t s : Text) : dropPrefix? t (t ++ s) = some s := by
  unfold dropPrefix?
  rw [if_pos (List.isPrefixOf_iff_prefix.2 (List.prefix_append t s)), List.drop_left]

theorem dropSuffix?_append (t s : Text) : dropSuffix? t (s ++ t) = some s := by
  unfold dropSuffix?
  rw [if_pos (List.isSuffixOf_iff_suffix.2 (List.suffix_append s t)), List.length_append,
    Nat.add_sub_cancel, List.take_left]

end Text

namespace Comment
variable {r : Rules} {c : Comment} {start stop body : Text}

def region (c : Comment) : Region := ⟨c.kind, c.span⟩

/-- The text of a comment is its body between the tokens of its kind. -/
inductive Delimited (r : Rules) (c : Comment) : Prop
  /-- The body of a line comment stays on its line. -/
  | line (token : Text) : c.kind = .lineComment → c.terminated = true →
      r.lineComment = some token → c.text = token ++ c.body r → '\n' ∉ c.body r → Delimited r c
  /-- The end token of a closed block comment occurs behind its body only. -/
  | closed (start stop : Text) : c.kind = .blockComment → c.terminated = true →
      r.blockComment = some (start, stop) → c.text = start ++ (c.body r ++ stop) →
      (∀ a b, c.body r ++ stop = a ++ (stop ++ b) → a = c.body r) → Delimited r c
  /-- An open block comment has none. -/
  | unclosed (start stop : Text) : c.kind = .blockComment → c.terminated = false →
      r.blockComment = some (start, stop) → c.text = start ++ c.body r → ¬ stop <:+: c.body r →
      Delimited r c

/-! ## Bodies -/

theorem body_of_line (hk : c.kind = .lineComment) (hr : r.lineComment = some start)
    (ht : c.text = start ++ body) : c.body r = body := by
  unfold Comment.body
  rw [hk, hr, ht]
  dsimp only [Option.bind_some]
  rw [Text.dropPrefix?_append, Option.getD_some]

theorem body_of_closed (hk : c.kind = .blockComment) (hc : c.terminated = true)
    (hr : r.blockComment = some (start, stop)) (ht : c.text = start ++ (body ++ stop)) :
    c.body r = body := by
  unfold Comment.body
  rw [hk, hr, ht, hc]
  dsimp only
  rw [if_pos rfl, Text.dropPrefix?_append, Option.getD_some, Text.dropSuffix?_append,
    Option.getD_some]

theorem body_of_unclosed (hk : c.kind = .blockComment) (hc : c.terminated = false)
    (hr : r.blockComment = some (start, stop)) (ht : c.text = start ++ body) :
    c.body r = body := by
  unfold Comment.body
  rw [hk, hr, ht, hc]
  dsimp only
  rw [if_neg (by simp), Text.dropPrefix?_append, Option.getD_some]

end Comment

/-- A line comment holds no line feed. -/
theorem EndsLine.feed_not_mem {inside rest : Text} (h : EndsLine inside rest) : '\n' ∉ inside := by
  intro hmem
  obtain ⟨a, b, rfl⟩ := List.append_of_mem hmem
  exact h.quiet a ('\n' :: b) rfl (by simp) (.inl ⟨b ++ rest, rfl⟩)

namespace Rules
variable {r : Rules} {c : Comment} {before s rest : Text}

/-- A comment that was read as a lexeme is its body between its tokens. -/
theorem delimited_of_first (h : r.First ⟨c.kind, c.text, c.terminated⟩ rest)
    (hk : c.kind.isComment = true) : c.Delimited r := by
  generalize hl : (⟨c.kind, c.text, c.terminated⟩ : Lexeme) = l at h
  cases h with
  | code _ _ =>
    rw [(Lexeme.mk.inj hl).1] at hk
    cases hk
  | @construct o inside _ closed ho he =>
    obtain ⟨hkind, htext, hclosed⟩ := Lexeme.mk.inj hl
    rcases opener_cases (mem_of_opener? ho).1 with ⟨hb, stop, hr⟩ | ⟨hline, hr⟩ | ⟨hs, -⟩ | ⟨hs, -⟩
    · simp only [Ends, hb, Delimiters.blockEnd_eq hr] at he
      rw [hb] at hkind
      cases he with
      | @closed body _ hfirst =>
        have hbody := Comment.body_of_closed hkind hclosed hr htext
        refine .closed _ stop hkind hclosed hr (by rw [hbody, htext]) ?_
        rw [hbody]
        intro a b hab
        -- no occurrence comes before the body ends, and none has room behind it
        have hle := hfirst a (b ++ rest) (by rw [hab]; simp)
        have hlength := congrArg List.length hab
        simp only [List.length_append] at hlength
        exact (List.append_inj_left' hab (by rw [List.length_append]; omega)).symm
      | unclosed hno =>
        have hbody := Comment.body_of_unclosed hkind hclosed hr htext
        exact .unclosed _ stop hkind hclosed hr (by rw [hbody, htext]) (by rwa [hbody])
    · simp only [Ends, hline] at he
      rw [hline] at hkind
      have hbody := Comment.body_of_line hkind hr htext
      exact .line _ hkind (hclosed.trans he.2) hr (by rw [hbody, htext])
        (by rw [hbody]; exact he.1.feed_not_mem)
    · rw [hkind, hs] at hk
      cases hk
    · rw [hkind, hs] at hk
      cases hk

/-! ## The listing -/

/-- The listing keeps the spans of comments, in order. -/
theorem map_region_commentsFrom (line : Nat) (fs : List Fragment) :
    (commentsFrom r line fs).map Comment.region =
      (fs.map (·.region)).filter (·.kind.isComment) := by
  induction fs generalizing line with
  | nil => rfl
  | cons f fs ih =>
    unfold commentsFrom
    dsimp only
    split
    · rename_i hk
      rw [List.map_cons, ih, List.map_cons, List.filter_cons_of_pos (p := fun g : Region => g.kind.isComment) hk]
      rfl
    · rename_i hk
      rw [ih, List.map_cons, List.filter_cons_of_neg (p := fun g : Region => g.kind.isComment) hk]

/-- Listing goes on with the line that the text so far leads to, so a comment has
the line that the text in front of it leads to. -/
theorem exists_place_of_mem : ∀ before : Text,
    c ∈ commentsFrom r (1 + before.count '\n') (layOut (Text.width before) (r.lexemes s)) →
      ∃ front rest, before ++ s = front ++ (c.text ++ rest) ∧
        c.span = .ofLength (Text.width front) (Text.width c.text) ∧
        c.line = 1 + front.count '\n' ∧ c.kind.isComment = true ∧
        r.First ⟨c.kind, c.text, c.terminated⟩ rest := by
  induction s using byLexemes r with
  | nil =>
    intro before h
    rw [lexemes_nil] at h
    cases h
  | cons l rest hfirst ih =>
    intro before h
    rw [hfirst.lexemes_append, layOut, commentsFrom, Nat.add_assoc, ← List.count_append,
      ← Text.width_append] at h
    have hrest := ih (before ++ l.text)
    rw [List.append_assoc] at hrest
    dsimp only at h
    split at h
    · rename_i hk
      rcases List.mem_cons.1 h with rfl | h
      · refine ⟨before, rest, rfl, rfl, rfl, hk, ?_⟩
        have hclosed : Fragment.isTerminated ⟨l.kind, .ofLength (Text.width before) (Text.width l.text),
            l.text, (r.lexemes rest).head?.bind (·.text.head?)⟩ r = l.closed := terminates_eq hfirst
        rw [hclosed]
        exact hfirst
      · exact hrest h
    · exact hrest h

/-- The comments listed from a scan are its comment spans in order. Each has the
text under its span, the line that its file gives for where it starts, and its
body between the tokens of its kind. -/
theorem comments_scan (r : Rules) (file : SourceFile) :
    fragmentsAt? file.text (r.scan file.text) = some (r.fragments file.text) ∧
    (Gloss.comments r (r.fragments file.text)).map Comment.region =
      (r.scan file.text).filter (·.kind.isComment) ∧
    ∀ c ∈ Gloss.comments r (r.fragments file.text),
      c.span.text? file.text = some c.text ∧
      c.terminated = r.terminates c.kind c.text ∧
      c.line = (file.position c.span.start).1 ∧
      c.Delimited r := by
  refine ⟨fragmentsAt?_scan r file.text, map_region_commentsFrom 1 _, ?_⟩
  intro c hc
  obtain ⟨front, rest, hf, hspan, hline, hk, hfirst⟩ := exists_place_of_mem [] hc
  rw [List.nil_append] at hf
  refine ⟨?_, (terminates_eq hfirst).symm, ?_, delimited_of_first hfirst hk⟩
  · unfold Span.text?
    rw [hspan, hf]
    exact Text.slice?_append _ _ _
  · have hle : Text.width front ≤ Text.width file.text := by
      rw [hf, Text.width_append]
      omega
    rw [hline, hspan, Nat.add_comm]
    exact (SourceFile.fst_position hf (Text.cutAt_width _ _) hle).symm

/-- Start and end token share a character, which the comment does not read twice. -/
theorem comments_scan_shared :
    ∃ (file : SourceFile) (c : Comment), file.text = ['é', '\n', '/', '*', '/', '*', '/', 'x'] ∧
      c ∈ Gloss.comments common (common.fragments file.text) ∧ c.line = 2 ∧
      c.body common = ['/'] ∧ c.span.text? file.text = some c.text ∧
      c.line = (file.position c.span.start).1 ∧ c.Delimited common := by
  have hlist : Gloss.comments common
      (common.fragments ['é', '\n', '/', '*', '/', '*', '/', 'x']) =
        [⟨.blockComment, ⟨3, 8, by decide⟩, 2, ['/', '*', '/', '*', '/'], true⟩] := by
    decide +kernel
  obtain ⟨-, -, hall⟩ := comments_scan common
    (.ofText "shared" ['é', '\n', '/', '*', '/', '*', '/', 'x'])
  obtain ⟨htext, -, hline, hdelimited⟩ := hall _ (by
    show _ ∈ Gloss.comments common (common.fragments ['é', '\n', '/', '*', '/', '*', '/', 'x'])
    rw [hlist]
    exact List.mem_singleton_self _)
  exact ⟨_, _, rfl, hlist ▸ List.mem_singleton_self _, rfl, by decide, htext, hline, hdelimited⟩

end Rules
end Gloss
