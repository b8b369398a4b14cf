import Gloss.Proofs.Unclosed
/-!
# Escaped text in a literal

Any text can stand in a literal: with an escape in front of every quote, escape
and line feed (`Text.escape`) it is read to its end and closed by the quote behind
it (`endsLiteral_escape`), so what is scanned first is that literal
(`scan_escape`). Other quotes, openers and carriage returns need no escape.
-/

namespace Gloss

/-! ## Escaping -/

/-- The text with the escape `e` in front of each quote `q`, escape and line feed. -/
def Text.escape (e q : Char) (s : Text) : Text :=
  s.flatMap fun c => if c = q ∨ c = e ∨ c = '\n' then [e, c] else [c]

namespace Text
variable {e q c : Char}

@[simp] theorem escape_nil : escape e q [] = [] := rfl

theorem escape_cons_of_marked (h : c = q ∨ c = e ∨ c = '\n') (s : Text) :
    escape e q (c :: s) = e :: c :: escape e q s := by
  unfold escape
  rw [List.flatMap_cons, if_pos h]
  rfl

theorem escape_cons_of_plain (h : ¬ (c = q ∨ c = e ∨ c = '\n')) (s : Text) :
    escape e q (c :: s) = c :: escape e q s := by
  unfold escape
  rw [List.flatMap_cons, if_neg h]
  rfl

/-- No line feed comes first, so a carriage return in front is no line end. -/
theorem head?_escape_append (he : e ≠ '\n') (hq : q ≠ '\n') (s rest : Text) :
    (escape e q s ++ q :: rest).head? ≠ some '\n' := by
  rcases s with _ | ⟨c, s⟩
  · simpa using hq
  · by_cases h : c = q ∨ c = e ∨ c = '\n'
    · rw [escape_cons_of_marked h]
      simpa using he
    · rw [escape_cons_of_plain h]
      rw [not_or, not_or] at h
      simpa using h.2.2

end Text

/-- Escaped text is read as far as the quote behind it, which closes the literal. -/
theorem endsLiteral_escape {escape : Option Char} {e q : Char} (he : escape = some e)
    (hwe : Text.isWhite e = false) (hwq : Text.isWhite q = false) (multiline : Bool) (s rest : Text) :
    EndsLiteral escape multiline q (Text.escape e q s ++ [q]) true rest := by
  have hwhite : ∀ c, Text.isWhite c = true → e ≠ c ∧ q ≠ c := by
    intro c hc
    refine ⟨?_, ?_⟩ <;> rintro rfl
    · rw [hwe] at hc; cases hc
    · rw [hwq] at hc; cases hc
  obtain ⟨hef, hqf⟩ := hwhite '\n' (by decide)
  obtain ⟨her, hqr⟩ := hwhite '\r' (by decide)
  induction s with
  | nil => exact .closed
  | cons c s ih =>
    by_cases h : c = q ∨ c = e ∨ c = '\n'
    · rw [Text.escape_cons_of_marked h]
      refine .escaped he ?_ ih
      -- what is escaped is no carriage return
      rintro ⟨rfl, -⟩
      rcases h with h | h | h
      · exact hqr h.symm
      · exact her h.symm
      · cases h
    · rw [Text.escape_cons_of_plain h]
      rw [not_or, not_or] at h
      obtain ⟨hq, hec, hf⟩ := h
      have hhead : (Text.escape e q s ++ [q] ++ rest).head? ≠ some '\n' := by
        rw [List.append_assoc]
        exact Text.head?_escape_append hef hqf s rest
      refine .plain ?_ hq (.inr ?_) ih
      · rintro hc
        rw [he] at hc
        exact hec (Option.some.inj hc).symm
      · intro hline
        rcases Text.lineEnd_cons.1 hline with hc | ⟨-, hh⟩
        · exact hf hc
        · exact hhead hh

namespace Rules
variable {r : Rules} {q : Char} {k : Kind}

/-! ## A quote of the rules -/

/-- The quote opens literals of the kind. -/
def IsQuote (r : Rules) (k : Kind) (q : Char) : Prop :=
  k = .stringLiteral ∧ r.stringQuote = some q ∨ k = .charLiteral ∧ r.charQuote = some q

theorem IsQuote.mem_openers (h : r.IsQuote k q) : ⟨k, [q]⟩ ∈ r.openers := by
  rw [Delimiters.mem_openers]
  unfold Delimiters.starts
  rcases h with ⟨rfl, h⟩ | ⟨rfl, h⟩ <;> simp [h]

theorem IsQuote.isLiteral (h : r.IsQuote k q) : k.isLiteral = true := by
  rcases h with ⟨rfl, -⟩ | ⟨rfl, -⟩ <;> rfl

/-- A quote that no other start token starts with opens its literal wherever it
stands in code. -/
theorem opener?_quote (hq : r.IsQuote k q)
    (halone : ∀ o ∈ r.openers, o.kind ≠ k → ¬ [q] <+: o.token) (s : Text) :
    r.opener? (q :: s) = some ⟨k, [q]⟩ := by
  rw [opener?_eq_some_iff]
  refine ⟨hq.mem_openers, ⟨s, rfl⟩, ?_⟩
  intro p hp hprefix
  obtain ⟨c, t, ht⟩ := List.exists_cons_of_ne_nil (token_ne_nil hp)
  rw [ht, List.cons_prefix_cons] at hprefix
  have hstart : [q] <+: p.token := by
    rw [ht, hprefix.1]
    exact ⟨t, rfl⟩
  have hkind : p.kind = k := Decidable.byContradiction fun hne => halone p hp hne hstart
  obtain ⟨q', hq', -⟩ := quote_of_literal hp (hkind ▸ hq.isLiteral)
  rw [hq']
  exact Nat.le_refl _

/-- The first lexeme of a text as its first fragment. -/
theorem First.head?_fragments {l : Lexeme} {rest : Text} (h : r.First l rest) :
    (r.fragments (l.text ++ rest)).head? =
      some ⟨l.kind, .ofLength 0 (Text.width l.text), l.text, rest.head?⟩ := by
  unfold fragments
  rw [h.lexemes_append, layOut, head?_lexemes]
  rfl

/-! ## Main result -/

/-- Whatever text is escaped between two quotes, and whatever follows, the first
span is the literal from quote to quote, and it is closed. Rules with literals that
may run past their line do the same as those without. -/
theorem scan_escape (r : Rules) {e q : Char} {k : Kind} (he : r.escape = some e)
    (hq : r.IsQuote k q) (halone : ∀ o ∈ r.openers, o.kind ≠ k → ¬ [q] <+: o.token)
    (s rest : Text) :
    ∃ f : Fragment, (r.scan (q :: (Text.escape e q s ++ q :: rest))).head? = some f.region ∧
      Fragment.ofRegion? (q :: (Text.escape e q s ++ q :: rest)) f.region = some f ∧
      f.kind = k ∧ f.text = q :: (Text.escape e q s ++ [q]) ∧
      f.span = .ofLength 0 (Text.width (q :: (Text.escape e q s ++ [q]))) ∧
      f.isTerminated r = true := by
  have hk := hq.isLiteral
  obtain ⟨q', hq', hwq, -⟩ := quote_of_literal hq.mem_openers hk
  obtain rfl : q = q' := by simpa using hq'
  have hends : r.Ends ⟨k, [q]⟩ (Text.escape e q s ++ [q]) true rest := by
    rw [ends_iff_of_literal hk]
    exact endsLiteral_escape he (r.valid.escape e he) hwq r.multiline s rest
  have hfirst : r.First ⟨k, [q] ++ (Text.escape e q s ++ [q]), true⟩ rest :=
    .construct (opener?_quote hq halone _) hends
  have hsource : q :: (Text.escape e q s ++ q :: rest) =
      q :: (Text.escape e q s ++ [q]) ++ rest := by simp
  have hhead := hfirst.head?_fragments
  dsimp only [List.singleton_append] at hhead
  rw [← hsource] at hhead
  refine ⟨_, ?_, ofRegion?_of_mem (List.mem_of_head? hhead), rfl, rfl, rfl, terminates_eq hfirst⟩
  rw [scan, List.head?_map, hhead]
  rfl

/-- A quote, an escape, a line end and an opener, with an open literal behind. -/
theorem scan_escape_common :
    common.escape = some '\\' ∧ common.IsQuote .stringLiteral '"' ∧
      (∀ o ∈ common.openers, o.kind ≠ .stringLiteral → ¬ ['"'] <+: o.token) ∧
      Text.escape '\\' '"' ['"', '\\', '\r', '\n', '/', '*'] =
        ['\\', '"', '\\', '\\', '\r', '\\', '\n', '/', '*'] ∧
      ∃ f : Fragment, (common.scan ('"' :: (Text.escape '\\' '"' ['"', '\\', '\r', '\n', '/', '*'] ++
          '"' :: ['"', 'x']))).head? = some f.region ∧
        Fragment.ofRegion? ('"' :: (Text.escape '\\' '"' ['"', '\\', '\r', '\n', '/', '*'] ++
          '"' :: ['"', 'x'])) f.region = some f ∧
        f.kind = .stringLiteral ∧
        f.text = '"' :: (Text.escape '\\' '"' ['"', '\\', '\r', '\n', '/', '*'] ++ ['"']) ∧
        f.span = .ofLength 0 (Text.width
          ('"' :: (Text.escape '\\' '"' ['"', '\\', '\r', '\n', '/', '*'] ++ ['"']))) ∧
        f.isTerminated common = true := by
  have hquote : common.IsQuote .stringLiteral '"' := .inl ⟨rfl, rfl⟩
  have halone : ∀ o ∈ common.openers, o.kind ≠ .stringLiteral → ¬ ['"'] <+: o.token := by decide
  exact ⟨rfl, hquote, halone, by decide, scan_escape common rfl hquote halone _ _⟩

end Rules
end Gloss
