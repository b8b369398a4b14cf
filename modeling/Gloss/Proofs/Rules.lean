import Gloss.Rules.Basic
/-!
# What rules promise

`Delimiters.Valid` says in plain words what delimiters have to be.
`fault?_eq_none_iff`: they are rules exactly if they are that, so whoever scans
may rely on it. `opener?_eq_some_iff`: of the openers at the front of a text the
longest is found, and there is only one of that length.
-/

namespace Gloss

/-- No character of the text is white space. -/
def Text.Solid (s : Text) : Prop := ∀ c ∈ s, isWhite c = false

theorem Kind.not_comment_of_literal {k : Kind} (h : k.isLiteral = true) : k.isComment = false := by
  cases k <;> simp_all [Kind.isLiteral, Kind.isComment]

theorem Kind.not_literal_of_comment {k : Kind} (h : k.isComment = true) : k.isLiteral = false := by
  cases k <;> simp_all [Kind.isLiteral, Kind.isComment]

namespace Delimiters

/-- Nothing is wrong with the delimiters. -/
structure Valid (d : Delimiters) : Prop where
  line : ∀ t, d.lineComment = some t → t ≠ [] ∧ t.Solid
  blockStart : ∀ a z, d.blockComment = some (a, z) → a ≠ [] ∧ a.Solid
  blockEnd : ∀ a z, d.blockComment = some (a, z) → z ≠ [] ∧ z.Solid
  stringQuote : ∀ q, d.stringQuote = some q → Text.isWhite q = false
  charQuote : ∀ q, d.charQuote = some q → Text.isWhite q = false
  escape : ∀ e, d.escape = some e → Text.isWhite e = false
  escape_ne : ∀ e, d.escape = some e → d.stringQuote ≠ some e ∧ d.charQuote ≠ some e
  opens : d.starts ≠ []
  distinct : (d.starts.map (·.token)).Nodup

/-! ## The check finds nothing exactly in valid delimiters -/

theorem tokenFault?_eq_none_iff {which : Role} {t : Text} :
    tokenFault? which t = none ↔ t ≠ [] ∧ t.Solid := by
  unfold tokenFault? Text.Solid
  by_cases h : t = []
  · simp [h]
  · simp [h]

theorem charFault?_eq_none_iff {which : Role} {c : Char} :
    charFault? which c = none ↔ Text.isWhite c = false := by
  simp [charFault?]

theorem conflict?_eq_none_iff {os : List Opener} :
    conflict? os = none ↔ (os.map (·.token)).Nodup := by
  induction os with
  | nil => simp [conflict?]
  | cons o os ih =>
    rw [conflict?, List.map_cons, List.nodup_cons, ← ih]
    cases h : os.find? (·.token = o.token) with
    | some p =>
      have hp : p ∈ os ∧ p.token = o.token :=
        ⟨List.mem_of_find?_eq_some h, by simpa using List.find?_some h⟩
      simp only [reduceCtorEq, false_iff, not_and]
      intro hn
      exact absurd (List.mem_map.2 ⟨p, hp⟩) hn
    | none =>
      simp only [List.find?_eq_none, decide_eq_true_eq] at h
      have hn : o.token ∉ os.map (·.token) := by
        intro hm
        obtain ⟨p, hp, he⟩ := List.mem_map.1 hm
        exact h p hp he
      exact (and_iff_right hn).symm

theorem fault?_eq_none_iff {d : Delimiters} : d.fault? = none ↔ d.Valid := by
  have hperm : (d.openers.map (·.token)).Nodup ↔ (d.starts.map (·.token)).Nodup :=
    (d.openers_perm.map _).nodup_iff
  simp only [fault?, Option.orElse_eq_orElse, Option.orElse_eq_or, Option.or_eq_none_iff,
    Option.bind_eq_none_iff, Prod.forall, tokenFault?_eq_none_iff, charFault?_eq_none_iff,
    conflict?_eq_none_iff, hperm, ite_eq_right_iff, reduceCtorEq, imp_false, not_or]
  constructor
  · rintro ⟨h1, h2, h3, h4, h5, h6, h7, h8, h9⟩
    exact ⟨h1, h2, h3, h4, h5, h6, h7, h8, h9⟩
  · intro h
    exact ⟨h.line, h.blockStart, h.blockEnd, h.stringQuote, h.charQuote, h.escape, h.escape_ne,
      h.opens, h.distinct⟩

theorem toDelimiters_of_check {d : Delimiters} {r : Rules} (h : d.check = .ok r) :
    r.toDelimiters = d := by
  unfold check at h
  split at h
  · rw [← Except.ok.inj h]
  · cases h

theorem blockEnd_eq {d : Delimiters} {a z : Text} (h : d.blockComment = some (a, z)) :
    d.blockEnd = z := by
  unfold blockEnd
  rw [h]
  rfl

end Delimiters

/-! ## The openers of rules -/

namespace Rules

theorem valid (r : Rules) : r.Valid := Delimiters.fault?_eq_none_iff.1 r.sound

/-- What the openers are, one case for each construct. -/
theorem opener_cases {r : Rules} {o : Opener} (h : o ∈ r.openers) :
    (o.kind = .blockComment ∧ ∃ z, r.blockComment = some (o.token, z)) ∨
    (o.kind = .lineComment ∧ r.lineComment = some o.token) ∨
    (o.kind = .stringLiteral ∧ ∃ q, r.stringQuote = some q ∧ o.token = [q]) ∨
    (o.kind = .charLiteral ∧ ∃ q, r.charQuote = some q ∧ o.token = [q]) := by
  have hm := Delimiters.mem_openers.1 h
  simp only [Delimiters.starts, List.mem_append, Option.mem_toList, Option.map_eq_some_iff] at hm
  rcases hm with ((⟨⟨a, z⟩, hp, rfl⟩ | ⟨t, ht, rfl⟩) | ⟨q, hq, rfl⟩) | ⟨q, hq, rfl⟩
  · exact .inl ⟨rfl, z, hp⟩
  · exact .inr (.inl ⟨rfl, ht⟩)
  · exact .inr (.inr (.inl ⟨rfl, q, hq, rfl⟩))
  · exact .inr (.inr (.inr ⟨rfl, q, hq, rfl⟩))

theorem solid_token {r : Rules} {o : Opener} (h : o ∈ r.openers) : o.token.Solid := by
  rcases opener_cases h with ⟨-, z, hz⟩ | ⟨-, hl⟩ | ⟨-, q, hq, ht⟩ | ⟨-, q, hq, ht⟩
  · exact (r.valid.blockStart _ z hz).2
  · exact (r.valid.line _ hl).2
  · intro c hc
    rw [ht, List.mem_singleton] at hc
    exact hc ▸ r.valid.stringQuote q hq
  · intro c hc
    rw [ht, List.mem_singleton] at hc
    exact hc ▸ r.valid.charQuote q hq

theorem kind_ne_code {r : Rules} {o : Opener} (h : o ∈ r.openers) : o.kind ≠ .code := by
  rcases opener_cases h with ⟨hk, -⟩ | ⟨hk, -⟩ | ⟨hk, -⟩ | ⟨hk, -⟩ <;> simp [hk]

/-- What an opener opens is a comment or a literal. -/
theorem comment_or_literal {r : Rules} {o : Opener} (h : o ∈ r.openers) :
    o.kind.isComment = true ∨ o.kind.isLiteral = true := by
  rcases opener_cases h with ⟨hk, -⟩ | ⟨hk, -⟩ | ⟨hk, -⟩ | ⟨hk, -⟩ <;>
    simp [hk, Kind.isComment, Kind.isLiteral]

/-- The token that ends a block comment is there and holds no white space. -/
theorem blockEnd_solid {r : Rules} {o : Opener} (h : o ∈ r.openers) (hk : o.kind = .blockComment) :
    r.blockEnd ≠ [] ∧ r.blockEnd.Solid := by
  rcases opener_cases h with ⟨-, z, hz⟩ | ⟨hk', -⟩ | ⟨hk', -⟩ | ⟨hk', -⟩
  · rw [Delimiters.blockEnd_eq hz]
    exact r.valid.blockEnd _ _ hz
  all_goals simp [hk] at hk'

/-- A literal is opened by one quote, which is neither white space nor the escape. -/
theorem quote_of_literal {r : Rules} {o : Opener} (h : o ∈ r.openers)
    (hk : o.kind.isLiteral = true) :
    ∃ q, o.token = [q] ∧ Text.isWhite q = false ∧ r.escape ≠ some q := by
  rcases opener_cases h with ⟨hk', -⟩ | ⟨hk', -⟩ | ⟨-, q, hq, ht⟩ | ⟨-, q, hq, ht⟩
  · simp [hk', Kind.isLiteral] at hk
  · simp [hk', Kind.isLiteral] at hk
  · exact ⟨q, ht, r.valid.stringQuote q hq, fun he => (r.valid.escape_ne q he).1 hq⟩
  · exact ⟨q, ht, r.valid.charQuote q hq, fun he => (r.valid.escape_ne q he).2 hq⟩

theorem eq_of_token_eq {r : Rules} {o p : Opener} (ho : o ∈ r.openers) (hp : p ∈ r.openers)
    (h : o.token = p.token) : o = p := by
  have hn : (r.openers.map (·.token)).Nodup := (r.openers_perm.map _).nodup_iff.2 r.valid.distinct
  generalize r.openers = os at *
  induction os with
  | nil => cases ho
  | cons a os ih =>
    rw [List.map_cons, List.nodup_cons] at hn
    rcases List.mem_cons.1 ho with ho | ho <;> rcases List.mem_cons.1 hp with hp | hp
    · rw [ho, hp]
    · exact absurd (List.mem_map.2 ⟨p, hp, by rw [← h, ho]⟩) hn.1
    · exact absurd (List.mem_map.2 ⟨o, ho, by rw [h, hp]⟩) hn.1
    · exact ih ho hp hn.2

/-! ## The longest opener -/

/-- Openers from the longest to the shortest. -/
def Descending (os : List Opener) : Prop := os.Pairwise fun o p => p.token.length ≤ o.token.length

theorem descending_insert {o : Opener} {ps : List Opener} (h : Descending ps) :
    Descending (o.insert ps) := by
  induction ps with
  | nil => simp [Opener.insert, Descending]
  | cons p ps ih =>
    rw [Opener.insert]
    split
    · rename_i hle
      refine List.pairwise_cons.2 ⟨?_, h⟩
      intro q hq
      rcases List.mem_cons.1 hq with rfl | hq
      · exact hle
      · exact Nat.le_trans ((List.pairwise_cons.1 h).1 q hq) hle
    · rename_i hlt
      refine List.pairwise_cons.2 ⟨?_, ih (List.pairwise_cons.1 h).2⟩
      intro q hq
      rcases List.mem_cons.1 ((o.insert_perm ps).mem_iff.1 hq) with rfl | hq
      · omega
      · exact (List.pairwise_cons.1 h).1 q hq

theorem descending_openers (d : Delimiters) : Descending d.openers := by
  unfold Delimiters.openers
  induction d.starts with
  | nil => exact .nil
  | cons o os ih => exact descending_insert ih

/-- No opener that stands at the front of the text is longer. -/
def Longest (r : Rules) (s : Text) (o : Opener) : Prop :=
  o ∈ r.openers ∧ o.token <+: s ∧
    ∀ p ∈ r.openers, p.token <+: s → p.token.length ≤ o.token.length

theorem Longest.unique {r : Rules} {s : Text} {o p : Opener} (ho : r.Longest s o)
    (hp : r.Longest s p) : o = p := by
  have hlen : o.token.length = p.token.length :=
    Nat.le_antisymm (hp.2.2 o ho.1 ho.2.1) (ho.2.2 p hp.1 hp.2.1)
  have hpre := List.prefix_of_prefix_length_le ho.2.1 hp.2.1 (Nat.le_of_eq hlen)
  exact eq_of_token_eq ho.1 hp.1 (hpre.eq_of_length hlen)

/-- Among openers in falling order the first that stands at the front of the text is
one of the longest there. -/
theorem le_of_find? {os : List Opener} {s : Text} {o : Opener} (hd : Descending os)
    (h : os.find? (fun o => o.token.isPrefixOf s) = some o) :
    ∀ p ∈ os, p.token <+: s → p.token.length ≤ o.token.length := by
  intro p hp hps
  obtain ⟨-, before, after, rfl, hb⟩ := List.find?_eq_some_iff_append.1 h
  rcases List.mem_append.1 hp with hp | hp
  · have hno := hb p hp
    simp [List.isPrefixOf_iff_prefix.2 hps] at hno
  · rcases List.mem_cons.1 hp with rfl | hp
    · exact Nat.le_refl _
    · exact (List.pairwise_cons.1 (List.pairwise_append.1 hd).2.1).1 p hp

theorem longest_of_opener? {r : Rules} {s : Text} {o : Opener} (h : r.opener? s = some o) :
    r.Longest s o :=
  ⟨(mem_of_opener? h).1, (mem_of_opener? h).2, le_of_find? (descending_openers r.toDelimiters) h⟩

theorem opener?_eq_none_iff {r : Rules} {s : Text} :
    r.opener? s = none ↔ ∀ o ∈ r.openers, ¬ o.token <+: s := by
  simp [Delimiters.opener?, List.find?_eq_none]

theorem opener?_eq_some_iff {r : Rules} {s : Text} {o : Opener} :
    r.opener? s = some o ↔ r.Longest s o := by
  refine ⟨longest_of_opener?, ?_⟩
  intro h
  cases hs : r.opener? s with
  | none => exact absurd h.2.1 (opener?_eq_none_iff.1 hs o h.1)
  | some p => rw [(longest_of_opener? hs).unique h]

/-- Nothing opens at the end of a text or in front of white space. -/
theorem opener?_white {r : Rules} {c : Char} {s : Text} (h : Text.isWhite c = true) :
    r.opener? (c :: s) = none := by
  rw [opener?_eq_none_iff]
  intro o ho hp
  obtain ⟨d, t, ht⟩ := List.exists_cons_of_ne_nil (token_ne_nil ho)
  rw [ht, List.cons_prefix_cons] at hp
  have hd := solid_token ho d (by simp [ht])
  rw [hp.1, h] at hd
  cases hd

@[simp] theorem opener?_nil {r : Rules} : r.opener? [] = none := by
  rw [opener?_eq_none_iff]
  intro o ho hp
  exact token_ne_nil ho (List.prefix_nil.1 hp)

end Rules
end Gloss
