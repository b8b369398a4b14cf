import Gloss.Language
import Gloss.Proofs.Fragment
import Gloss.Proofs.LogicalRows
import Gloss.Proofs.Rescan
/-!
# Joining what is not a comment

The code text of a text brings the two sides of a comment together, so an opener may
form there. Under rules where none can (`Rules.Seamless`) the code text is scanned as
the text was: every character comes back with its kind, and so does every literal
(`Seamless.joins`).

The common rules are seamless: of their openers only those of comments have two
characters, and they start with a slash, in front of which a slash would have opened a
comment itself. Rules without block comments are seamless too: a line comment is over
at the end of its line, and no opener has white space in it. `scan_codeText` is what
comes of both.
-/

namespace Gloss

open Glyph (plain)

namespace Rules

variable {r : Rules} {s rest inside : Text} {o : Opener} {c : Char} {closed : Bool}

/-- The literals of a text in order. -/
def literals (r : Rules) (s : Text) : List (Kind × Text) :=
  ((r.fragments s).filter (·.kind.isLiteral)).map fun f => (f.kind, f.text)

/-- The code text of a text. -/
def joined (r : Rules) (s : Text) : Text := codeText (r.fragments s)

/-! ## The code text and the literals from the front -/

theorem joined_eq (s : Text) : r.joined s = Text.ofGlyphs (plain (r.glyphs s)) := by
  unfold joined codeText glyphs
  induction r.fragments s with
  | nil => rfl
  | cons f fs ih =>
    rw [List.flatMap_cons, Glyph.plain_append, Text.ofGlyphs_append, ← ih]
    cases hk : f.kind.isComment with
    | true => simp [hk, Fragment.glyphs, Glyph.plain_comment]
    | false => simp [hk, Fragment.glyphs, Glyph.plain_glyphs]

@[simp] theorem joined_nil : r.joined [] = [] := by
  rw [joined_eq, glyphs_nil]
  rfl

theorem joined_code (h : r.opener? (c :: s) = none) : r.joined (c :: s) = c :: r.joined s := by
  rw [joined_eq, joined_eq, glyphs_code h]
  rfl

theorem joined_comment (ho : r.opener? (o.token ++ (inside ++ rest)) = some o)
    (he : r.Ends o inside closed rest) (hk : o.kind.isComment = true) :
    r.joined (o.token ++ (inside ++ rest)) = r.joined rest := by
  rw [joined_eq, joined_eq, glyphs_construct ho he, Glyph.plain_append, Glyph.plain_comment hk,
    List.nil_append]

theorem joined_literal (ho : r.opener? (o.token ++ (inside ++ rest)) = some o)
    (he : r.Ends o inside closed rest) (hk : o.kind.isLiteral = true) :
    r.joined (o.token ++ (inside ++ rest)) = o.token ++ (inside ++ r.joined rest) := by
  rw [joined_eq, joined_eq, glyphs_construct ho he, Glyph.plain_append,
    Glyph.plain_glyphs (Kind.not_comment_of_literal hk), Text.ofGlyphs_append, Text.ofGlyphs_glyphs,
    List.append_assoc]

theorem literals_eq (s : Text) : r.literals s =
    ((r.lexemes s).filter (·.kind.isLiteral)).map fun l => (l.kind, l.text) := by
  unfold literals fragments
  generalize 0 = offset
  induction r.lexemes s generalizing offset with
  | nil => rfl
  | cons l ls ih =>
    rw [layOut, List.filter_cons, List.filter_cons]
    dsimp only
    split
    · rw [List.map_cons, ih, List.map_cons]
    · exact ih _

theorem literals_code_run {code : Text} (h : r.Code code rest) :
    r.literals (code ++ rest) = r.literals rest := by
  by_cases hne : code = []
  · rw [hne]
    rfl
  · rw [literals_eq, lexemes_code hne h, literals_eq]
    rfl

theorem literals_code (h : r.opener? (c :: s) = none) : r.literals (c :: s) = r.literals s := by
  obtain ⟨code, rest, rfl, hcode, hcons⟩ := exists_code h
  rw [← List.cons_append, literals_code_run hcons, literals_code_run hcode]

theorem literals_comment (ho : r.opener? (o.token ++ (inside ++ rest)) = some o)
    (he : r.Ends o inside closed rest) (hk : o.kind.isComment = true) :
    r.literals (o.token ++ (inside ++ rest)) = r.literals rest := by
  rw [literals_eq, lexemes_construct ho he, literals_eq,
    List.filter_cons_of_neg (by simp [Kind.not_literal_of_comment hk])]

theorem literals_literal (ho : r.opener? (o.token ++ (inside ++ rest)) = some o)
    (he : r.Ends o inside closed rest) (hk : o.kind.isLiteral = true) :
    r.literals (o.token ++ (inside ++ rest)) = (o.kind, o.token ++ inside) :: r.literals rest := by
  rw [literals_eq, lexemes_construct ho he, literals_eq, List.filter_cons_of_pos (by simpa using hk),
    List.map_cons]

/-! ## Rules without seams -/

/-- Where a comment is cut out nothing opens that did not open before, and no longer
opener comes to stand at a literal. -/
structure Seamless (r : Rules) : Prop where
  code : ∀ {c : Char} {s : Text}, r.opener? (c :: s) = none → r.opener? (c :: r.joined s) = none
  literal : ∀ {o : Opener} {inside rest : Text}, o.kind.isLiteral = true →
    r.opener? (o.token ++ (inside ++ rest)) = some o →
    r.opener? (o.token ++ (inside ++ r.joined rest)) = some o

/-- The code text is scanned as the text was. -/
structure Joins (r : Rules) (s : Text) : Prop where
  glyphs : r.glyphs (r.joined s) = plain (r.glyphs s)
  literals : r.literals (r.joined s) = r.literals s

/-- What stops a literal in the text stops it in the code text. -/
theorem stopsLike_joined (r : Rules) (s : Text) : s.StopsLike (r.joined s) := by
  refine ⟨?_, ?_, ?_⟩
  · rintro rfl
    exact joined_nil
  · rintro ⟨t, rfl⟩
    rw [List.singleton_append, joined_code (opener?_white (by decide))]
    exact ⟨_, rfl⟩
  · rintro ⟨t, rfl⟩
    rw [List.cons_append, joined_code (opener?_white (by decide)), List.singleton_append,
      joined_code (opener?_white (by decide))]
    exact ⟨_, rfl⟩

theorem Seamless.joins (h : r.Seamless) (s : Text) : r.Joins s := by
  induction s using readingChars r with
  | nil => exact ⟨by rw [joined_nil, glyphs_nil]; rfl, by rw [joined_nil]⟩
  | code c rest ho ih =>
    have ho' := h.code ho
    constructor
    · rw [joined_code ho, glyphs_code ho', glyphs_code ho, ih.glyphs]
      rfl
    · rw [joined_code ho, literals_code ho', literals_code ho, ih.literals]
  | construct o inside closed rest ho he ih =>
    rcases comment_or_literal (mem_of_opener? ho).1 with hk | hk
    · constructor
      · rw [joined_comment ho he hk, ih.glyphs, glyphs_construct ho he, Glyph.plain_append,
          Glyph.plain_comment hk, List.nil_append]
      · rw [joined_comment ho he hk, ih.literals, literals_comment ho he hk]
    · have ho' := h.literal hk ho
      have he' := ends_of_stopsLike he hk (r.stopsLike_joined rest)
      constructor
      · rw [joined_literal ho he hk, glyphs_construct ho' he', ih.glyphs, glyphs_construct ho he,
          Glyph.plain_append, Glyph.plain_glyphs (Kind.not_comment_of_literal hk)]
      · rw [joined_literal ho he hk, literals_literal ho' he' hk, ih.literals,
          literals_literal ho he hk]

/-! ## The common rules -/

theorem opener?_common_eq_none_iff : common.opener? (c :: s) = none ↔
    c ≠ '"' ∧ c ≠ '\'' ∧ (c = '/' → s.head? ≠ some '/' ∧ s.head? ≠ some '*') := by
  have hopeners : common.openers = [⟨.blockComment, ['/', '*']⟩, ⟨.lineComment, ['/', '/']⟩,
      ⟨.stringLiteral, ['"']⟩, ⟨.charLiteral, ['\'']⟩] := by decide
  have hhead : ∀ d : Char, [d] <+: s ↔ s.head? = some d := by
    intro d
    rw [List.head?_eq_some_iff]
    exact ⟨fun ⟨t, ht⟩ => ⟨t, ht.symm⟩, fun ⟨t, ht⟩ => ⟨t, ht.symm⟩⟩
  rw [opener?_eq_none_iff, hopeners]
  simp only [List.forall_mem_cons, List.cons_prefix_cons, hhead, List.nil_prefix, and_true,
    List.not_mem_nil, false_imp_iff, implies_true]
  grind

/-- What stands at the front stays there, unless a comment does. -/
theorem head?_joined (h : ∀ o, r.opener? s = some o → o.kind.isComment = false) :
    (r.joined s).head? = s.head? := by
  induction s using readingChars r with
  | nil => rw [joined_nil]
  | code c rest ho _ => rw [joined_code ho]; rfl
  | construct o inside closed rest ho he _ =>
    have hm := (mem_of_opener? ho).1
    have hk : o.kind.isLiteral = true := by
      refine (comment_or_literal hm).resolve_left ?_
      rw [h o ho]
      nofun
    obtain ⟨d, t, ht⟩ := List.exists_cons_of_ne_nil (token_ne_nil hm)
    rw [joined_literal ho he hk, ht]
    rfl

theorem seamless_common : common.Seamless := by
  constructor
  · intro c s h
    rw [opener?_common_eq_none_iff] at h ⊢
    refine ⟨h.1, h.2.1, fun hc => ?_⟩
    obtain ⟨hslash, hstar⟩ := h.2.2 hc
    rw [head?_joined]
    · exact ⟨hslash, hstar⟩
    · -- a comment opens with a slash
      intro o ho
      rcases opener_cases (mem_of_opener? ho).1 with ⟨-, z, hz⟩ | ⟨-, hl⟩ | ⟨hk, -⟩ | ⟨hk, -⟩
      · obtain ⟨t, rfl⟩ := (mem_of_opener? ho).2
        obtain ⟨htoken, -⟩ := Prod.mk.inj (Option.some.inj hz)
        rw [← htoken] at hslash
        exact absurd rfl hslash
      · obtain ⟨t, rfl⟩ := (mem_of_opener? ho).2
        rw [← Option.some.inj hl] at hslash
        exact absurd rfl hslash
      · rw [hk]
        rfl
      · rw [hk]
        rfl
  · intro o inside rest hk ho
    rcases opener_cases (mem_of_opener? ho).1 with ⟨hk', -⟩ | ⟨hk', -⟩ | ⟨hk', q, hq, ht⟩ | ⟨hk', q, hq, ht⟩
    · rw [hk'] at hk
      cases hk
    · rw [hk'] at hk
      cases hk
    · cases hq
      obtain ⟨kind, token⟩ := o
      cases hk'
      cases ht
      rfl
    · cases hq
      obtain ⟨kind, token⟩ := o
      cases hk'
      cases ht
      rfl

/-! ## Rules without block comments -/

theorem kind_of_no_block (h : r.blockComment = none) (ho : o ∈ r.openers)
    (hk : o.kind.isComment = true) : o.kind = .lineComment := by
  rcases opener_cases ho with ⟨-, z, hz⟩ | ⟨hkind, -⟩ | ⟨hkind, -⟩ | ⟨hkind, -⟩
  · rw [h] at hz
    cases hz
  · exact hkind
  · rw [hkind] at hk
    cases hk
  · rw [hkind] at hk
    cases hk

/-- Without block comments a comment is over where its line is. -/
theorem rest_of_no_block (h : r.blockComment = none) (ho : o ∈ r.openers)
    (he : r.Ends o inside closed rest) (hk : o.kind.isComment = true) :
    rest = [] ∨ rest.LineEnd := by
  unfold Ends at he
  simp only [kind_of_no_block h ho hk] at he
  exact he.1.stops

/-- A solid text at the front of the code text stands at the front of the text. -/
theorem prefix_of_joined (h : r.blockComment = none) {u : Text} (hu : u.Solid)
    (hp : u <+: r.joined s) : u <+: s := by
  induction s using readingChars r generalizing u with
  | nil => rwa [joined_nil] at hp
  | code c rest ho ih =>
    rw [joined_code ho] at hp
    cases u with
    | nil => exact List.nil_prefix
    | cons d u =>
      rw [List.cons_prefix_cons] at hp ⊢
      exact ⟨hp.1, ih (fun x hx => hu x (List.mem_cons_of_mem _ hx)) hp.2⟩
  | construct o inside closed rest ho he ih =>
    have hm := (mem_of_opener? ho).1
    rcases comment_or_literal hm with hk | hk
    · -- behind the comment its line ends, so the solid text is empty
      rw [joined_comment ho he hk] at hp
      have hnil : u = [] := by
        rcases u with _ | ⟨d, u⟩
        · rfl
        exfalso
        have hd := hu d List.mem_cons_self
        have hstop := r.stopsLike_joined rest
        rcases rest_of_no_block h hm he hk with rfl | hl | hl
        · rw [joined_nil] at hp
          cases List.prefix_nil.1 hp
        · obtain ⟨t, ht⟩ := hstop.lineFeed hl
          rw [← ht, List.singleton_append, List.cons_prefix_cons] at hp
          rw [hp.1] at hd
          cases hd
        · obtain ⟨t, ht⟩ := hstop.returnFeed hl
          rw [← ht, List.cons_append, List.cons_prefix_cons] at hp
          rw [hp.1] at hd
          cases hd
      rw [hnil]
      exact List.nil_prefix
    · rw [joined_literal ho he hk, ← List.append_assoc] at hp
      rw [← List.append_assoc]
      rcases List.prefix_or_prefix_of_prefix hp (List.prefix_append _ _) with hfront | ⟨v, rfl⟩
      · exact hfront.trans (List.prefix_append _ _)
      · rw [List.prefix_append_right_inj] at hp ⊢
        exact ih (fun x hx => hu x (List.mem_append_right _ hx)) hp

theorem seamless_of_no_block (h : r.blockComment = none) : r.Seamless := by
  constructor
  · intro c s ho
    refine opener?_none_of_solid ho fun u hu hp => ?_
    rw [← joined_code ho] at hp
    exact prefix_of_joined h hu hp
  · intro o inside rest hk ho
    obtain ⟨hm, -⟩ := mem_of_opener? ho
    refine opener?_some_of_solid ho (List.prefix_append _ _) fun u hu hp => ?_
    rw [← List.append_assoc] at hp ⊢
    rcases List.prefix_or_prefix_of_prefix hp (List.prefix_append _ _) with hfront | ⟨v, rfl⟩
    · exact hfront.trans (List.prefix_append _ _)
    · rw [List.prefix_append_right_inj] at hp ⊢
      exact prefix_of_joined h (fun x hx => hu x (List.mem_append_right _ hx)) hp

/-! ## Main result -/

theorem codeTextAt?_scan (r : Rules) (s : Text) :
    codeTextAt? s (r.scan s) = some (r.joined s) := by
  have hregions : (r.scan s).filter (fun g => !g.kind.isComment) =
      ((r.fragments s).filter fun f => !f.kind.isComment).map (·.region) :=
    List.filter_map
  have hfragments : fragmentsAt? s (((r.fragments s).filter fun f => !f.kind.isComment).map (·.region)) =
      some ((r.fragments s).filter fun f => !f.kind.isComment) :=
    mapM_ofRegion? fun f hf => ofRegion?_of_mem (List.mem_filter.1 hf).1
  rw [codeTextAt?, hregions, hfragments, Option.map_some, joined, codeText, codeText,
    List.filter_filter]
  simp only [Bool.and_self]

/-- Under the common rules, and under rules without block comments, the code text of a
text has no comment and the same literals, and it is its own code text. -/
theorem scan_codeText (h : r = common ∨ r.blockComment = none) (s : Text) :
    ∃ code, codeTextAt? s (r.scan s) = some code ∧
      (∀ g ∈ r.scan code, g.kind.isComment = false) ∧
      r.literals code = r.literals s ∧
      codeTextAt? code (r.scan code) = some code := by
  have hseamless : r.Seamless := by
    rcases h with rfl | h
    · exact seamless_common
    · exact seamless_of_no_block h
  have hjoins := hseamless.joins s
  refine ⟨r.joined s, codeTextAt?_scan r s, ?_, hjoins.literals, ?_⟩
  · intro g hg
    obtain ⟨f, hf, rfl⟩ := List.mem_map.1 hg
    refine not_comment_of_glyphs (fun g hg => ?_) hf
    rw [hjoins.glyphs] at hg
    simpa using (List.mem_filter.1 hg).2
  · have hplain : plain (plain (r.glyphs s)) = plain (r.glyphs s) := by
      rw [plain, plain, List.filter_filter]
      simp only [Bool.and_self]
    rw [codeTextAt?_scan, joined_eq (r.joined s), hjoins.glyphs, hplain, ← joined_eq]

theorem scan_codeText_star :
    ∃ s code : Text, s = ['*', '/', '*', '*', '/', '/', '\'', '/', '/', '\''] ∧
      code = ['*', '/', '\'', '/', '/', '\''] ∧ codeTextAt? s (common.scan s) = some code ∧
      (∀ g ∈ common.scan code, g.kind.isComment = false) ∧
      common.literals code = common.literals s ∧
      codeTextAt? code (common.scan code) = some code := by
  obtain ⟨code, hcode, hscan⟩ :=
    scan_codeText (.inl rfl) ['*', '/', '*', '*', '/', '/', '\'', '/', '/', '\'']
  have hcode' : codeTextAt? ['*', '/', '*', '*', '/', '/', '\'', '/', '/', '\'']
      (common.scan ['*', '/', '*', '*', '/', '/', '\'', '/', '/', '\'']) =
        some ['*', '/', '\'', '/', '/', '\''] := by decide +kernel
  obtain rfl := Option.some.inj (hcode.symm.trans hcode')
  exact ⟨_, _, rfl, rfl, hcode, hscan⟩

-- Two hyphens open a comment once the block comment between them is gone.
example : codeTextAt? ['-', '/', '*', '*', '/', '-'] (Language.doubledQuotes.scan
    ['-', '/', '*', '*', '/', '-']) = some ['-', '-'] ∧
    (Language.doubledQuotes.scan ['-', '-']).map (·.kind) = [.lineComment] := by decide +kernel

end Rules
end Gloss
