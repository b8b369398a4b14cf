import Mathlib.Data.List.Nodup
import Gloss.Proofs.Cursor
/-!
# Which delimiters are rules

`Delimiters.start?` gives the start token that is set for a kind. In those terms
`exists_check_iff` says which delimiters make rules, and `Delimiters.Opens` what a
match in front of a text has to be: the token of a kind that stands there, longer
than any other that does. `rules_of_check`: rules find just that, in any order of
openers that puts the longer ones first, and they make themselves again.
-/

namespace Gloss

namespace Delimiters
variable {d : Delimiters} {k : Kind} {s t : Text} {o : Opener}

/-! ## Start tokens by kind -/

/-- The token set to start constructs of the kind. -/
def start? (d : Delimiters) : Kind → Option Text
  | .code => none
  | .lineComment => d.lineComment
  | .blockComment => d.blockComment.map (·.1)
  | .stringLiteral => d.stringQuote.map ([·])
  | .charLiteral => d.charQuote.map ([·])

theorem mem_starts_iff : o ∈ d.starts ↔ d.start? o.kind = some o.token := by
  obtain ⟨kind, token⟩ := o
  unfold starts
  simp only [List.mem_append, Option.mem_toList, Option.map_eq_some_iff, Opener.mk.injEq]
  cases kind <;> simp [start?]

theorem mem_openers_iff : o ∈ d.openers ↔ d.start? o.kind = some o.token :=
  mem_openers.trans mem_starts_iff

theorem starts_ne_nil_iff : d.starts ≠ [] ↔ d.lineComment.isSome = true ∨
    d.blockComment.isSome = true ∨ d.stringQuote.isSome = true ∨ d.charQuote.isSome = true := by
  unfold starts
  cases d.lineComment <;> cases d.blockComment <;> cases d.stringQuote <;> cases d.charQuote <;> simp

/-- There is one opener of a kind at most. -/
theorem nodup_kinds (d : Delimiters) : (d.starts.map (·.kind)).Nodup := by
  unfold starts
  cases d.lineComment <;> cases d.blockComment <;> cases d.stringQuote <;> cases d.charQuote <;> simp

theorem nodup_tokens_iff : (d.starts.map (·.token)).Nodup ↔
    ∀ k l t, d.start? k = some t → d.start? l = some t → k = l := by
  rw [List.nodup_map_iff_inj_on (List.Nodup.of_map _ d.nodup_kinds)]
  constructor
  · intro h k l t hk hl
    have := h ⟨k, t⟩ (mem_starts_iff.2 hk) ⟨l, t⟩ (mem_starts_iff.2 hl) rfl
    exact congrArg Opener.kind this
  · rintro h ⟨k, t⟩ ho ⟨l, u⟩ hp rfl
    rw [h k l t (mem_starts_iff.1 ho) (mem_starts_iff.1 hp)]

/-! ## Acceptance -/

theorem exists_check_iff : (∃ r, d.check = .ok r) ↔ d.fault? = none := by
  unfold check
  split
  · rename_i h
    exact iff_of_true ⟨_, rfl⟩ h
  · rename_i e h
    refine iff_of_false ?_ (by simp [h])
    rintro ⟨r, hr⟩
    cases hr

/-! ## The match in front of a text -/

/-- The token of the kind stands at the front of the text, and every other start
token that stands there is shorter, in characters and in bytes. -/
structure Opens (d : Delimiters) (s : Text) (k : Kind) (t : Text) : Prop where
  start : d.start? k = some t
  front : t <+: s
  longest : ∀ l u, d.start? l = some u → u <+: s → l ≠ k →
    u.length < t.length ∧ Text.width u < Text.width t

/-- Of two texts at the front of one, that of fewer characters has fewer bytes. -/
theorem width_lt_of_prefix {u t : Text} (hu : u <+: s) (ht : t <+: s) (h : u.length < t.length) :
    Text.width u < Text.width t := by
  obtain ⟨v, rfl⟩ := List.prefix_of_prefix_length_le hu ht (Nat.le_of_lt h)
  have hv : v ≠ [] := by
    rintro rfl
    simp at h
  have := Text.width_pos hv
  rw [Text.width_append]
  omega

end Delimiters

namespace Rules
variable {r : Rules} {s : Text} {o : Opener}
open Delimiters

theorem longest_iff_opens : r.Longest s o ↔ r.Opens s o.kind o.token := by
  constructor
  · rintro ⟨ho, hfront, hlongest⟩
    refine ⟨mem_openers_iff.1 ho, hfront, ?_⟩
    intro l u hl hu hne
    have hp : ⟨l, u⟩ ∈ r.openers := mem_openers_iff.2 hl
    have hle := hlongest ⟨l, u⟩ hp hu
    -- two start tokens of one length at one place are the same, and then so are their kinds
    have hlt : u.length < o.token.length := by
      refine Nat.lt_of_le_of_ne hle fun heq => hne ?_
      have htoken := (List.prefix_of_prefix_length_le hu hfront (Nat.le_of_eq heq)).eq_of_length heq
      exact congrArg Opener.kind (eq_of_token_eq hp ho htoken)
    exact ⟨hlt, width_lt_of_prefix hu hfront hlt⟩
  · rintro ⟨hstart, hfront, hlongest⟩
    refine ⟨mem_openers_iff.2 hstart, hfront, ?_⟩
    intro p hp hps
    by_cases hk : p.kind = o.kind
    · have hstart' := mem_openers_iff.1 hp
      rw [hk, hstart, Option.some.injEq] at hstart'
      exact Nat.le_of_eq (congrArg List.length hstart'.symm)
    · exact Nat.le_of_lt (hlongest _ _ (mem_openers_iff.1 hp) hps hk).1

/-- Longer openers first is all that the order has to be. -/
theorem find?_eq_opener? {os : List Opener} (hp : os.Perm r.openers) (hd : Descending os) (s : Text) :
    os.find? (fun o => o.token.isPrefixOf s) = r.opener? s := by
  cases h : os.find? (fun o => o.token.isPrefixOf s) with
  | none =>
    rw [eq_comm, opener?_eq_none_iff]
    intro o ho hfront
    have := List.find?_eq_none.1 h o (hp.mem_iff.2 ho)
    exact this (List.isPrefixOf_iff_prefix.2 hfront)
  | some o =>
    rw [eq_comm, opener?_eq_some_iff]
    refine ⟨hp.mem_iff.1 (List.mem_of_find?_eq_some h), ?_, ?_⟩
    · exact List.isPrefixOf_iff_prefix.1 (by simpa using List.find?_some h)
    · intro p hp' hps
      exact le_of_find? hd h p (hp.mem_iff.2 hp') hps

end Rules

/-! ## Main result -/

namespace Delimiters
open Rules

/-- Delimiters make rules exactly if their tokens are there and solid, quotes and
escape are solid and differ, something is set, and no two kinds start alike. Rules
are the delimiters that made them. In front of any text they find the one longest
start token, by characters as by bytes and whatever the order of equal lengths. -/
theorem rules_of_check (d : Delimiters) :
    ((∃ r, d.check = .ok r) ↔
      (∀ t, d.lineComment = some t → t ≠ [] ∧ t.Solid) ∧
      (∀ a z, d.blockComment = some (a, z) → (a ≠ [] ∧ a.Solid) ∧ z ≠ [] ∧ z.Solid) ∧
      (∀ c, d.stringQuote = some c ∨ d.charQuote = some c ∨ d.escape = some c →
        Text.isWhite c = false) ∧
      (∀ e, d.escape = some e → d.stringQuote ≠ some e ∧ d.charQuote ≠ some e) ∧
      (d.lineComment.isSome = true ∨ d.blockComment.isSome = true ∨
        d.stringQuote.isSome = true ∨ d.charQuote.isSome = true) ∧
      ∀ k l t, d.start? k = some t → d.start? l = some t → k = l) ∧
    ∀ r, d.check = .ok r →
      (∀ s o, r.opener? s = some o ↔ d.Opens s o.kind o.token) ∧
      (∀ s, r.opener? s = none ↔ ∀ k t, d.start? k = some t → ¬ t <+: s) ∧
      (∀ s, r.openers.find? (fun o => (Cursor.ofText s).startsWith o.token) = r.opener? s) ∧
      (∀ os : List Opener, os.Perm r.openers → Descending os →
        ∀ s, os.find? (fun o => o.token.isPrefixOf s) = r.opener? s) ∧
      r.toDelimiters = d ∧ r.toDelimiters.check = .ok r := by
  constructor
  · rw [exists_check_iff, fault?_eq_none_iff]
    constructor
    · intro h
      refine ⟨h.line, fun a z hb => ⟨h.blockStart a z hb, h.blockEnd a z hb⟩, ?_, h.escape_ne,
        starts_ne_nil_iff.1 h.opens, nodup_tokens_iff.1 h.distinct⟩
      rintro c (hc | hc | hc)
      · exact h.stringQuote c hc
      · exact h.charQuote c hc
      · exact h.escape c hc
    · rintro ⟨hline, hblock, hchar, hescape, hset, hdistinct⟩
      exact {
        line := hline
        blockStart := fun a z h => (hblock a z h).1
        blockEnd := fun a z h => (hblock a z h).2
        stringQuote := fun c h => hchar c (.inl h)
        charQuote := fun c h => hchar c (.inr (.inl h))
        escape := fun c h => hchar c (.inr (.inr h))
        escape_ne := hescape
        opens := starts_ne_nil_iff.2 hset
        distinct := nodup_tokens_iff.2 hdistinct }
  · intro r hr
    obtain rfl := toDelimiters_of_check hr
    refine ⟨?_, ?_, ?_, fun os => find?_eq_opener?, rfl, hr⟩
    · intro s o
      rw [opener?_eq_some_iff, longest_iff_opens]
    · intro s
      rw [opener?_eq_none_iff]
      constructor
      · intro h k t hk
        exact h ⟨k, t⟩ (mem_openers_iff.2 hk)
      · intro h o ho
        exact h o.kind o.token (mem_openers_iff.1 ho)
    · intro s
      have hfront : ∀ t, (Cursor.ofText s).startsWith t = t.isPrefixOf s :=
        fun t => @Cursor.startsWith_between [] s t
      simp only [hfront]
      rfl

/-- One start token is the front of the other. -/
theorem rules_of_check_nested :
    ∃ (d : Delimiters) (r : Rules), d.lineComment = some ['(', '*', '*'] ∧
      d.blockComment = some (['(', '*'], ['*', ')']) ∧ d.check = .ok r ∧
      r.opener? ['(', '*', '*', 'é'] = some ⟨.lineComment, ['(', '*', '*']⟩ ∧
      d.Opens ['(', '*', '*', 'é'] .lineComment ['(', '*', '*'] ∧
      r.toDelimiters.check = .ok r := by
  obtain ⟨-, hrules⟩ := rules_of_check
    { lineComment := some ['(', '*', '*'], blockComment := some (['(', '*'], ['*', ')']) }
  obtain ⟨hopens, -, -, -, -, hagain⟩ := hrules ⟨_, by decide⟩ rfl
  have hopener : Delimiters.opener?
      { lineComment := some ['(', '*', '*'], blockComment := some (['(', '*'], ['*', ')']) }
      ['(', '*', '*', 'é'] = some ⟨.lineComment, ['(', '*', '*']⟩ := by decide
  exact ⟨_, _, rfl, rfl, rfl, hopener, (hopens _ _).1 hopener, hagain⟩

end Delimiters
end Gloss
