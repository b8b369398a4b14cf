import Gloss.Rules.Basic
import Gloss.Text.Lines
/-!
# Lexemes

A text falls into lexemes: runs of code, comments and literals. A construct
starts where an opener stands in code and runs

- to the end of its line (a line comment),
- through the first end token after its start token (a block comment; they do
  not nest),
- through its own quote, an escape taking the next character as it stands; a
  literal that may not run past its line stops before the line's end,

or to the end of the text. `flatten_lexemes`: the lexemes of a text joined are
the text.
-/

namespace Gloss

/-- A run of code, a comment or a literal. -/
structure Lexeme where
  kind : Kind
  text : Text
  /-- The construct met its own end, not the end of the text or of a line. -/
  closed : Bool
  deriving DecidableEq, Repr

/-- What a construct holds after its opener, whether it met its own end, and
what follows. -/
structure Cut where
  inside : Text
  closed : Bool
  rest : Text
  deriving DecidableEq, Repr

/-- The cut with `s` in front of what it holds. -/
def Cut.push (s : Text) (cut : Cut) : Cut := { cut with inside := s ++ cut.inside }

/-! ## Where constructs end -/

/-- Up to the end of the line, which stays outside. -/
def cutLine : Text → Cut
  | [] => ⟨[], true, []⟩
  | c :: s => if Text.atLineEnd (c :: s) then ⟨[], true, c :: s⟩ else (cutLine s).push [c]

/-- Through the first `stop`. Nothing stops at an empty one. -/
def cutBlock (stop : Text) : Text → Cut
  | [] => ⟨[], false, []⟩
  | c :: s =>
    if !stop.isEmpty && stop.isPrefixOf (c :: s) then ⟨stop, true, (c :: s).drop stop.length⟩
    else (cutBlock stop s).push [c]

/-- Through the first quote that is not escaped, or up to the first line end
that is not, unless literals may run past it. `escaped` says that an escape
stands in front; it takes a carriage return and line feed together. -/
def cutLiteral (escape : Option Char) (multiline : Bool) (quote : Char) (escaped : Bool) :
    Text → Cut
  | [] => ⟨[], false, []⟩
  | c :: s =>
    if escaped then
      (cutLiteral escape multiline quote (c == '\r' && s.head? == some '\n') s).push [c]
    else if escape = some c then (cutLiteral escape multiline quote true s).push [c]
    else if c = quote then ⟨[c], true, s⟩
    else if !multiline && Text.atLineEnd (c :: s) then ⟨[], false, c :: s⟩
    else (cutLiteral escape multiline quote false s).push [c]

/-- What follows an opener. -/
def Rules.cut (r : Rules) (o : Opener) (s : Text) : Cut :=
  match o.kind with
  | .code => ⟨[], true, s⟩
  | .lineComment => cutLine s
  | .blockComment => cutBlock r.blockEnd s
  | .stringLiteral | .charLiteral => cutLiteral r.escape r.multiline (o.token.headD '\x00') false s

/-- Code up to the next opener, and what follows. -/
def Rules.cutCode (r : Rules) : Text → Text × Text
  | [] => ([], [])
  | c :: s =>
    if (r.opener? (c :: s)).isSome then ([], c :: s)
    else
      let (code, rest) := r.cutCode s
      (c :: code, rest)

/-! ## Cuts lose nothing -/

theorem cutLine_append (s : Text) : (cutLine s).inside ++ (cutLine s).rest = s := by
  induction s with
  | nil => rfl
  | cons c s ih => rw [cutLine]; split <;> simp [Cut.push, ih]

theorem cutBlock_append (stop s : Text) :
    (cutBlock stop s).inside ++ (cutBlock stop s).rest = s := by
  induction s with
  | nil => rfl
  | cons c s ih =>
    rw [cutBlock]
    split
    · rename_i h
      obtain ⟨t, ht⟩ := List.isPrefixOf_iff_prefix.1 (Bool.and_eq_true_iff.1 h).2
      simp [← ht]
    · simp [Cut.push, ih]

theorem cutLiteral_append (escape : Option Char) (multiline : Bool) (quote : Char)
    (escaped : Bool) (s : Text) :
    (cutLiteral escape multiline quote escaped s).inside ++
      (cutLiteral escape multiline quote escaped s).rest = s := by
  fun_induction cutLiteral escape multiline quote escaped s <;> simp_all [Cut.push]

theorem Rules.cut_append (r : Rules) (o : Opener) (s : Text) :
    (r.cut o s).inside ++ (r.cut o s).rest = s := by
  unfold Rules.cut
  split
  · rfl
  · exact cutLine_append s
  · exact cutBlock_append _ s
  · exact cutLiteral_append _ _ _ _ s
  · exact cutLiteral_append _ _ _ _ s

theorem Rules.cutCode_append (r : Rules) (s : Text) : (r.cutCode s).1 ++ (r.cutCode s).2 = s := by
  induction s with
  | nil => rfl
  | cons c s ih => rw [Rules.cutCode]; split <;> simp [ih]

/-! ## The lexemes of a text -/

theorem Rules.length_cut_rest_lt {r : Rules} {s : Text} {o : Opener} (h : r.opener? s = some o) :
    (r.cut o (s.drop o.token.length)).rest.length < s.length := by
  obtain ⟨hm, t, rfl⟩ := r.mem_of_opener? h
  have hc := congrArg List.length (r.cut_append o t)
  have hp := List.length_pos_iff.2 (r.token_ne_nil hm)
  rw [List.drop_left]
  simp only [List.length_append] at hc ⊢
  omega

theorem Rules.length_cutCode_lt {r : Rules} {c : Char} {s : Text} (h : r.opener? (c :: s) = none) :
    (r.cutCode (c :: s)).2.length < (c :: s).length := by
  have hc := congrArg List.length (r.cutCode_append s)
  simp only [Rules.cutCode, h, Option.isSome_none, Bool.false_eq_true, if_false,
    List.length_append, List.length_cons] at hc ⊢
  omega

/-- The lexemes of a text, in order. -/
def Rules.lexemes (r : Rules) (s : Text) : List Lexeme :=
  match _h : r.opener? s with
  | some o =>
    let cut := r.cut o (s.drop o.token.length)
    ⟨o.kind, o.token ++ cut.inside, cut.closed⟩ :: r.lexemes cut.rest
  | none =>
    match s with
    | [] => []
    | c :: s => ⟨.code, (r.cutCode (c :: s)).1, true⟩ :: r.lexemes (r.cutCode (c :: s)).2
termination_by s.length
decreasing_by
  · exact Rules.length_cut_rest_lt _h
  · exact Rules.length_cutCode_lt _h

theorem Rules.flatten_lexemes (r : Rules) (s : Text) :
    ((r.lexemes s).map (·.text)).flatten = s := by
  fun_induction Rules.lexemes r s with
  | case1 s o h cut ih =>
    obtain ⟨-, t, rfl⟩ := r.mem_of_opener? h
    rw [List.map_cons, List.flatten_cons, ih, List.append_assoc]
    simp only [cut, List.drop_left, r.cut_append]
  | case2 h => rfl
  | case3 c s h ih => simp only [List.map_cons, List.flatten_cons, ih, r.cutCode_append]

end Gloss
