import Gloss.Proofs.Lexeme
import Gloss.Proofs.Lines
import Gloss.Strip
/-!
# Stripping piece by piece

The build takes a fragment at a time and cuts it at its line breaks. Here the
cuts are made first: a text falls into `Piece`s, parts of fragments that lie in
one line of the output, and `Line.finish` writes them from the line in progress
on. `strip_eq_finish`: that is what stripping comes to.
-/

namespace Gloss

/-- Part of a fragment that goes into one line of the output, and the character
after the fragment. -/
structure Piece where
  kind : Kind
  text : Text
  next : Option Char
  deriving DecidableEq, Repr

/-- Line breaks in spans of this kind end lines of the output. -/
def Policy.splits (policy : Policy) (kind : Kind) : Bool :=
  policy == .preserve || !kind.isComment

/-- The piece ends its line. -/
def Piece.breaks (policy : Policy) (p : Piece) : Bool :=
  policy.splits p.kind && Text.isTerminated p.text

/-- The pieces of a span. -/
def Policy.pieces (policy : Policy) (kind : Kind) (s : Text) (next : Option Char) : List Piece :=
  if policy.splits kind then (Text.lines s).map (⟨kind, ·, next⟩) else [⟨kind, s, next⟩]

def Fragment.pieces (policy : Policy) (f : Fragment) : List Piece :=
  policy.pieces f.kind f.text f.next

/-- The pieces of a text. -/
def Rules.pieces (r : Rules) (policy : Policy) (s : Text) : List Piece :=
  (r.fragments s).flatMap (Fragment.pieces policy)

namespace Line

/-- The line as a comment leaves it that ends there or goes on. -/
def clear (l : Line) (p : Piece) : Line :=
  if p.next.all Text.isWhite || p.text.contains '\n' then l.touch.trim else l.touch

/-- The line once a comment, or the part of one that lies in the line, is taken
out. -/
def takeOut (policy : Policy) (l : Line) (p : Piece) : Line :=
  if p.breaks policy then (l.clear p).add (Text.splitTerminator p.text).2
  else if Text.isSolid (l.clear p).last? && Text.isSolid p.next then (l.clear p).add [' ']
  else l.clear p

/-- The line after one more piece. -/
def feed (policy : Policy) (l : Line) (p : Piece) : Line :=
  if p.kind.isComment then l.takeOut policy p
  else if p.kind.isLiteral then l.addLiteral p.text else l.add p.text

/-- What the line and the pieces behind it come to. -/
def finish (policy : Policy) (l : Line) : List Piece → Text
  | [] => l.close policy
  | p :: ps =>
    if p.breaks policy then (l.feed policy p).close policy ++ finish policy {} ps
    else finish policy (l.feed policy p) ps

end Line

/-- What the build and the pieces behind it come to. -/
def Build.finish (policy : Policy) (b : Build) (ps : List Piece) : Text :=
  b.done.reverse.flatMap (Line.close policy) ++ b.line.finish policy ps

theorem Policy.splits_of_not_comment {policy : Policy} {kind : Kind}
    (hk : kind.isComment = false) : policy.splits kind = true := by
  simp [splits, hk]

theorem Piece.breaks_feed {policy : Policy} {kind : Kind} {a : Text} {next : Option Char} :
    Piece.breaks policy ⟨kind, a ++ ['\n'], next⟩ = policy.splits kind := by
  simp [breaks, Text.isTerminated_feed]

theorem Piece.breaks_of_not_comment {policy : Policy} {kind : Kind} (hk : kind.isComment = false)
    {a : Text} {next : Option Char} : Piece.breaks policy ⟨kind, a ++ ['\n'], next⟩ = true :=
  breaks_feed.trans (Policy.splits_of_not_comment hk)

theorem Piece.breaks_of_not_mem {policy : Policy} {p : Piece} (h : '\n' ∉ p.text) :
    p.breaks policy = false := by
  simp [breaks, Text.isTerminated_of_not_mem h]

namespace Line
variable {policy : Policy} {l : Line}

theorem feed_code {s : Text} {next : Option Char} : l.feed policy ⟨.code, s, next⟩ = l.add s := rfl

theorem feed_literal {p : Piece} (hk : p.kind.isLiteral = true) :
    l.feed policy p = l.addLiteral p.text := by
  simp [feed, Kind.not_comment_of_literal hk, hk]

theorem feed_comment {p : Piece} (hk : p.kind.isComment = true) :
    l.feed policy p = l.takeOut policy p := by
  simp [feed, hk]

theorem takeOut_break {p : Piece} (h : p.breaks policy = true) :
    l.takeOut policy p = (l.clear p).add (Text.splitTerminator p.text).2 := by
  rw [takeOut, if_pos h]

theorem takeOut_next {p : Piece} (h : p.breaks policy = false) :
    l.takeOut policy p =
      if Text.isSolid (l.clear p).last? && Text.isSolid p.next then (l.clear p).add [' ']
      else l.clear p := by
  rw [takeOut, h, if_neg (by simp)]

theorem finish_break {p : Piece} {ps : List Piece} (h : p.breaks policy = true) :
    l.finish policy (p :: ps) = (l.feed policy p).close policy ++ finish policy {} ps := by
  rw [finish, if_pos h]

theorem finish_next {p : Piece} {ps : List Piece} (h : p.breaks policy = false) :
    l.finish policy (p :: ps) = (l.feed policy p).finish policy ps := by
  rw [finish, h, if_neg (by simp)]

end Line

/-! ## One fragment -/

namespace Build
variable {policy : Policy} {b : Build} {ps : List Piece}

theorem finish_nil : b.finish policy [] = b.close policy := by
  simp [finish, close, Line.finish]

theorem finish_keep {kind : Kind} (hk : kind.isComment = false) (next : Option Char) (s : Text) :
    (b.keep kind.isLiteral s).finish policy ps =
      b.finish policy ((Text.lines s).map (⟨kind, ·, next⟩) ++ ps) := by
  unfold keep
  induction Text.lines s generalizing b with
  | nil => rfl
  | cons line ls ih =>
    have hbreaks : Piece.breaks policy ⟨kind, line, next⟩ = Text.isTerminated line := by
      simp [Piece.breaks, Policy.splits_of_not_comment hk]
    rw [List.foldl_cons, ih, List.map_cons, List.cons_append, addPiece]
    simp only [finish, Line.finish, Line.feed, hk, hbreaks]
    split <;> simp [newLine]

/-- A comment whose line breaks do not stay. -/
theorem drop_eq {kind : Kind} {s : Text} {next : Option Char}
    (h : ¬ (policy = .preserve ∧ s.contains '\n' = true))
    (hbreaks : Piece.breaks policy ⟨kind, s, next⟩ = false) :
    b.drop policy s next = { b with line := b.line.takeOut policy ⟨kind, s, next⟩ } := by
  simp only [drop, Line.takeOut, Line.clear, hbreaks, if_neg h, Bool.false_eq_true, if_false]
  split <;> split <;> rfl

theorem finish_drop {kind : Kind} (hk : kind.isComment = true) {s : Text} {next : Option Char}
    (h : ¬ (policy = .preserve ∧ s.contains '\n' = true))
    (hbreaks : Piece.breaks policy ⟨kind, s, next⟩ = false) :
    (b.drop policy s next).finish policy ps = b.finish policy (⟨kind, s, next⟩ :: ps) := by
  rw [drop_eq h hbreaks, finish, finish, Line.finish, hbreaks, Line.feed, hk]
  rfl

theorem takeOut_feed (l : Line) (kind : Kind) (a : Text) (next : Option Char) :
    l.takeOut .preserve ⟨kind, a ++ ['\n'], next⟩ =
      l.touch.trim.add (Text.splitTerminator (a ++ ['\n'])).2 := by
  rw [Line.takeOut_break Piece.breaks_feed, Line.clear, if_pos (by simp)]

/-- A line of a comment with its line break. -/
theorem finish_break {kind : Kind} (hk : kind.isComment = true) (a : Text) (next : Option Char) :
    b.finish .preserve (⟨kind, a ++ ['\n'], next⟩ :: ps) =
      Build.finish .preserve
        ⟨b.line.touch.trim.add (Text.splitTerminator (a ++ ['\n'])).2 :: b.done, {}⟩ ps := by
  rw [finish, Line.finish_break Piece.breaks_feed, Line.feed_comment hk, takeOut_feed]
  simp [finish]

/-- The lines of a comment behind its first one. The line that a break starts is
finished like a new one. -/
theorem finish_foldl_addBreak {kind : Kind} (hk : kind.isComment = true) (s : Text)
    (next : Option Char) (hend : s = [] ∨ Text.isTerminated s = true → ps = []) (done : List Line) :
    (((Text.lines s).filter Text.isTerminated).foldl addBreak ⟨done, Line.touch {}⟩).finish
        .preserve ps =
      Build.finish .preserve ⟨done, {}⟩ ((Text.lines s).map (⟨kind, ·, next⟩) ++ ps) := by
  induction s using Text.byLines generalizing done with
  | nil => rw [hend (.inl rfl)]; rfl
  | last s hne hs =>
    -- the part behind the last break leaves nothing in its line
    have hbreaks : Piece.breaks .preserve ⟨kind, s, next⟩ = false := Piece.breaks_of_not_mem hs
    have hout : Line.takeOut .preserve {} ⟨kind, s, next⟩ = Line.touch {} := by
      simp [Line.takeOut, Line.clear, hbreaks, Line.trim, Line.touch, Line.last?, Text.isSolid]
    rw [Text.lines_of_not_mem hne hs]
    simp only [List.filter_cons, Text.isTerminated_of_not_mem hs, finish, Line.finish,
      List.map_cons, List.map_nil, List.singleton_append, hbreaks, Line.feed, hk, hout]
    rfl
  | line a s ha ih =>
    have hend' : s = [] ∨ Text.isTerminated s = true → ps = [] := fun h =>
      hend (.inr (Text.isTerminated_line h a))
    rw [Text.lines_feed ha, List.filter_cons_of_pos (Text.isTerminated_feed a), List.foldl_cons,
      List.map_cons, List.cons_append, finish_break hk, ← ih hend']
    rfl

/-- A comment whose line breaks stay: each of its lines but the last ends one of
the output. Nothing follows a comment that ends with a line break. -/
theorem finish_drop_preserve {kind : Kind} (hk : kind.isComment = true) {s : Text} (hne : s ≠ [])
    (next : Option Char) (hend : Text.isTerminated s = true → ps = []) :
    (b.drop .preserve s next).finish .preserve ps =
      b.finish .preserve ((Text.lines s).map (⟨kind, ·, next⟩) ++ ps) := by
  induction s using Text.byLines with
  | nil => exact absurd rfl hne
  | last s _ hs =>
    rw [Text.lines_of_not_mem hne hs]
    exact finish_drop hk (by simpa using hs) (Piece.breaks_of_not_mem hs)
  | line a s ha _ =>
    have hdrop : b.drop .preserve (a ++ '\n' :: s) next =
        ((Text.lines s).filter Text.isTerminated).foldl addBreak
          ⟨b.line.touch.trim.add (Text.splitTerminator (a ++ ['\n'])).2 :: b.done, Line.touch {}⟩ := by
      rw [drop, if_pos (by simp), Text.lines_feed ha,
        List.filter_cons_of_pos (Text.isTerminated_feed a), List.foldl_cons]
      simp [addBreak, newLine]
    rw [hdrop, finish_foldl_addBreak hk s next fun h => hend (Text.isTerminated_line h a),
      Text.lines_feed ha, List.map_cons, List.cons_append, finish_break hk]

theorem finish_feed {f : Fragment} (hne : f.text ≠ [])
    (hend : f.kind.isComment = true → Text.isTerminated f.text = true → ps = []) :
    (b.feed policy f).finish policy ps = b.finish policy (f.pieces policy ++ ps) := by
  unfold feed Fragment.pieces Policy.pieces
  cases hk : f.kind.isComment with
  | false => rw [if_neg (by simp), finish_keep hk f.next, if_pos (Policy.splits_of_not_comment hk)]
  | true =>
    rw [if_pos rfl]
    cases policy with
    | preserve => exact finish_drop_preserve hk hne f.next (hend hk)
    | collapse =>
      have hsplits : Policy.splits .collapse f.kind = false := by simp [Policy.splits, hk]
      rw [finish_drop hk (by simp) (by simp [Piece.breaks, hsplits]), hsplits]
      rfl

end Build

/-! ## The whole text -/

namespace Rules
variable {r : Rules} {policy : Policy}

theorem head?_lexemes (s : Text) : (r.lexemes s).head?.bind (·.text.head?) = s.head? := by
  have hs := r.flatten_lexemes s
  cases h : r.lexemes s with
  | nil =>
    rw [h] at hs
    rw [← hs]
    rfl
  | cons l ls =>
    have hne : l.text ≠ [] := text_ne_nil (h ▸ List.mem_cons_self ..)
    obtain ⟨c, t, ht⟩ := List.exists_cons_of_ne_nil hne
    rw [h] at hs
    rw [← hs]
    simp [ht]

theorem flatMap_pieces_layOut (offset : Nat) (ls : List Lexeme) :
    (layOut offset ls).flatMap (Fragment.pieces policy) =
      (layOut 0 ls).flatMap (Fragment.pieces policy) := by
  induction ls generalizing offset with
  | nil => rfl
  | cons l ls ih =>
    simp only [layOut, List.flatMap_cons]
    rw [ih (offset + _), ih (0 + _)]
    rfl

@[simp] theorem pieces_nil : r.pieces policy [] = [] := by
  rw [pieces, fragments, lexemes_nil]
  rfl

theorem pieces_lexeme {s rest text : Text} {kind : Kind} {closed : Bool}
    (h : r.lexemes s = ⟨kind, text, closed⟩ :: r.lexemes rest) :
    r.pieces policy s = policy.pieces kind text rest.head? ++ r.pieces policy rest := by
  rw [pieces, fragments, h, layOut, List.flatMap_cons, head?_lexemes, flatMap_pieces_layOut]
  rfl

theorem pieces_code {code rest : Text} (hne : code ≠ []) (h : r.Code code rest) :
    r.pieces policy (code ++ rest) = policy.pieces .code code rest.head? ++ r.pieces policy rest :=
  pieces_lexeme (lexemes_code hne h)

theorem pieces_construct {o : Opener} {inside rest : Text} {closed : Bool}
    (ho : r.opener? (o.token ++ (inside ++ rest)) = some o) (h : r.Ends o inside closed rest) :
    r.pieces policy (o.token ++ (inside ++ rest)) =
      policy.pieces o.kind (o.token ++ inside) rest.head? ++ r.pieces policy rest :=
  pieces_lexeme (lexemes_construct ho h)

/-- Stripping is writing the pieces one after the other. -/
theorem strip_eq_finish (s : Text) :
    r.strip policy s = Line.finish policy {} (r.pieces policy s) := by
  suffices h : ∀ (offset : Nat) (b : Build),
      ((layOut offset (r.lexemes s)).foldl (Build.feed policy) b).close policy =
        b.finish policy (r.pieces policy s) by
    exact (h 0 {}).trans (by simp [Build.finish])
  induction s using reading r with
  | nil =>
    intro offset b
    rw [lexemes_nil, pieces_nil, Build.finish_nil]
    rfl
  | code code rest hne hc ih =>
    intro offset b
    rw [lexemes_code hne hc, layOut, List.foldl_cons, ih, pieces_code hne hc, head?_lexemes]
    exact Build.finish_feed hne nofun
  | construct o inside closed rest ho he ih =>
    intro offset b
    have hm := (mem_of_opener? ho).1
    rw [lexemes_construct ho he, layOut, List.foldl_cons, ih, pieces_construct ho he, head?_lexemes]
    refine Build.finish_feed (by simp [token_ne_nil hm]) fun hk ht => ?_
    rw [Text.isTerminated, beq_iff_eq] at ht
    rw [rest_of_feed hm he hk ht, pieces_nil]

end Rules
end Gloss
