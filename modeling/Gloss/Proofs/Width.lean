import Gloss.Proofs.CommentText
import Gloss.Proofs.Strip
/-!
# The width of a stripped text

Every comment that is taken out makes a text at least one byte shorter, whatever
stands for it: a space stands only for a block comment between two characters, which
has a token of at least one byte on either side, and its line terminators come without
its start token (`Build.width_drop`). All else that stripping does takes away, so the
widths of the text and of the stripped text differ by the number of comments or more
(`width_strip_add_le`).
-/

namespace Gloss

/-! ## Parts of a text -/

namespace Text

theorem width_le_of_sublist {s t : Text} (h : s.Sublist t) : width s ≤ width t := by
  induction h with
  | slnil => exact Nat.le_refl _
  | cons c _ ih =>
    rw [width_cons]
    omega
  | cons_cons c _ ih =>
    rw [width_cons, width_cons]
    omega

theorem dropEndWhile_sublist (p : Char → Bool) (s : Text) : (dropEndWhile p s).Sublist s := by
  have h := (List.dropWhile_sublist p (l := s.reverse)).reverse
  rwa [List.reverse_reverse] at h

theorem width_terminators_le (s : Text) : width s.terminators.flatten ≤ width s := by
  fun_induction terminators s with
  | case1 => exact Nat.le_refl _
  | case2 s ih | case3 s ih =>
    simp only [List.flatten_cons, width_append, width_cons, width_nil]
    omega
  | case4 c s _ _ ih =>
    rw [width_cons]
    omega

/-- A solid first character is no part of a terminator. -/
theorem width_terminators_lt {s : Text} (h : isSolid s.head? = true) :
    width s.terminators.flatten < width s := by
  cases s with
  | nil => cases h
  | cons c s =>
    have hsolid : isWhite c = false := by simpa [isSolid] using h
    have hfeed : c ≠ '\n' := by
      rintro rfl
      cases hsolid
    have hreturn : c = '\r' → s.head? ≠ some '\n' := by
      rintro rfl
      cases hsolid
    have hrest := width_terminators_le s
    have hc := c.utf8Size_pos
    rw [terminators_cons hfeed hreturn, width_cons]
    omega

end Text

/-! ## Lines -/

namespace Line

variable {policy : Policy} {l : Line}

theorem text_trim_sublist (l : Line) : l.trim.text.Sublist l.text :=
  (List.Sublist.refl _).append (List.dropWhile_sublist _).reverse

theorem close_sublist (policy : Policy) (l : Line) : (l.close policy).Sublist l.text := by
  unfold close
  split
  · have happ := Text.splitTerminator_append l.text
    generalize Text.splitTerminator l.text = parts at happ
    obtain ⟨body, terminator⟩ := parts
    have hbody : (body.take l.guarded.length ++
        Text.dropEndWhile Text.isPad (body.drop l.guarded.length)).Sublist body := by
      conv_rhs => rw [← List.take_append_drop l.guarded.length body]
      exact (List.Sublist.refl _).append (Text.dropEndWhile_sublist _ _)
    rw [← happ]
    dsimp only
    split
    · exact List.nil_sublist _
    · exact hbody.append (List.Sublist.refl _)
  · exact List.Sublist.refl _

end Line

/-! ## What is written -/

namespace Build

variable {policy : Policy} {b : Build} {s : Text} {next : Option Char}

theorem text_newLine (b : Build) : b.newLine.text = b.text := by
  simp [newLine, text, Line.text]

theorem text_addPiece (b : Build) (literal : Bool) (piece : Text) :
    (b.addPiece literal piece).text = b.text ++ piece := by
  unfold addPiece
  extract_lets b'
  have hline : b'.text = b.text ++ piece := by
    unfold b' text
    cases literal <;> simp
  split
  · rw [text_newLine, hline]
  · exact hline

theorem text_keep (b : Build) (literal : Bool) (s : Text) :
    (b.keep literal s).text = b.text ++ s := by
  have hfold : ∀ ls : List Text,
      (ls.foldl (·.addPiece literal) b).text = b.text ++ ls.flatten := by
    intro ls
    induction ls generalizing b with
    | nil => simp
    | cons line ls ih => rw [List.foldl_cons, ih, text_addPiece, List.flatten_cons, List.append_assoc]
  rw [keep, hfold, Text.flatten_lines]

theorem text_addBreak (b : Build) (piece : Text) :
    (b.addBreak piece).text = b.text ++ (Text.splitTerminator piece).2 := by
  simp [addBreak, newLine, text, Line.text, Line.add, Line.touch]

/-- The lines of a comment leave the terminators of the comment. -/
theorem text_foldl_addBreak (b : Build) (s : Text) :
    (((Text.lines s).filter Text.isTerminated).foldl addBreak b).text =
      b.text ++ s.terminators.flatten := by
  rw [← Text.map_splitTerminator_lines]
  generalize (Text.lines s).filter Text.isTerminated = ls
  induction ls generalizing b with
  | nil => simp
  | cons line ls ih =>
    rw [List.foldl_cons, ih, text_addBreak, List.map_cons, List.flatten_cons, List.append_assoc]

/-- A comment is wider than what stands for it, if it starts with a solid character and
has at least two bytes where a character may stand behind it. -/
theorem width_drop (policy : Policy) (b : Build) (hs : Text.isSolid s.head? = true)
    (hnext : Text.isSolid next = true → 2 ≤ Text.width s) :
    Text.width (b.drop policy s next).text < Text.width b.text + Text.width s := by
  unfold drop
  extract_lets breaks line trimmed b'
  have hline : trimmed.text.Sublist b.line.text := by
    unfold trimmed
    split
    · exact line.text_trim_sublist
    · exact List.Sublist.refl _
  have hb : Text.width b'.text ≤ Text.width b.text :=
    Text.width_le_of_sublist ((List.Sublist.refl _).append hline)
  split
  · have hterminators := Text.width_terminators_lt hs
    rw [text_foldl_addBreak, Text.width_append]
    omega
  split
  · rename_i hsolid
    have hwide := hnext (Bool.and_eq_true_iff.1 hsolid).2
    have hspace : Text.width ({ b' with line := b'.line.add [' '] } : Build).text =
        Text.width b'.text + 1 := by
      simp [text, Nat.add_assoc]
      rfl
    omega
  · have hpos := Text.width_pos (s := s) (by rintro rfl; cases hs)
    omega

theorem close_sublist (policy : Policy) (b : Build) : (b.close policy).Sublist b.text := by
  have hflat : ∀ ls : List Line, (ls.flatMap (Line.close policy)).Sublist (ls.flatMap Line.text) := by
    intro ls
    induction ls with
    | nil => exact List.Sublist.refl _
    | cons l ls ih => exact (l.close_sublist policy).append ih
  have htext : b.text = (b.line :: b.done).reverse.flatMap Line.text := by
    simp [text]
  rw [htext]
  exact hflat _

end Build

/-! ## The whole text -/

namespace Rules

variable {r : Rules} {policy : Policy} {s : Text}

/-- A comment starts with a solid character. If anything but white space follows it is a
closed block comment, so it holds two tokens. -/
theorem width_of_comment {f : Fragment} (hf : f ∈ r.fragments s) (hk : f.kind.isComment = true) :
    Text.isSolid f.text.head? = true ∧
      (Text.isSolid f.next = true → 2 ≤ Text.width f.text) := by
  obtain ⟨front, back, hs⟩ := List.append_of_mem hf
  obtain ⟨-, rest, closed, -, -, hnext, -, hfirst⟩ := exists_first hs
  rw [hnext]
  generalize hl : Lexeme.mk f.kind f.text closed = l at hfirst
  cases hfirst with
  | code =>
    rw [(Lexeme.mk.inj hl).1] at hk
    cases hk
  | @construct o inside rest _ ho he =>
    obtain ⟨hkind, htext, -⟩ := Lexeme.mk.inj hl
    have hm := (mem_of_opener? ho).1
    have hstart := Text.width_pos (token_ne_nil hm)
    rw [hkind] at hk
    rw [htext]
    refine ⟨solid_quote hm inside, fun hsolid => ?_⟩
    have hrest : ¬ (rest = [] ∨ rest.LineEnd) := not_lineEnd_of_solid hsolid
    unfold Ends at he
    cases hopen : o.kind <;> simp only [hopen] at he hk
    case lineComment => exact absurd he.1.stops hrest
    case blockComment =>
      cases he with
      | unclosed => exact absurd (.inl rfl) hrest
      | @closed body =>
        have hstop := Text.width_pos (blockEnd_solid hm hopen).1
        simp only [Text.width_append]
        omega
    all_goals cases hk

theorem width_foldl_feed (policy : Policy) (b : Build) {fs : List Fragment}
    (h : ∀ f ∈ fs, f.kind.isComment = true → Text.isSolid f.text.head? = true ∧
      (Text.isSolid f.next = true → 2 ≤ Text.width f.text)) :
    Text.width (fs.foldl (Build.feed policy) b).text + fs.countP (·.kind.isComment) ≤
      Text.width b.text + Text.width (fs.flatMap (·.text)) := by
  induction fs generalizing b with
  | nil => simp
  | cons f fs ih =>
    have hrest := ih (b.feed policy f) fun g hg => h g (List.mem_cons_of_mem _ hg)
    have hfeed : Text.width (b.feed policy f).text + (if f.kind.isComment then 1 else 0) ≤
        Text.width b.text + Text.width f.text := by
      unfold Build.feed
      split
      · rename_i hk
        obtain ⟨hsolid, hnext⟩ := h f List.mem_cons_self hk
        exact b.width_drop policy hsolid hnext
      · rw [Build.text_keep, Text.width_append]
        exact Nat.le_refl _
    rw [List.foldl_cons, List.countP_cons, List.flatMap_cons, Text.width_append]
    omega

theorem flatMap_text_fragments (r : Rules) (s : Text) : (r.fragments s).flatMap (·.text) = s := by
  have hlayOut : ∀ (offset : Nat) (ls : List Lexeme),
      (layOut offset ls).flatMap (·.text) = (ls.map (·.text)).flatten := by
    intro offset ls
    induction ls generalizing offset with
    | nil => rfl
    | cons l ls ih => rw [layOut, List.flatMap_cons, ih, List.map_cons, List.flatten_cons]
  rw [fragments, hlayOut, flatten_lexemes]

/-- Stripping takes at least one byte for each comment. -/
theorem width_strip_add_le (r : Rules) (policy : Policy) (s : Text) :
    Text.width (r.strip policy s) + (r.fragments s).countP (·.kind.isComment) ≤ Text.width s := by
  have hfeed := width_foldl_feed policy {} fun f (hf : f ∈ r.fragments s) hk =>
    width_of_comment hf hk
  have hclose := Text.width_le_of_sublist
    (((r.fragments s).foldl (Build.feed policy) {}).close_sublist policy)
  rw [flatMap_text_fragments, show Build.text {} = [] from rfl, Text.width_nil, Nat.zero_add] at hfeed
  exact Nat.le_trans (Nat.add_le_add_right hclose _) hfeed

/-- A stripped text is never longer than the text, and it is shorter exactly if the text
has a comment. So stripping changes a text exactly if it has one. -/
theorem width_strip (r : Rules) (policy : Policy) (s : Text) :
    Text.width (r.strip policy s) ≤ Text.width s ∧
      (Text.width (r.strip policy s) < Text.width s ↔ ∃ g ∈ r.scan s, g.kind.isComment = true) ∧
      (r.strip policy s = s ↔ ∀ g ∈ r.scan s, g.kind.isComment = false) := by
  have hwidth := width_strip_add_le r policy s
  have hshorter : (∃ g ∈ r.scan s, g.kind.isComment = true) →
      Text.width (r.strip policy s) < Text.width s := by
    rintro ⟨g, hg, hk⟩
    obtain ⟨f, hf, rfl⟩ := List.mem_map.1 hg
    have hcount : 0 < (r.fragments s).countP (·.kind.isComment) :=
      List.countP_pos_iff.2 ⟨f, hf, hk⟩
    omega
  have hsame : (∀ g ∈ r.scan s, g.kind.isComment = false) → r.strip policy s = s := by
    intro h
    exact strip_of_not_comment fun f hf => h f.region (List.mem_map_of_mem hf)
  refine ⟨by omega, ⟨fun hlt => ?_, hshorter⟩, ⟨fun heq g hg => ?_, hsame⟩⟩
  · by_contra hno
    rw [hsame fun g hg => by simpa using fun hk => hno ⟨g, hg, hk⟩] at hlt
    exact Nat.lt_irrefl _ hlt
  · cases hk : g.kind.isComment with
    | false => rfl
    | true =>
      have hlt := hshorter ⟨g, hg, hk⟩
      rw [heq] at hlt
      exact absurd hlt (Nat.lt_irrefl _)

end Rules
end Gloss
