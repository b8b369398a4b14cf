import Mathlib.Data.List.Forall2
import Gloss.Proofs.Fragment
/-!
# The text of comments

Of a comment stripping reads only its line breaks. Two texts whose spans match,
kind by kind and, comments apart, text by text, are stripped alike as soon as
their comments have the same line terminators; where lines are collapsed it is
enough that the same comments have any (`strip_congr`).

What follows a comment may be another one. Its first character is read then, but
only for whether it is white space, and no comment starts with that.
-/

namespace Gloss

/-! ## Line terminators -/

namespace Text

/-- The line terminators of a text, in order. -/
def terminators : Text → List Text
  | [] => []
  | '\n' :: s => ['\n'] :: terminators s
  | '\r' :: '\n' :: s => ['\r', '\n'] :: terminators s
  | _ :: s => terminators s

theorem terminators_cons {c : Char} {s : Text} (hc : c ≠ '\n') (h : c = '\r' → s.head? ≠ some '\n') :
    terminators (c :: s) = terminators s := by
  rw [terminators.eq_4]
  · exact hc
  · rintro t rfl rfl
    exact h rfl rfl

theorem terminators_of_not_mem {s : Text} (h : '\n' ∉ s) : terminators s = [] := by
  induction s with
  | nil => rfl
  | cons c s ih =>
    obtain ⟨hc, hs⟩ := not_or.1 (mt List.mem_cons.2 h)
    rw [terminators_cons (Ne.symm hc) fun _ he => hs (List.mem_of_head? he), ih hs]

theorem terminators_feed {a : Text} (h : '\n' ∉ a) (s : Text) :
    terminators (a ++ '\n' :: s) = (splitTerminator (a ++ ['\n'])).2 :: terminators s := by
  induction a with
  | nil => rfl
  | cons c a ih =>
    obtain ⟨hc, ha⟩ := not_or.1 (mt List.mem_cons.2 h)
    by_cases hlast : c = '\r' ∧ a = []
    · obtain ⟨rfl, rfl⟩ := hlast
      rfl
    · -- the line feed is not the one that would go with this character
      have hwhole : ∀ t : Text, c = '\r' → (a ++ '\n' :: t).head? ≠ some '\n' := by
        rintro t rfl he
        obtain ⟨d, a, rfl⟩ := List.exists_cons_of_ne_nil fun hnil => hlast ⟨rfl, hnil⟩
        exact ha (List.mem_of_head? (l := d :: a) he)
      have hterm : (splitTerminator ([c] ++ (a ++ ['\n']))).2 = (splitTerminator (a ++ ['\n'])).2 :=
        terminator_of_whole (by simpa using hc) fun hr => hwhole [] (by simpa using hr)
      rw [List.cons_append, terminators_cons (Ne.symm hc) (hwhole s), ih ha, ← hterm]
      rfl

/-- The terminators of the lines of a text are its line terminators. -/
theorem map_splitTerminator_lines (s : Text) :
    ((lines s).filter isTerminated).map (fun l => (splitTerminator l).2) = terminators s := by
  induction s using byLines with
  | nil => rfl
  | last s hne hs =>
    rw [lines_of_not_mem hne hs, terminators_of_not_mem hs,
      List.filter_cons_of_neg (by simp [isTerminated_of_not_mem hs])]
    rfl
  | line a s ha ih =>
    rw [lines_feed ha, terminators_feed ha, List.filter_cons_of_pos (isTerminated_feed a),
      List.map_cons, ih]

theorem terminators_eq_nil_iff {s : Text} : terminators s = [] ↔ '\n' ∉ s := by
  refine ⟨fun h hs => ?_, terminators_of_not_mem⟩
  obtain ⟨a, t, rfl, ha⟩ := List.eq_append_cons_of_mem hs
  rw [terminators_feed ha] at h
  cases h

theorem all_isWhite_eq (o : Option Char) : o.all isWhite = !isSolid o := by
  cases o <;> simp [isSolid]

end Text

/-! ## Fragments that match -/

/-- Fragments of one kind, with one text if they are no comments, and otherwise
with texts that agree as said. -/
structure Fragment.Matches (agree : Text → Text → Prop) (f g : Fragment) : Prop where
  kind : f.kind = g.kind
  kept : f.kind.isComment = false → f.text = g.text
  removed : f.kind.isComment = true → agree f.text g.text

/-- What stripping reads of a comment is the same in both texts. -/
structure Policy.Agree (policy : Policy) (s t : Text) : Prop where
  breaks : '\n' ∈ s ↔ '\n' ∈ t
  terminators : policy = .preserve → s.terminators = t.terminators

theorem Fragment.Matches.imp {agree agree' : Text → Text → Prop} {f g : Fragment}
    (himp : ∀ s t, agree s t → agree' s t) (h : f.Matches agree g) : f.Matches agree' g :=
  ⟨h.kind, h.kept, fun hk => himp _ _ (h.removed hk)⟩

namespace Build
variable {policy : Policy} {s t : Text} {next next' : Option Char}

theorem foldl_addBreak_congr (h : s.terminators = t.terminators) (b : Build) :
    ((Text.lines s).filter Text.isTerminated).foldl addBreak b =
      ((Text.lines t).filter Text.isTerminated).foldl addBreak b := by
  have hfold : ∀ ls : List Text, ls.foldl addBreak b =
      (ls.map fun l => (Text.splitTerminator l).2).foldl
        (fun b u => { ({ b with line := b.line.add u } : Build).newLine with line := Line.touch {} })
        b := by
    intro ls
    rw [List.foldl_map]
    rfl
  rw [hfold, hfold, Text.map_splitTerminator_lines, Text.map_splitTerminator_lines, h]

/-- A comment is taken out alike whatever its text, its line breaks apart. -/
theorem drop_congr (h : policy.Agree s t) (hnext : Text.isSolid next = Text.isSolid next')
    (b : Build) : b.drop policy s next = b.drop policy t next' := by
  have hbreaks : s.contains '\n' = t.contains '\n' := by
    rw [Bool.eq_iff_iff, List.contains_iff_mem, List.contains_iff_mem]
    exact h.breaks
  unfold drop
  rw [hbreaks, Text.all_isWhite_eq, Text.all_isWhite_eq, hnext]
  dsimp only
  split
  · rename_i hpreserve
    exact foldl_addBreak_congr (h.terminators hpreserve.1) _
  · rfl

theorem feed_congr {f g : Fragment} (h : f.Matches policy.Agree g)
    (hnext : Text.isSolid f.next = Text.isSolid g.next) (b : Build) :
    b.feed policy f = b.feed policy g := by
  unfold feed
  rw [← h.kind]
  cases hk : f.kind.isComment with
  | true => exact drop_congr (h.removed hk) hnext b
  | false => rw [if_neg (by simp), if_neg (by simp), h.kept hk]

theorem foldl_feed_congr {fs gs : List Fragment}
    (h : List.Forall₂ (fun f g => f.Matches policy.Agree g ∧ Text.isSolid f.next = Text.isSolid g.next)
      fs gs) (b : Build) : fs.foldl (feed policy) b = gs.foldl (feed policy) b := by
  induction h generalizing b with
  | nil => rfl
  | cons hfirst _ ih => rw [List.foldl_cons, List.foldl_cons, feed_congr hfirst.1 hfirst.2, ih]

end Build

/-! ## What follows a fragment -/

namespace Rules
variable {r : Rules} {x y : Text}

theorem solid_of_comment {s : Text} {l : Lexeme} (hl : l ∈ r.lexemes s)
    (hk : l.kind.isComment = true) : Text.isSolid l.text.head? = true := by
  induction s using byLexemes r with
  | nil =>
    rw [lexemes_nil] at hl
    cases hl
  | cons k rest hfirst ih =>
    rw [hfirst.lexemes_append] at hl
    rcases List.mem_cons.1 hl with rfl | hl
    · cases hfirst with
      | code _ _ => cases hk
      | @construct o inside _ _ ho _ =>
        have hm := (mem_of_opener? ho).1
        obtain ⟨c, t, ht⟩ := List.exists_cons_of_ne_nil (token_ne_nil hm)
        have hw := solid_token hm c (by simp [ht])
        simp [ht, Text.isSolid, hw]
    · exact ih hl

/-- What follows the fragments of matching lists is white space for both or for
neither. -/
theorem forall₂_next {agree : Text → Text → Prop} {ls ms : List Lexeme} :
    ∀ i j : Nat, List.Forall₂ (Fragment.Matches agree) (layOut i ls) (layOut j ms) →
      (∀ l ∈ ls, l.kind.isComment = true → Text.isSolid l.text.head? = true) →
      (∀ m ∈ ms, m.kind.isComment = true → Text.isSolid m.text.head? = true) →
      List.Forall₂ (fun f g => f.Matches agree g ∧ Text.isSolid f.next = Text.isSolid g.next)
        (layOut i ls) (layOut j ms) := by
  induction ls generalizing ms with
  | nil =>
    intro i j h _ _
    cases ms with
    | nil => exact .nil
    | cons m ms => cases h
  | cons l ls ih =>
    intro i j h hls hms
    cases ms with
    | nil => cases h
    | cons m ms =>
      obtain ⟨hfirst, hrest⟩ := List.forall₂_cons.1 h
      refine .cons ⟨hfirst, ?_⟩ (ih _ _ hrest (fun k hk => hls k (by simp [hk]))
        fun k hk => hms k (by simp [hk]))
      -- the lexemes behind these two match as well
      rcases ls with _ | ⟨l', ls⟩
      · cases ms with
        | nil => rfl
        | cons m' ms => cases hrest
      · rcases ms with _ | ⟨m', ms⟩
        · cases hrest
        · obtain ⟨hnext, -⟩ := List.forall₂_cons.1 hrest
          show Text.isSolid l'.text.head? = Text.isSolid m'.text.head?
          cases hk : l'.kind.isComment with
          | true =>
            have hkind : l'.kind = m'.kind := hnext.kind
            rw [hls l' (by simp) hk, hms m' (by simp) (hkind ▸ hk)]
          | false => rw [show l'.text = m'.text from hnext.kept hk]

/-! ## Main result -/

theorem strip_of_agree {policy : Policy}
    (h : List.Forall₂ (Fragment.Matches policy.Agree) (r.fragments x) (r.fragments y)) :
    r.strip policy x = r.strip policy y := by
  have hnext := forall₂_next 0 0 h (fun _ => solid_of_comment) (fun _ => solid_of_comment)
  unfold strip stripFragments fragments
  rw [Build.foldl_feed_congr hnext]

/-- Texts that differ in what their comments say are stripped alike, under both
policies if the line terminators in the comments are the same, and where lines
are collapsed also if only the same comments have a line break. -/
theorem strip_congr (r : Rules) (x y : Text) :
    (List.Forall₂ (Fragment.Matches fun s t => s.terminators = t.terminators)
        (r.fragments x) (r.fragments y) →
      ∀ policy : Policy, r.strip policy x = r.strip policy y) ∧
    (List.Forall₂ (Fragment.Matches fun s t => ('\n' ∈ s ↔ '\n' ∈ t))
        (r.fragments x) (r.fragments y) →
      r.strip .collapse x = r.strip .collapse y) := by
  constructor
  · intro h policy
    refine strip_of_agree (h.imp fun _ _ => Fragment.Matches.imp fun s t hst => ⟨?_, fun _ => hst⟩)
    rw [← not_iff_not, ← Text.terminators_eq_nil_iff, ← Text.terminators_eq_nil_iff, hst]
  · intro h
    exact strip_of_agree (h.imp fun _ _ => Fragment.Matches.imp fun s t hst => ⟨hst, nofun⟩)

/-- One comment behind the other, with other texts. -/
theorem strip_congr_common :
    ∃ x y : Text, x = ['a', '/', '*', '\r', '\n', '*', '/', '/', '/', 'é'] ∧
      y = ['a', '/', '*', '"', '\r', '\n', '!', '*', '/', '/', '/'] ∧
      List.Forall₂ (Fragment.Matches fun s t => s.terminators = t.terminators)
        (common.fragments x) (common.fragments y) ∧
      (∀ policy : Policy, common.strip policy x = common.strip policy y) ∧
      List.Forall₂ (Fragment.Matches fun s t => ('\n' ∈ s ↔ '\n' ∈ t))
        (common.fragments x) (common.fragments y) ∧
      common.strip .collapse x = common.strip .collapse y := by
  have hx : common.fragments ['a', '/', '*', '\r', '\n', '*', '/', '/', '/', 'é'] =
      [⟨.code, ⟨0, 1, by decide⟩, ['a'], some '/'⟩,
        ⟨.blockComment, ⟨1, 7, by decide⟩, ['/', '*', '\r', '\n', '*', '/'], some '/'⟩,
        ⟨.lineComment, ⟨7, 11, by decide⟩, ['/', '/', 'é'], none⟩] := by decide +kernel
  have hy : common.fragments ['a', '/', '*', '"', '\r', '\n', '!', '*', '/', '/', '/'] =
      [⟨.code, ⟨0, 1, by decide⟩, ['a'], some '/'⟩,
        ⟨.blockComment, ⟨1, 9, by decide⟩, ['/', '*', '"', '\r', '\n', '!', '*', '/'], some '/'⟩,
        ⟨.lineComment, ⟨9, 11, by decide⟩, ['/', '/'], none⟩] := by decide +kernel
  have hsame : List.Forall₂ (Fragment.Matches fun s t => s.terminators = t.terminators)
      (common.fragments ['a', '/', '*', '\r', '\n', '*', '/', '/', '/', 'é'])
      (common.fragments ['a', '/', '*', '"', '\r', '\n', '!', '*', '/', '/', '/']) := by
    rw [hx, hy]
    exact .cons ⟨rfl, fun _ => rfl, nofun⟩
      (.cons ⟨rfl, nofun, fun _ => rfl⟩ (.cons ⟨rfl, nofun, fun _ => rfl⟩ .nil))
  have hany : List.Forall₂ (Fragment.Matches fun s t => ('\n' ∈ s ↔ '\n' ∈ t))
      (common.fragments ['a', '/', '*', '\r', '\n', '*', '/', '/', '/', 'é'])
      (common.fragments ['a', '/', '*', '"', '\r', '\n', '!', '*', '/', '/', '/']) := by
    rw [hx, hy]
    exact .cons ⟨rfl, fun _ => rfl, nofun⟩
      (.cons ⟨rfl, nofun, fun _ => by decide⟩ (.cons ⟨rfl, nofun, fun _ => by decide⟩ .nil))
  exact ⟨_, _, rfl, rfl, hsame, (strip_congr common _ _).1 hsame, hany,
    (strip_congr common _ _).2 hany⟩

end Rules
end Gloss
