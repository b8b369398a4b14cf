import Mathlib.Data.List.DropRight
import Gloss.Proofs.Position
import Gloss.Strip
import Gloss.Strip.Buffer
/-!
# Offsets into a text that grows and shrinks

A buffer keeps the lines it has written as offsets into one text, a build keeps the
lines themselves. `Buffer.ofBuild` is the buffer of a build; every operation on it
succeeds and gives the buffer of what the operation makes of the build, so no cut is
ever outside the text or inside a character, and the two come to the same text
(`strip?_eq`). What holds of the lines of a build is then said of the offsets: in
order, at characters, each finished line with one line feed at its end
(`Buffer.Sound`). `feeds_sound` says it after every fragment of any regions of a text.
-/

namespace Gloss

/-! ## Marks of lines -/

/-- The mark of a line that starts at an offset. -/
def Line.mark (offset : Nat) (l : Line) : Mark where
  start := offset
  floor := offset + Text.width l.guarded.reverse
  touched := l.touched

/-- The marks of lines that stand one behind the other from an offset on. -/
def marksFrom (offset : Nat) : List Line → List Mark
  | [] => []
  | l :: ls => l.mark offset :: marksFrom (offset + Text.width l.text) ls

theorem marksFrom_append (offset : Nat) (ls ls' : List Line) :
    marksFrom offset (ls ++ ls') =
      marksFrom offset ls ++ marksFrom (offset + Text.width (ls.flatMap Line.text)) ls' := by
  induction ls generalizing offset with
  | nil => rfl
  | cons l ls ih =>
    rw [List.cons_append, marksFrom, ih, List.flatMap_cons, Text.width_append, Nat.add_assoc]
    rfl

theorem marksFrom_eq_append {offset : Nat} {ls : List Line} {front back : List Mark}
    (h : marksFrom offset ls = front ++ back) :
    ∃ ls₁ ls₂, ls = ls₁ ++ ls₂ ∧ front = marksFrom offset ls₁ ∧
      back = marksFrom (offset + Text.width (ls₁.flatMap Line.text)) ls₂ := by
  induction front generalizing offset ls with
  | nil => exact ⟨[], ls, rfl, rfl, h.symm⟩
  | cons m front ih =>
    cases ls with
    | nil => cases h
    | cons l ls =>
      obtain ⟨rfl, hback⟩ := List.cons.inj h
      obtain ⟨ls₁, ls₂, rfl, rfl, rfl⟩ := ih hback
      refine ⟨l :: ls₁, ls₂, rfl, rfl, ?_⟩
      rw [List.flatMap_cons, Text.width_append, Nat.add_assoc]

theorem start_le_of_mem_marksFrom {offset : Nat} {ls : List Line} {m : Mark}
    (h : m ∈ marksFrom offset ls) : offset ≤ m.start := by
  induction ls generalizing offset with
  | nil => cases h
  | cons l ls ih =>
    rcases List.mem_cons.1 h with rfl | h
    · exact Nat.le_refl _
    · exact Nat.le_trans (Nat.le_add_right _ _) (ih h)

/-- Lines that are not empty start one behind the other; behind them one may be empty. -/
theorem pairwise_marksFrom {offset : Nat} {ls : List Line} {last : Line}
    (h : ∀ l ∈ ls, l.text ≠ []) :
    ((marksFrom offset (ls ++ [last])).map (·.start)).Pairwise (· < ·) := by
  induction ls generalizing offset with
  | nil => exact List.pairwise_singleton ..
  | cons l ls ih =>
    rw [List.cons_append, marksFrom, List.map_cons, List.pairwise_cons]
    refine ⟨?_, ih fun k hk => h k (List.mem_cons_of_mem _ hk)⟩
    intro n hn
    obtain ⟨m, hm, rfl⟩ := List.mem_map.1 hn
    have hle := start_le_of_mem_marksFrom hm
    have hpos := Text.width_pos (h l (List.mem_cons_self ..))
    show offset < m.start
    omega

/-! ## The buffer of a build -/

namespace Buffer

def ofBuild (b : Build) : Buffer where
  text := b.text
  done := (marksFrom 0 b.done.reverse).reverse
  line := b.line.mark (Text.width (b.done.reverse.flatMap Line.text))

variable {b : Build} {policy : Policy}

theorem marks_ofBuild (b : Build) : (ofBuild b).marks = marksFrom 0 (b.line :: b.done).reverse := by
  rw [marks, List.reverse_cons, List.reverse_cons, marksFrom_append]
  simp [ofBuild, marksFrom]

theorem append_ofBuild (b : Build) (s : Text) :
    (ofBuild b).append s = ofBuild { b with line := b.line.add s } := by
  simp [ofBuild, append, Build.text, Line.mark, Line.add, Line.text]

theorem protect_ofBuild (b : Build) (s : Text) :
    ((ofBuild b).append s).protect = ofBuild { b with line := b.line.addLiteral s } := by
  simp [ofBuild, append, protect, Build.text, Line.mark, Line.addLiteral, Line.text]

theorem touch_ofBuild (b : Build) : (ofBuild b).touch = ofBuild { b with line := b.line.touch } := rfl

theorem newLine_ofBuild (b : Build) : (ofBuild b).newLine = ofBuild b.newLine := by
  simp [ofBuild, newLine, Build.newLine, Build.text, Line.mark, Line.text, Mark.at,
    marksFrom_append, marksFrom]

theorem trimFrom?_append (s t : Text) :
    trimFrom? (Text.width s) (s ++ t) = some (s ++ Text.dropEndWhile Text.isPad t) := by
  have ht : t = Text.dropEndWhile Text.isPad t ++ t.rtakeWhile Text.isPad :=
    List.rdropWhile_append_rtakeWhile.symm
  have hkept : Text.splitAt? (Text.width s + Text.width (Text.dropEndWhile Text.isPad t)) (s ++ t) =
      some (s ++ Text.dropEndWhile Text.isPad t, t.rtakeWhile Text.isPad) := by
    conv => lhs; rhs; rw [ht]
    rw [← Text.width_append, ← List.append_assoc, Text.splitAt?_width_append]
  rw [trimFrom?, Text.splitAt?_width_append]
  simp only [Option.bind_eq_bind, Option.bind_some, hkept]
  rfl

/-- Behind the floor of its line a buffer has what its build may trim. -/
theorem trim?_ofBuild (b : Build) :
    (ofBuild b).trim? = some (ofBuild { b with line := b.line.trim }) := by
  have hfloor : (ofBuild b).line.floor =
      Text.width (b.done.reverse.flatMap Line.text ++ b.line.guarded.reverse) := by
    rw [Text.width_append]
    rfl
  have htext : (ofBuild b).text =
      b.done.reverse.flatMap Line.text ++ b.line.guarded.reverse ++ b.line.loose.reverse := by
    simp [ofBuild, Build.text, Line.text]
  have hloose : Text.dropEndWhile Text.isPad b.line.loose.reverse = b.line.trim.loose.reverse := by
    rw [Text.dropEndWhile, List.reverse_reverse]
    rfl
  rw [trim?, hfloor, htext, trimFrom?_append, hloose]
  simp [ofBuild, Build.text, Line.text, Line.mark, Line.trim]

/-! ## What is kept -/

theorem pushPiece_ofBuild (literal : Bool) (b : Build) (piece : Text) :
    (ofBuild b).pushPiece literal piece = ofBuild (b.addPiece literal piece) := by
  have hwritten : (if literal then ((ofBuild b).append piece).protect else (ofBuild b).append piece) =
      ofBuild { b with line := if literal then b.line.addLiteral piece else b.line.add piece } := by
    cases literal
    · exact append_ofBuild b piece
    · exact protect_ofBuild b piece
  unfold pushPiece Build.addPiece
  dsimp only
  rw [hwritten]
  split
  · exact newLine_ofBuild _
  · rfl

theorem push_ofBuild (literal : Bool) (b : Build) (s : Text) :
    (ofBuild b).push literal s = ofBuild (b.keep literal s) :=
  List.foldl_hom ofBuild (fun b piece => pushPiece_ofBuild literal b piece)

end Buffer

/-! ## The lines of a build -/

theorem Line.last?_eq_getLast? (l : Line) : l.last? = l.text.getLast? := by
  rw [last?, text, List.getLast?_append, List.getLast?_reverse, List.getLast?_reverse]

namespace Build

/-- Each finished line of a build ends in its only line feed, and the line in progress
has none. -/
def Rowed (b : Build) : Prop := Text.Rows b.text (b.done.reverse.map Line.text) b.line.text

variable {b : Build} {l : Line}

theorem rowed_empty : Rowed {} := ⟨rfl, by simp, by simp [Line.text]⟩

theorem Rowed.of_line (h : b.Rowed) (hl : '\n' ∉ l.text) : Rowed { b with line := l } where
  join := by simp [text, List.flatMap_def]
  full := h.full
  unended := hl

/-- The line in progress is finished behind a line feed. -/
theorem Rowed.newLine (h : b.Rowed) (row : Text) (hl : l.text = row ++ ['\n']) (hrow : '\n' ∉ row) :
    (Build.newLine { b with line := l }).Rowed where
  join := by simp [text, Build.newLine, List.flatMap_def]
  full := by
    intro t ht
    simp only [Build.newLine, List.reverse_cons, List.map_append, List.mem_append, List.map_cons,
      List.map_nil, List.mem_singleton] at ht
    rcases ht with ht | rfl
    · exact h.full t ht
    · exact ⟨row, hl, hrow⟩
  unended := by simp [Build.newLine, Line.text]

theorem Rowed.addPiece (h : b.Rowed) (literal : Bool) {piece : Text}
    (hp : '\n' ∉ piece ∨ ∃ row, piece = row ++ ['\n'] ∧ '\n' ∉ row) :
    (b.addPiece literal piece).Rowed := by
  have htext : (if literal then b.line.addLiteral piece else b.line.add piece).text =
      b.line.text ++ piece := by
    cases literal <;> simp
  unfold Build.addPiece
  dsimp only
  rcases hp with hp | ⟨row, rfl, hrow⟩
  · rw [Text.isTerminated_of_not_mem hp, if_neg Bool.false_ne_true]
    refine h.of_line ?_
    rw [htext, List.mem_append, not_or]
    exact ⟨h.unended, hp⟩
  · rw [Text.isTerminated_feed, if_pos rfl]
    refine h.newLine (b.line.text ++ row) ?_ ?_
    · rw [htext, List.append_assoc]
    · rw [List.mem_append, not_or]
      exact ⟨h.unended, hrow⟩

theorem Rowed.keep (h : b.Rowed) (literal : Bool) (s : Text) : (b.keep literal s).Rowed := by
  unfold Build.keep
  induction s using Text.byLines generalizing b with
  | nil => exact h
  | last s hne hs =>
    rw [Text.lines_of_not_mem hne hs]
    exact h.addPiece literal (.inl hs)
  | line a s ha ih =>
    rw [Text.lines_feed ha]
    exact ih (h.addPiece literal (.inr ⟨a, rfl, ha⟩))

theorem Rowed.addBreak (h : b.Rowed) {piece : Text} (hp : Text.isTerminated piece = true) :
    (b.addBreak piece).Rowed := by
  have hnew : (Build.newLine { b with line := b.line.add (Text.splitTerminator piece).2 }).Rowed := by
    rcases Text.terminator_cases hp with ht | ht <;> rw [ht]
    · exact h.newLine _ (Line.text_add ..) h.unended
    · refine h.newLine (b.line.text ++ ['\r']) (by simp) ?_
      simpa using h.unended
  exact hnew.of_line hnew.unended

theorem Rowed.foldl_addBreak (h : b.Rowed) {pieces : List Text}
    (hp : ∀ p ∈ pieces, Text.isTerminated p = true) : (pieces.foldl Build.addBreak b).Rowed := by
  induction pieces generalizing b with
  | nil => exact h
  | cons p pieces ih =>
    exact ih (h.addBreak (hp p (List.mem_cons_self ..))) fun q hq => hp q (List.mem_cons_of_mem _ hq)

/-- The line in progress as a comment leaves it, before anything stands for it. -/
def clear (b : Build) (comment : Text) (next : Option Char) : Build :=
  { b with line := if next.all Text.isWhite || comment.contains '\n' then b.line.touch.trim
                   else b.line.touch }

theorem Rowed.clear (h : b.Rowed) (comment : Text) (next : Option Char) :
    (b.clear comment next).Rowed := by
  refine h.of_line ?_
  split
  · have hsub : b.line.touch.trim.text ⊆ b.line.text :=
      ((List.Sublist.refl _).append (List.dropWhile_sublist _).reverse).subset
    exact fun hm => h.unended (hsub hm)
  · exact h.unended

theorem drop_eq_clear (policy : Policy) (b : Build) (comment : Text) (next : Option Char) :
    b.drop policy comment next =
      if policy = .preserve ∧ comment.contains '\n' then
        ((Text.lines comment).filter Text.isTerminated).foldl addBreak (b.clear comment next)
      else if Text.isSolid (b.clear comment next).line.last? && Text.isSolid next then
        { b.clear comment next with line := (b.clear comment next).line.add [' '] }
      else b.clear comment next := rfl

theorem Rowed.drop (h : b.Rowed) (policy : Policy) (comment : Text) (next : Option Char) :
    (b.drop policy comment next).Rowed := by
  have hclear := h.clear comment next
  rw [drop_eq_clear]
  split
  · exact hclear.foldl_addBreak fun p hp => (List.mem_filter.1 hp).2
  split
  · refine hclear.of_line ?_
    rw [Line.text_add]
    simpa using hclear.unended
  · exact hclear

theorem Rowed.feed (h : b.Rowed) (policy : Policy) (f : Fragment) : (b.feed policy f).Rowed := by
  unfold Build.feed
  split
  · exact h.drop policy f.text f.next
  · exact h.keep f.kind.isLiteral f.text

end Build

namespace Buffer
variable {b : Build}

/-! ## What is taken out -/

theorem pushBreak_ofBuild (b : Build) (piece : Text) :
    (ofBuild b).pushBreak piece = ofBuild (b.addBreak piece) := by
  rw [pushBreak, append_ofBuild, newLine_ofBuild, touch_ofBuild]
  rfl

/-- Where the line in progress is empty, the text ends in a line feed or is empty, and
neither is solid. -/
theorem isSolid_ofBuild (h : b.Rowed) :
    Text.isSolid (ofBuild b).text.getLast? = Text.isSolid b.line.last? := by
  rw [Line.last?_eq_getLast?]
  show Text.isSolid b.text.getLast? = _
  rw [h.join, List.getLast?_append]
  by_cases hl : b.line.text = []
  · rw [hl, List.getLast?_nil, Option.none_or]
    rcases List.eq_nil_or_concat (b.done.reverse.map Line.text) with he | ⟨ls, l, he⟩
    · rw [he]
      rfl
    · obtain ⟨body, rfl, -⟩ := h.full l (by rw [he]; simp)
      rw [he]
      simp [Text.isSolid, show Text.isWhite '\n' = true by decide]
  · rw [List.getLast?_eq_some_getLast hl, Option.some_or]

theorem clear?_ofBuild (b : Build) (comment : Text) (next : Option Char) :
    (ofBuild b).clear? comment next = some (ofBuild (b.clear comment next)) := by
  unfold clear? Build.clear
  split
  · exact trim?_ofBuild { b with line := b.line.touch }
  · rfl

theorem remove?_ofBuild (h : b.Rowed) (policy : Policy) (comment : Text) (next : Option Char) :
    (ofBuild b).remove? policy comment next = some (ofBuild (b.drop policy comment next)) := by
  have hbreaks : ∀ (pieces : List Text) (b : Build),
      pieces.foldl pushBreak (ofBuild b) = ofBuild (pieces.foldl Build.addBreak b) :=
    fun _ _ => List.foldl_hom ofBuild pushBreak_ofBuild
  rw [Build.drop_eq_clear, remove?, clear?_ofBuild]
  simp only [Option.bind_eq_bind, Option.bind_some, isSolid_ofBuild (h.clear comment next), hbreaks,
    append_ofBuild]
  split
  · rfl
  split <;> rfl

theorem feed?_ofBuild (h : b.Rowed) (policy : Policy) (f : Fragment) :
    (ofBuild b).feed? policy f = some (ofBuild (b.feed policy f)) := by
  unfold feed? Build.feed
  split
  · exact remove?_ofBuild h policy f.text f.next
  · exact congrArg some (push_ofBuild f.kind.isLiteral b f.text)

/-- Fed with fragments, a buffer never fails and is that of the build. -/
theorem feeds?_eq (policy : Policy) (fs : List Fragment) :
    feeds? policy fs = some (ofBuild (fs.foldl (Build.feed policy) {})) ∧
      (fs.foldl (Build.feed policy) {}).Rowed := by
  induction fs using List.reverseRecOn with
  | nil => exact ⟨rfl, Build.rowed_empty⟩
  | append_singleton fs f ih =>
    obtain ⟨hfeeds, hrowed⟩ := ih
    unfold feeds? at hfeeds ⊢
    rw [List.foldl_append, List.foldlM_append, hfeeds]
    constructor
    · simpa using feed?_ofBuild hrowed policy f
    · exact hrowed.feed policy f

/-! ## The finished text -/

theorem minus?_add (m n : Nat) : minus? (m + n) m = some n := by
  rw [minus?, if_pos (Nat.le_add_right m n), Nat.add_sub_cancel_left]

/-- The floor of a line, or the end of its body if that comes first, is where a build
stops trimming. -/
theorem trimFrom?_body (l : Line) :
    let body := Text.lineBody l.text
    trimFrom? (min (Text.width l.guarded.reverse) (Text.width body)) body =
      some (body.take l.guarded.length ++
        Text.dropEndWhile Text.isPad (body.drop l.guarded.length)) := by
  have htext : Text.lineBody l.text ++ (Text.splitTerminator l.text).2 =
      l.guarded.reverse ++ l.loose.reverse := Text.splitTerminator_append l.text
  dsimp only
  generalize Text.lineBody l.text = body at htext ⊢
  rcases List.append_eq_append_iff.1 htext with ⟨m, hm, -⟩ | ⟨m, rfl, -⟩
  · have hlen : body.length ≤ l.guarded.length := by
      have := congrArg List.length hm
      rw [List.length_reverse, List.length_append] at this
      omega
    rw [hm, Text.width_append, Nat.min_eq_right (Nat.le_add_right _ _), List.take_of_length_le hlen,
      List.drop_of_length_le hlen]
    simpa using trimFrom?_append body []
  · rw [Text.width_append, Nat.min_eq_left (Nat.le_add_right _ _), trimFrom?_append]
    simp

/-- A line is cut out of the text, trimmed behind its floor, and comes to what it does
as a line. -/
theorem closeLine?_mark (policy : Policy) (front back : Text) (l : Line) :
    closeLine? policy (front ++ (l.text ++ back)) (l.mark (Text.width front))
      (Text.width front + Text.width l.text) = some (l.close policy) := by
  unfold closeLine? Line.close
  simp only [Line.mark, minus?_add, Option.bind_eq_bind, Option.bind_some, Text.splitAt?_width_append]
  split
  · have h := trimFrom?_body l
    dsimp only [Text.lineBody] at h
    rw [h]
    rfl
  · rfl

theorem closeLines?_marksFrom (policy : Policy) (front : Text) (ls : List Line) :
    closeLines? policy (front ++ ls.flatMap Line.text) (marksFrom (Text.width front) ls) =
      some (ls.flatMap (Line.close policy)) := by
  induction ls generalizing front with
  | nil => rfl
  | cons l ls ih =>
    -- the line stops where the next one starts
    have hstop : ((marksFrom (Text.width front + Text.width l.text) ls).head?.map (·.start)).getD
        (Text.width (front ++ (l :: ls).flatMap Line.text)) = Text.width front + Text.width l.text := by
      cases ls with
      | nil => simp [marksFrom]
      | cons k ls => rfl
    have ih := ih (front ++ l.text)
    rw [Text.width_append, List.append_assoc, ← List.flatMap_cons] at ih
    rw [marksFrom, closeLines?, hstop, ih, List.flatMap_cons, closeLine?_mark]
    rfl

theorem close?_ofBuild (policy : Policy) (b : Build) :
    (ofBuild b).close? policy = some (b.close policy) := by
  have h := closeLines?_marksFrom policy [] (b.line :: b.done).reverse
  have htext : (ofBuild b).text = (b.line :: b.done).reverse.flatMap Line.text := by
    simp [ofBuild, Build.text]
  rw [close?, marks_ofBuild, htext]
  exact h

/-- A buffer comes to the text that a build comes to, and fails where the regions lie
outside the source. -/
theorem strip?_eq (policy : Policy) (source : Text) (regions : List Region) :
    strip? policy source regions = (fragmentsAt? source regions).map (stripFragments policy) := by
  unfold strip?
  cases fragmentsAt? source regions with
  | none => rfl
  | some fs =>
    simp only [Option.bind_eq_bind, Option.bind_some, (feeds?_eq policy fs).1, close?_ofBuild]
    rfl

/-! ## Sound offsets -/

/-- What holds of the offsets of a buffer. -/
structure Sound (b : Buffer) : Prop where
  /-- Lines start one behind the other. -/
  increasing : (b.marks.map (·.start)).Pairwise (· < ·)
  /-- A finished line has its floor in it, and one line feed, which ends it. -/
  finished : ∀ front m next back, b.marks = front ++ m :: next :: back →
    m.start ≤ m.floor ∧ m.floor ≤ next.start ∧
      ∃ body, Text.slice? m.start next.start b.text = some (body ++ ['\n']) ∧ '\n' ∉ body
  /-- The line in progress has its floor in it, and no line feed. -/
  unfinished : b.line.start ≤ b.line.floor ∧ b.line.floor ≤ Text.width b.text ∧
    ∃ row, Text.slice? b.line.start (Text.width b.text) b.text = some row ∧ '\n' ∉ row
  boundary : ∀ m ∈ b.marks, b.text.Boundary m.start ∧ b.text.Boundary m.floor

theorem width_guarded_le (l : Line) : Text.width l.guarded.reverse ≤ Text.width l.text := by
  rw [Line.text, Text.width_append]
  exact Nat.le_add_right _ _

/-- A mark of a buffer is that of a line of the build, with the lines in front of it
and those behind it. -/
theorem exists_line {front back : List Mark} {m : Mark} (hm : (ofBuild b).marks = front ++ m :: back) :
    ∃ ls l ls', (b.line :: b.done).reverse = ls ++ l :: ls' ∧
      m = l.mark (Text.width (ls.flatMap Line.text)) ∧
      back = marksFrom (Text.width (ls.flatMap Line.text) + Text.width l.text) ls' ∧
      (ofBuild b).text = ls.flatMap Line.text ++ (l.text ++ ls'.flatMap Line.text) := by
  rw [marks_ofBuild] at hm
  obtain ⟨ls, ls', hls, -, hback⟩ := marksFrom_eq_append hm
  rw [Nat.zero_add] at hback
  cases ls' with
  | nil => cases hback
  | cons l ls' =>
    obtain ⟨rfl, rfl⟩ := List.cons.inj hback
    refine ⟨ls, l, ls', hls, rfl, rfl, ?_⟩
    rw [← List.flatMap_cons, ← List.flatMap_append, ← hls]
    simp [ofBuild, Build.text]

theorem sound_ofBuild (h : b.Rowed) : (ofBuild b).Sound := by
  have hdone : ∀ l ∈ b.done.reverse, ∃ body, l.text = body ++ ['\n'] ∧ '\n' ∉ body :=
    fun l hl => h.full l.text (List.mem_map_of_mem hl)
  constructor
  · rw [marks_ofBuild, List.reverse_cons]
    refine pairwise_marksFrom fun l hl => ?_
    obtain ⟨body, hbody, -⟩ := hdone l hl
    simp [hbody]
  · intro front m next back hm
    obtain ⟨ls, l, ls', hls, rfl, hback, htext⟩ := exists_line hm
    cases ls' with
    | nil => cases hback
    | cons k ls' =>
      obtain ⟨rfl, -⟩ := List.cons.inj hback
      -- a line with another one behind it is finished
      have hl : l ∈ b.done.reverse := by
        rw [List.reverse_cons] at hls
        have hinit := congrArg List.dropLast hls
        rw [List.dropLast_concat] at hinit
        rw [hinit]
        simp
      obtain ⟨body, hbody, hfeed⟩ := hdone l hl
      refine ⟨Nat.le_add_right _ _, Nat.add_le_add_left (width_guarded_le l) _, body, ?_, hfeed⟩
      rw [htext, ← hbody]
      exact Text.slice?_append _ _ _
  · have htext : (ofBuild b).text = b.done.reverse.flatMap Line.text ++ (b.line.text ++ []) := by
      simp [ofBuild, Build.text]
    have hwidth : Text.width (ofBuild b).text =
        Text.width (b.done.reverse.flatMap Line.text) + Text.width b.line.text := by
      rw [htext, List.append_nil, Text.width_append]
    rw [hwidth]
    refine ⟨Nat.le_add_right _ _, Nat.add_le_add_left (width_guarded_le b.line) _, b.line.text, ?_,
      h.unended⟩
    rw [htext]
    exact Text.slice?_append _ _ _
  · intro m hm
    obtain ⟨front, back, hm⟩ := List.append_of_mem hm
    obtain ⟨ls, l, ls', -, rfl, -, htext⟩ := exists_line hm
    rw [htext]
    refine ⟨⟨_, _, rfl, rfl⟩, ls.flatMap Line.text ++ l.guarded.reverse,
      l.loose.reverse ++ ls'.flatMap Line.text, ?_, Text.width_append _ _⟩
    rw [Line.text]
    simp only [List.append_assoc]

end Buffer

/-! ## Regions of a text -/

theorem Text.boundary_iff {s : Text} {offset : Nat} :
    s.Boundary offset ↔ (Text.splitAt? offset s).isSome = true := by
  rw [Option.isSome_iff_exists]
  constructor
  · rintro ⟨a, b, rfl, rfl⟩
    exact ⟨_, Text.splitAt?_width_append a b⟩
  · rintro ⟨⟨a, b⟩, h⟩
    exact ⟨a, b, Text.eq_of_splitAt? h⟩

theorem Fragment.exists_ofRegion? {source : Text} {g : Region}
    (hstart : source.Boundary g.span.start) (hstop : source.Boundary g.span.stop) :
    ∃ f, Fragment.ofRegion? source g = some f := by
  obtain ⟨a, x, rfl, ha⟩ := hstart
  obtain ⟨c, d, hc, hc'⟩ := hstop
  have hle := g.span.start_le_stop
  obtain ⟨m, rfl, rfl⟩ : ∃ m, c = a ++ m ∧ x = m ++ d := by
    rcases Nat.lt_or_eq_of_le hle with hlt | heq
    · rw [← ha, ← hc'] at hlt
      obtain ⟨m, -, hm⟩ := Rules.exists_between hc hlt
      exact ⟨m, hm⟩
    · obtain ⟨rfl, rfl⟩ := Rules.append_inj_of_width hc (ha.trans (heq.trans hc'.symm))
      exact ⟨[], by simp, rfl⟩
  have hlength : g.span.length = Text.width m := by
    rw [Text.width_append] at hc'
    rw [Span.length]
    omega
  unfold Fragment.ofRegion?
  simp only [← ha, hlength, Text.splitAt?_width_append, Option.bind_eq_bind, Option.bind_some]
  exact ⟨_, rfl⟩

theorem exists_fragmentsAt? {source : Text} {regions : List Region}
    (h : ∀ g ∈ regions, source.Boundary g.span.start ∧ source.Boundary g.span.stop) :
    ∃ fs, fragmentsAt? source regions = some fs := by
  unfold fragmentsAt?
  induction regions with
  | nil => exact ⟨[], rfl⟩
  | cons g gs ih =>
    obtain ⟨f, hf⟩ := Fragment.exists_ofRegion? (h g (by simp)).1 (h g (by simp)).2
    obtain ⟨fs, hfs⟩ := ih fun k hk => h k (List.mem_cons_of_mem _ hk)
    exact ⟨f :: fs, by rw [List.mapM_cons, hf, hfs]; rfl⟩

/-! ## Main result -/

namespace Buffer

/-- Whatever regions of a text a buffer is fed with, in any order and overlapping or
not, no offset ever comes to lie outside the text or inside a character. After every
fragment the offsets are sound, no cut so far has failed and none fails when the
buffer is closed, and it comes to the text that the lines by themselves come to. -/
theorem feeds_sound {policy : Policy} {source : Text} {regions : List Region}
    (h : ∀ g ∈ regions, source.Boundary g.span.start ∧ source.Boundary g.span.stop) :
    ∃ fs, fragmentsAt? source regions = some fs ∧
      (∀ front back, fs = front ++ back → ∃ b, feeds? policy front = some b ∧ b.Sound ∧
        b.close? policy = some (stripFragments policy front)) ∧
      strip? policy source regions = some (stripFragments policy fs) := by
  obtain ⟨fs, hfs⟩ := exists_fragmentsAt? h
  refine ⟨fs, hfs, ?_, by rw [strip?_eq, hfs]; rfl⟩
  rintro front back -
  obtain ⟨hfeeds, hrowed⟩ := feeds?_eq policy front
  exact ⟨_, hfeeds, sound_ofBuild hrowed, close?_ofBuild policy _⟩

/-- A literal, in front of it a comment over two lines, then what stands in front of
both, and no characters at all as a comment. -/
theorem feeds_sound_backwards :
    ∃ (source : Text) (regions : List Region),
      source = ['é', '/', '*', '\n', '*', '/', ' ', '"', 'x', ' ', '"'] ∧
      regions.map (fun g => (g.kind, g.span.start, g.span.stop)) =
        [(.stringLiteral, 8, 12), (.blockComment, 2, 7), (.code, 0, 2), (.lineComment, 0, 0)] ∧
      (∀ g ∈ regions, source.Boundary g.span.start ∧ source.Boundary g.span.stop) ∧
      ∃ fs b, fragmentsAt? source regions = some fs ∧ feeds? .preserve fs = some b ∧ b.Sound ∧
        b.close? .preserve = some ['"', 'x', ' ', '"', '\n', 'é'] := by
  have hboundary : ∀ g ∈ ([⟨.stringLiteral, ⟨8, 12, by decide⟩⟩, ⟨.blockComment, ⟨2, 7, by decide⟩⟩,
      ⟨.code, ⟨0, 2, by decide⟩⟩, ⟨.lineComment, ⟨0, 0, by decide⟩⟩] : List Region),
      Text.Boundary ['é', '/', '*', '\n', '*', '/', ' ', '"', 'x', ' ', '"'] g.span.start ∧
        Text.Boundary ['é', '/', '*', '\n', '*', '/', ' ', '"', 'x', ' ', '"'] g.span.stop := by
    simp only [Text.boundary_iff]
    decide
  obtain ⟨fs, hfs, hsound, hstrip⟩ := @feeds_sound .preserve _ _ hboundary
  obtain ⟨b, hb, hsound, hclose⟩ := hsound fs [] (by simp)
  refine ⟨_, _, rfl, rfl, hboundary, fs, b, hfs, hb, hsound, ?_⟩
  rw [hclose, ← hstrip]
  decide

end Buffer
end Gloss
