import Gloss.Proofs.Tiling
/-!
# Driving a scanner

A scanner may be called any number of times, also after it has no region left.
`Call` is a whole call with the scanners its turns start from. However often it
was called, a scanner stands in its text between two characters
(`Scanner.Within`): no turn fails there and every turn leads to such a scanner
again (`turn?_of_within`), and a call takes no more turns than its text has bytes
left, twice counted (`exists_call`). `calls_driven` is what that comes to for any
number of calls.
-/

namespace Gloss

/-- The offset lies in the text, between two characters or at an end. -/
def Text.Boundary (s : Text) (offset : Nat) : Prop := ∃ a b, s = a ++ b ∧ width a = offset

namespace Scanner

/-- A call: the scanners its turns start from, what it gives and the scanner it
leaves. It is over when a turn gives a region or the text is at its end. -/
inductive Call : Scanner → List Scanner → Option Region → Scanner → Prop
  | last {s t : Scanner} {g? : Option Region} : s.turn? = some (g?, t) →
      g?.isSome = true ∨ s.cursor.atEnd = true → Call s [s] g? t
  | turn {s t u : Scanner} {g? : Option Region} {through : List Scanner} :
      s.cursor.atEnd = false → s.turn? = some (none, t) → Call t through g? u →
      Call s (s :: through) g? u

/-- What a number of calls give, and the scanner they leave. -/
def calls? : Nat → Scanner → Option (List (Option Region) × Scanner)
  | 0, s => some ([], s)
  | n + 1, s => do
    let (g?, t) ← s.next?
    let (gs, u) ← t.calls? n
    return (g? :: gs, u)

/-- The scanner stands between two characters of the text, and the region in
progress starts between two. -/
def Within (r : Rules) (source : Text) (s : Scanner) : Prop :=
  ∃ mode before inside rest, s = within r mode before inside rest ∧
    source = before ++ (inside ++ rest)

/-- What was given reaches from `start` to `stop`, if anything was. -/
def Reaches (start : Nat) (g? : Option Region) (stop : Nat) : Prop :=
  match g? with
  | none => stop = start
  | some g => g.span.start = start ∧ g.span.stop = stop ∧ start < stop

variable {r : Rules} {source : Text} {s t u : Scanner} {g? : Option Region}

/-! ## One turn -/

theorem Within.position (h : s.Within r source) : source.Boundary s.position := by
  obtain ⟨mode, before, inside, rest, rfl, rfl⟩ := h
  exact ⟨before ++ inside, rest, by rw [List.append_assoc], rfl⟩

theorem Within.start (h : s.Within r source) : source.Boundary s.start := by
  obtain ⟨mode, before, inside, rest, rfl, rfl⟩ := h
  exact ⟨before, inside ++ rest, rfl, rfl⟩

theorem Within.start_le (h : s.Within r source) : s.start ≤ s.position := by
  obtain ⟨mode, before, inside, rest, rfl, rfl⟩ := h
  simp [within, Scanner.position]

theorem within_ofText (r : Rules) (source : Text) : (ofText r source).Within r source :=
  ⟨.code, [], [], source, ofText_eq r source, rfl⟩

section Turn
variable {mode mode' : Mode} {before inside rest : Text}

theorem reaches_finish (mode mode' : Mode) (before inside rest : Text) :
    Reaches (Text.width before) ((within r mode before inside rest).finish mode').1
      (Text.width (before ++ inside)) := by
  by_cases h : inside = []
  · rw [h, finish_within_nil, List.append_nil]
    rfl
  · have := Text.width_pos h
    rw [finish_within _ h, Text.width_append]
    exact ⟨rfl, rfl, by omega⟩

theorem finish_eq_within (mode mode' : Mode) (before inside rest : Text) :
    ((within r mode before inside rest).finish mode').2 =
      within r mode' (before ++ inside) [] rest := by
  by_cases h : inside = []
  · rw [h, finish_within_nil, List.append_nil]
  · rw [finish_within _ h]

/-- A turn goes on in the same region, or ends it and starts the next one. -/
def Turns (r : Rules) (source before : Text) (x : Option Region × Scanner) : Prop :=
  Within r source x.2 ∧ Reaches (Text.width before) x.1 x.2.start

theorem turns_extend (h : source = before ++ (inside ++ rest)) :
    Turns r source before (none, within r mode before inside rest) :=
  ⟨⟨_, _, _, _, rfl, h⟩, rfl⟩

theorem turns_finish (h : source = before ++ (inside ++ rest)) :
    Turns r source before ((within r mode before inside rest).finish mode') := by
  refine ⟨⟨mode', before ++ inside, [], rest, finish_eq_within .., ?_⟩, ?_⟩
  · rw [h, List.nil_append, List.append_assoc]
  · rw [finish_eq_within]
    exact reaches_finish ..

/-- Whatever a turn does, it does that. -/
theorem turns_of_move {x : Option Region × Scanner} (h : source = before ++ (inside ++ rest))
    (hm : Move r before inside mode rest x) : Turns r source before x := by
  cases hm with
  | code _ => exact turns_extend (by rw [h]; simp)
  | @opens o rest _ =>
    refine ⟨⟨_, before ++ inside, o.token, rest, rfl, ?_⟩, reaches_finish .code (.ofOpener o) ..⟩
    rw [h, List.append_assoc]
  | reads _ _ _ _ _ _ => exact turns_extend (by rw [h]; simp)
  | ends _ _ _ _ => exact turns_finish (by rw [h]; simp)

end Turn

/-- Inside a text no turn fails, and each leads to a scanner inside the text. -/
theorem turn?_of_within (h : s.Within r source) :
    ∃ g? t, s.turn? = some (g?, t) ∧ t.Within r source ∧ Reaches s.start g? t.start := by
  obtain ⟨mode, before, inside, rest, rfl, hs⟩ := h
  obtain ⟨x, hx, hm⟩ := move r before inside mode rest
  have hturns := turns_of_move hs hm
  exact ⟨x.1, x.2, hx, hturns.1, hturns.2⟩

/-! ## One call -/

theorem Call.next?_eq {through : List Scanner} (h : s.Call through g? t) :
    s.next? = some (g?, t) := by
  induction h with
  | @last s t g? h hlast =>
    by_cases he : s.cursor.atEnd = true
    · rw [turn?, if_pos he] at h
      rw [next?, dif_pos he, h]
    · have he : s.cursor.atEnd = false := by simpa using he
      rw [turn?_of_step? he] at h
      rw [next?_of_step? he h, if_pos (hlast.resolve_right (by simp [he]))]
  | turn he h _ ih =>
    rw [turn?_of_step? he] at h
    rw [next?_of_step? he h]
    exact ih

/-- At the end of the text a scanner that gives nothing stays as it is. -/
theorem eq_of_over (h : s.Within r source) (he : s.cursor.atEnd = true)
    (ht : s.turn? = some (none, t)) : t = within r .code source [] [] := by
  obtain ⟨mode, before, inside, rest, rfl, rfl⟩ := h
  obtain rfl : rest = [] := by simpa using he
  rw [turn?, if_pos he] at ht
  by_cases hi : inside = []
  · subst hi
    rw [finish_within_nil, Option.some.injEq, Prod.mk.injEq] at ht
    simpa using ht.2.symm
  · rw [finish_within _ hi] at ht
    simp at ht

/-- A call ends, and all its turns start inside the text. -/
theorem exists_call (h : s.Within r source) :
    ∃ through g? t, s.Call through g? t ∧ through.length ≤ s.togo + 1 ∧
      (∀ u ∈ through, u.Within r source) ∧ t.Within r source ∧ Reaches s.start g? t.start ∧
      (g? = none → t = within r .code source [] []) := by
  -- a turn that gives nothing leaves less to go
  generalize hn : s.togo = n
  induction n using Nat.strongRecOn generalizing s with
  | ind n ih =>
    obtain ⟨g?, t, hturn, ht, hreach⟩ := turn?_of_within h
    by_cases hlast : g?.isSome = true ∨ s.cursor.atEnd = true
    · refine ⟨[s], g?, t, .last hturn hlast, by simp, by simpa using h, ht, hreach, ?_⟩
      rintro rfl
      exact eq_of_over h (hlast.resolve_left (by simp)) hturn
    · obtain ⟨hnone, he⟩ := not_or.1 hlast
      obtain rfl : g? = none := by simpa using hnone
      have he : s.cursor.atEnd = false := by simpa using he
      have hlt : t.togo < n := hn ▸ togo_lt_of_step? he (turn?_of_step? he ▸ hturn)
      obtain ⟨through, g?, u, hcall, hlen, hthrough, hu, hreach', hover⟩ := ih _ hlt ht rfl
      have hstart : t.start = s.start := hreach
      refine ⟨s :: through, g?, u, .turn he hturn hcall, ?_, ?_, hu, hstart ▸ hreach', hover⟩
      · rw [List.length_cons]
        omega
      · simpa using ⟨h, hthrough⟩

theorem togo_le (h : s.Within r source) :
    s.togo + 1 ≤ 2 * (Text.width source - s.position) + 2 := by
  obtain ⟨mode, before, inside, rest, rfl, rfl⟩ := h
  simp only [togo, cursor_within, Cursor.size_bytes_between, Scanner.position, Text.width_append,
    Cursor.position_between]
  split <;> omega

/-! ## Any number of calls -/

/-- Behind the text a scanner has nothing to give and stays as it is. -/
theorem calls?_over (r : Rules) (source : Text) (n : Nat) :
    (within r .code source [] []).calls? n =
      some (List.replicate n none, within r .code source [] []) := by
  induction n with
  | zero => rfl
  | succ n ih =>
    rw [calls?, next?_within_nil, finish_within_nil]
    simp only [Option.bind_eq_bind, Option.bind_some, ih]
    rfl

/-- The regions given reach from `start` to `stop`, and each is part of the text. -/
structure Covers (source : Text) (start stop : Nat) (gs : List Region) : Prop where
  /-- Each starts where the one before it stopped. -/
  contiguous : Contiguous start stop gs
  nonempty : ∀ g ∈ gs, g.span.start < g.span.stop
  boundary : ∀ g ∈ gs, source.Boundary g.span.start ∧ source.Boundary g.span.stop

theorem Covers.cons {start mid stop : Nat} {gs : List Region} (h : Reaches start g? mid)
    (hstart : source.Boundary start) (hmid : source.Boundary mid) (hgs : Covers source mid stop gs) :
    Covers source start stop (g?.toList ++ gs) := by
  cases g? with
  | none =>
    obtain rfl : mid = start := h
    exact hgs
  | some g =>
    obtain ⟨rfl, rfl, hlt⟩ := h
    constructor
    · exact ⟨rfl, hgs.contiguous⟩
    · simpa using ⟨hlt, hgs.nonempty⟩
    · simpa using ⟨⟨hstart, hmid⟩, hgs.boundary⟩

theorem exists_calls (h : s.Within r source) (n : Nat) :
    ∃ answers t, s.calls? n = some (answers, t) ∧ answers.length = n ∧ t.Within r source ∧
      Covers source s.start t.start answers.reduceOption ∧
      (none ∈ answers → t = within r .code source [] []) := by
  induction n generalizing s with
  | zero => exact ⟨[], s, rfl, rfl, h, ⟨rfl, nofun, nofun⟩, nofun⟩
  | succ n ih =>
    obtain ⟨through, g?, t, hcall, -, -, ht, hreach, hover⟩ := exists_call h
    obtain ⟨answers, u, hcalls, hlen, hu, hcovers, hover'⟩ := ih ht
    refine ⟨g? :: answers, u, ?_, by rw [List.length_cons, hlen], hu, ?_, ?_⟩
    · rw [calls?, hcall.next?_eq]
      simp only [Option.bind_eq_bind, Option.bind_some, hcalls]
      rfl
    · have hcovers := hcovers.cons hreach h.start ht.start
      cases g? <;> exact hcovers
    · intro hnone
      rcases List.mem_cons.1 hnone with hg | hnone
      · -- the first call was at the end, so the others were too
        obtain rfl := hover hg.symm
        rw [calls?_over, Option.some.injEq, Prod.mk.injEq] at hcalls
        exact hcalls.2.symm
      · exact hover' hnone

/-- Where calls left the scanner, and what they gave. -/
structure Driven (source : Text) (answers : List (Option Region)) (s : Scanner) : Prop where
  /-- The spans given reach from 0 to where the region in progress starts. -/
  covers : Covers source 0 s.start answers.reduceOption
  position : source.Boundary s.position
  behind : ∀ g ∈ answers.reduceOption, g.span.stop ≤ s.position
  /-- Once a call gives nothing the spans given cover the text, and the scanner
  stays at its end and gives nothing more. -/
  finished : none ∈ answers → s.start = Text.width source ∧ s.position = Text.width source ∧
    ∀ m, s.calls? m = some (List.replicate m none, s)

/-- However often a scanner is called, it answers, its answers are the spans of a
part of the text, and the turns of the next call are few and start between two
characters each. -/
theorem calls_driven (r : Rules) (source : Text) (n : Nat) :
    ∃ answers s, (ofText r source).calls? n = some (answers, s) ∧ answers.length = n ∧
      Driven source answers s ∧
      ∃ through g? t, s.Call through g? t ∧ s.next? = some (g?, t) ∧
        through.length ≤ 2 * (Text.width source - s.position) + 2 ∧
        ∀ u ∈ through, source.Boundary u.start ∧ source.Boundary u.position ∧ u.start ≤ u.position := by
  obtain ⟨answers, s, hcalls, hlen, hs, hcovers, hover⟩ := exists_calls (within_ofText r source) n
  obtain ⟨through, g?, t, hcall, hturns, hthrough, -⟩ := exists_call hs
  refine ⟨answers, s, hcalls, hlen, ⟨hcovers, hs.position, ?_, ?_⟩, through, g?, t, hcall,
    hcall.next?_eq, Nat.le_trans hturns (togo_le hs), ?_⟩
  · intro g hg
    exact Nat.le_trans (hcovers.contiguous.stop_le g hg) hs.start_le
  · intro hnone
    obtain rfl := hover hnone
    exact ⟨rfl, by simp [within, Scanner.position], calls?_over r source⟩
  · intro u hu
    have hu := hthrough u hu
    exact ⟨hu.start, hu.position, hu.start_le⟩

end Scanner
end Gloss
