import Gloss.Proofs.Giving
/-!
# The spans of a text

`Rules.Tiling` is what the spans of a text are to be, said of the text and the
delimiters alone: they cover it one after the other, nothing opens in code, and
every other span is the construct that the longest opener at its start opens,
up to where such a construct ends. `tiling_iff`: there is exactly one list of
spans like that, the one a scan gives and a scanner gives one by one.
-/

namespace Gloss

/-! ## What the spans are to be -/

/-- The spans lie one after the other from `start` to `stop`. -/
def Contiguous (start stop : Nat) : List Region → Prop
  | [] => start = stop
  | g :: gs => g.span.start = start ∧ Contiguous g.span.stop stop gs

namespace Region

/-- No opener stands at a character of the region. -/
def Quiet (r : Rules) (source : Text) (g : Region) : Prop :=
  ∀ a b, source = a ++ b → g.span.start ≤ Text.width a → Text.width a < g.span.stop →
    ∀ o ∈ r.openers, ¬ o.token <+: b

/-- The region is the construct of the longest opener at its start. -/
def IsConstruct (r : Rules) (source : Text) (g : Region) : Prop :=
  ∃ a o inside closed b, source = a ++ (o.token ++ (inside ++ b)) ∧
    r.Longest (o.token ++ (inside ++ b)) o ∧ r.Ends o inside closed b ∧
    g.kind = o.kind ∧ g.span = .ofLength (Text.width a) (Text.width (o.token ++ inside))

end Region

/-- The spans of a text from byte offset `start` on. -/
structure Rules.Tiling (r : Rules) (source : Text) (start : Nat) (gs : List Region) : Prop where
  contiguous : Contiguous start (Text.width source) gs
  nonempty : ∀ g ∈ gs, g.span.start < g.span.stop
  apart : ∀ front g h back, gs = front ++ g :: h :: back → g.kind = .code → h.kind ≠ .code
  quiet : ∀ g ∈ gs, g.kind = .code → g.Quiet r source
  construct : ∀ g ∈ gs, g.kind ≠ .code → g.IsConstruct r source

/-! ## One span and those behind it -/

theorem Contiguous.start_le {start stop : Nat} {gs : List Region} (h : Contiguous start stop gs) :
    start ≤ stop := by
  induction gs generalizing start with
  | nil => exact Nat.le_of_eq h
  | cons g gs ih => exact h.1 ▸ Nat.le_trans g.span.start_le_stop (ih h.2)

theorem Contiguous.stop_le {start stop : Nat} {gs : List Region} (h : Contiguous start stop gs) :
    ∀ g ∈ gs, g.span.stop ≤ stop := by
  induction gs generalizing start with
  | nil => simp
  | cons k gs ih =>
    intro g hg
    rcases List.mem_cons.1 hg with rfl | hg
    · exact h.2.start_le
    · exact ih h.2 g hg

theorem Span.eq_ofLength {s : Span} {start n : Nat} (hs : s.start = start)
    (hn : s.stop = start + n) : s = .ofLength start n := by
  obtain ⟨a, b, h⟩ := s
  simp only at hs hn
  subst hs hn
  rfl

namespace Rules
variable {r : Rules} {source : Text} {start : Nat} {g : Region} {gs : List Region}

theorem Tiling.tail (h : r.Tiling source start (g :: gs)) : r.Tiling source g.span.stop gs where
  contiguous := h.contiguous.2
  nonempty k hk := h.nonempty k (List.mem_cons_of_mem _ hk)
  apart front a b back he := h.apart (g :: front) a b back (by rw [he, List.cons_append])
  quiet k hk := h.quiet k (List.mem_cons_of_mem _ hk)
  construct k hk := h.construct k (List.mem_cons_of_mem _ hk)

theorem Tiling.cons (h : r.Tiling source g.span.stop gs) (hne : g.span.start < g.span.stop)
    (hquiet : g.kind = .code → g.Quiet r source)
    (hconstruct : g.kind ≠ .code → g.IsConstruct r source)
    (hnext : ∀ k, gs.head? = some k → g.kind = .code → k.kind ≠ .code) :
    r.Tiling source g.span.start (g :: gs) where
  contiguous := ⟨rfl, h.contiguous⟩
  nonempty := by simpa using ⟨hne, h.nonempty⟩
  apart := by
    intro front a b back he
    rcases front with _ | ⟨k, front⟩
    · rw [List.nil_append, List.cons.injEq] at he
      obtain ⟨rfl, rfl⟩ := he
      exact hnext b rfl
    · rw [List.cons_append, List.cons.injEq] at he
      exact h.apart front a b back he.2
  quiet := by simpa using ⟨hquiet, h.quiet⟩
  construct := by simpa using ⟨hconstruct, h.construct⟩

theorem Tiling.eq_nil (h : r.Tiling source (Text.width source) gs) : gs = [] := by
  rcases gs with _ | ⟨g, gs⟩
  · rfl
  · have hg := h.nonempty g (List.mem_cons_self ..)
    have hs := h.contiguous.1
    have he := h.contiguous.2.start_le
    omega

theorem Tiling.exists_cons (h : r.Tiling source start gs) (hlt : start < Text.width source) :
    ∃ g gs', gs = g :: gs' ∧ g.span.start = start := by
  rcases gs with _ | ⟨g, gs⟩
  · have : start = Text.width source := h.contiguous
    omega
  · exact ⟨g, gs, rfl, h.contiguous.1⟩

/-! ## Offsets and prefixes -/

/-- A text splits in one way at a byte offset. -/
theorem append_inj_of_width {a b c d : Text} (h : a ++ b = c ++ d)
    (hw : Text.width a = Text.width c) : a = c ∧ b = d := by
  have ha := Text.splitAt?_width_append a b
  rw [h, hw, Text.splitAt?_width_append] at ha
  simp only [Option.some.injEq, Prod.mk.injEq] at ha
  exact ⟨ha.1.symm, ha.2.symm⟩

/-- Of two ways to split a text the one further on splits the rest. -/
theorem exists_between {a b c d : Text} (h : a ++ b = c ++ d) (hw : Text.width a < Text.width c) :
    ∃ m, m ≠ [] ∧ c = a ++ m ∧ b = m ++ d := by
  rcases List.append_eq_append_iff.1 h with ⟨m, rfl, rfl⟩ | ⟨m, rfl, rfl⟩
  · refine ⟨m, ?_, rfl, rfl⟩
    rintro rfl
    simp at hw
  · rw [Text.width_append] at hw
    omega

/-! ## The regions of lexemes -/

/-- The regions of lexemes laid out from an offset on. -/
theorem map_region_layOut (offset : Nat) (l : Lexeme) (ls : List Lexeme) :
    (layOut offset (l :: ls)).map (·.region) =
      ⟨l.kind, .ofLength offset (Text.width l.text)⟩ ::
        (layOut (offset + Text.width l.text) ls).map (·.region) := rfl

theorem head?_layOut {offset : Nat} {ls : List Lexeme} {k : Region}
    (h : ((layOut offset ls).map (·.region)).head? = some k) :
    ∃ l, ls.head? = some l ∧ l.kind = k.kind := by
  rcases ls with _ | ⟨l, ls⟩
  · simp [layOut] at h
  · refine ⟨l, rfl, ?_⟩
    rw [map_region_layOut, List.head?_cons, Option.some.injEq] at h
    rw [← h]

/-- Code is followed by a construct. -/
theorem head?_lexemes_of_code {code rest : Text} (h : r.Code code rest) {l : Lexeme}
    (hl : (r.lexemes rest).head? = some l) : l.kind ≠ .code := by
  rcases h.stops with rfl | ⟨o, ho⟩
  · simp at hl
  · obtain ⟨inside, closed, rest, rfl, he⟩ := exists_ends ho
    rw [lexemes_construct ho he, List.head?_cons, Option.some.injEq] at hl
    rw [← hl]
    exact kind_ne_code (mem_of_opener? ho).1

/-- Nothing opens in a region of code. -/
theorem quiet_of_code {before code rest : Text} (hne : code ≠ []) (hc : r.Code code rest) :
    Region.Quiet r (before ++ (code ++ rest))
      ⟨.code, .ofLength (Text.width before) (Text.width code)⟩ := by
  intro a b he hle hlt
  simp only [Span.ofLength] at hle hlt
  rw [← opener?_eq_none_iff]
  rcases Nat.lt_or_eq_of_le hle with hlt' | heq
  · obtain ⟨m, hm, rfl, hrest⟩ := exists_between he hlt'
    rcases List.append_eq_append_iff.1 hrest with ⟨x, rfl, rfl⟩ | ⟨x, rfl, rfl⟩
    · simp only [Text.width_append] at hlt
      omega
    · refine hc.quiet m x rfl ?_
      rintro rfl
      simp at hlt
  · obtain ⟨rfl, rfl⟩ := append_inj_of_width he heq
    exact hc.quiet [] code rfl hne

/-- The first span of a tiling is what the first lexeme is. -/
theorem Tiling.code_of_quiet {before code rest : Text} (hne : code ≠ []) (hc : r.Code code rest)
    (h : r.Tiling (before ++ (code ++ rest)) (Text.width before) (g :: gs)) :
    g = ⟨.code, .ofLength (Text.width before) (Text.width code)⟩ := by
  have hstart : g.span.start = Text.width before := h.contiguous.1
  have hlt := h.nonempty g (List.mem_cons_self ..)
  have hk : g.kind = .code := by
    refine Decidable.byContradiction fun hk => ?_
    obtain ⟨a, o, inside, closed, b, he, hl, -, -, hs⟩ := h.construct g (List.mem_cons_self ..) hk
    rw [hs] at hstart
    obtain ⟨-, he⟩ := append_inj_of_width he hstart.symm
    have hq := hc.quiet [] code rfl hne
    rw [he, opener?_eq_some_iff.2 hl] at hq
    cases hq
  have hq := h.quiet g (List.mem_cons_self ..) hk
  -- behind the first span the text is over or something opens
  have hstop : ∃ a b, before ++ (code ++ rest) = a ++ b ∧ Text.width a = g.span.stop ∧
      (b = [] ∨ ∃ o, r.opener? b = some o) := by
    rcases gs with _ | ⟨k, gs⟩
    · exact ⟨_, [], (List.append_nil _).symm, h.contiguous.2.symm, .inl rfl⟩
    · have hk' := h.apart [] g k gs rfl hk
      obtain ⟨a, o, inside, closed, b, he, hl, -, -, hs⟩ := h.construct k (by simp) hk'
      have hks : k.span.start = g.span.stop := h.contiguous.2.1
      rw [hs] at hks
      exact ⟨a, _, he, hks, .inr ⟨o, opener?_eq_some_iff.2 hl⟩⟩
  obtain ⟨a, b, he, hw, hb⟩ := hstop
  obtain ⟨m, hm, rfl, hrest⟩ := exists_between he (by omega)
  have hcode : r.Code m b := by
    refine ⟨?_, hb⟩
    intro x y hxy hy
    rw [opener?_eq_none_iff]
    have hwy := Text.width_pos hy
    refine hq (before ++ x) (y ++ b) (by simp [he, hxy]) ?_ ?_
    · rw [Text.width_append]; omega
    · rw [← hw, hxy, Text.width_append, Text.width_append, Text.width_append]; omega
  have hcut := cutCode_of_code hc
  rw [hrest, cutCode_of_code hcode, Prod.mk.injEq] at hcut
  rw [hcut.1, Text.width_append] at hw
  rw [← hk, ← Span.eq_ofLength hstart hw.symm]

theorem Tiling.eq_construct {before : Text} {o : Opener} {inside rest : Text} {closed : Bool}
    (ho : r.opener? (o.token ++ (inside ++ rest)) = some o) (he : r.Ends o inside closed rest)
    (h : r.Tiling (before ++ (o.token ++ (inside ++ rest))) (Text.width before) (g :: gs)) :
    g = ⟨o.kind, .ofLength (Text.width before) (Text.width (o.token ++ inside))⟩ := by
  have hm := mem_of_opener? ho
  have hstart : g.span.start = Text.width before := h.contiguous.1
  have hlt := h.nonempty g (List.mem_cons_self ..)
  have hk : g.kind ≠ .code := by
    intro hk
    exact h.quiet g (List.mem_cons_self ..) hk before _ rfl (Nat.le_of_eq hstart) (by omega) o
      hm.1 hm.2
  obtain ⟨a, p, inside', closed', b, hs, hl, he', hkind, hspan⟩ :=
    h.construct g (List.mem_cons_self ..) hk
  rw [hspan] at hstart
  obtain ⟨-, hs⟩ := append_inj_of_width hs hstart.symm
  rw [← hs] at hl
  obtain rfl : p = o := hl.unique (longest_of_opener? ho)
  have hs := List.append_cancel_left hs
  have hcut := cut_of_ends hm.1 he
  rw [hs, cut_of_ends hm.1 he', Cut.mk.injEq] at hcut
  have hw : Text.width a = Text.width before := hstart
  rw [hw, hcut.1] at hspan
  rw [← hkind, ← hspan]

/-! ## Exactly one tiling -/

theorem tiling_append_iff (s : Text) : ∀ (before : Text) (gs : List Region),
    r.Tiling (before ++ s) (Text.width before) gs ↔
      gs = (layOut (Text.width before) (r.lexemes s)).map (·.region) := by
  induction s using reading r with
  | nil =>
    intro before gs
    rw [lexemes_nil, List.append_nil]
    constructor
    · exact Tiling.eq_nil
    · rintro rfl
      exact ⟨rfl, by simp [layOut], by simp [layOut], by simp [layOut], by simp [layOut]⟩
  | code code rest hne hc ih =>
    intro before gs
    have hw := Text.width_pos hne
    have ih := ih (before ++ code)
    rw [List.append_assoc, Text.width_append] at ih
    rw [lexemes_code hne hc, map_region_layOut]
    constructor
    · intro h
      obtain ⟨g, gs, rfl, hg⟩ := h.exists_cons (by simp only [Text.width_append]; omega)
      have hfirst := h.code_of_quiet hne hc
      have htail := h.tail
      rw [hfirst] at htail ⊢
      rw [(ih gs).1 htail]
    · rintro rfl
      refine Tiling.cons (g := ⟨.code, .ofLength (Text.width before) (Text.width code)⟩)
        ((ih _).2 rfl) (by simp only [Span.ofLength]; omega) (fun _ => quiet_of_code hne hc)
        (by simp) ?_
      intro k hk _
      obtain ⟨l, hl, hlk⟩ := head?_layOut hk
      rw [← hlk]
      exact head?_lexemes_of_code hc hl
  | construct o inside closed rest ho he ih =>
    intro before gs
    have hm := mem_of_opener? ho
    have hw := Text.width_pos (token_ne_nil hm.1)
    have ih := ih (before ++ (o.token ++ inside))
    rw [List.append_assoc, List.append_assoc, Text.width_append] at ih
    rw [lexemes_construct ho he, map_region_layOut]
    constructor
    · intro h
      obtain ⟨g, gs, rfl, hg⟩ := h.exists_cons (by simp only [Text.width_append]; omega)
      have hfirst := h.eq_construct ho he
      have htail := h.tail
      rw [hfirst] at htail ⊢
      rw [(ih gs).1 htail]
    · rintro rfl
      have hk := kind_ne_code hm.1
      refine Tiling.cons
        (g := ⟨o.kind, .ofLength (Text.width before) (Text.width (o.token ++ inside))⟩)
        ((ih _).2 rfl) ?_ (fun h => absurd h hk) ?_ (fun _ _ h => absurd h hk)
      · simp only [Span.ofLength, Text.width_append]
        omega
      · intro _
        exact ⟨before, o, inside, closed, rest, rfl, longest_of_opener? ho, he, rfl, rfl⟩

/-- A scan gives the one list of spans that is a tiling of the text, and a
scanner gives that list, call after call. -/
theorem tiling_iff (r : Rules) (source : Text) (gs : List Region) :
    (r.Tiling source 0 gs ↔ gs = r.scan source) ∧
      (r.Tiling source 0 gs ↔ (Scanner.ofText r source).Gives gs) := by
  have h : r.Tiling source 0 gs ↔ gs = r.scan source := tiling_append_iff source [] gs
  refine ⟨h, ?_⟩
  rw [h, Scanner.gives_iff]

end Rules
end Gloss
