import Mathlib.Logic.Relation
import Gloss.Proofs.Driving
import Gloss.Proofs.Fragment
/-!
# What ends a construct

`EndsWith` watches a scanner turn by turn and says what ended a region when a
turn gave it. All along, a construct in progress is going to be the first lexeme
of the text from its start on (`Pending`, kept by every move), so a comment or
literal of a text is given when its lexeme is read, and what ended it is what
follows the lexeme: `endsWith_iff`.
-/

namespace Gloss

/-- The construct that has been read up to `inside` is, as it is going to be, the
first lexeme from where it started. -/
def Mode.Pending (r : Rules) (mode : Mode) (inside rest : Text) : Prop :=
  mode ≠ .code →
    r.First ⟨mode.kind, inside ++ (mode.cut r rest).inside, (mode.cut r rest).closed⟩
      (mode.cut r rest).rest

theorem Mode.pending_code {r : Rules} {inside rest : Text} : Mode.code.Pending r inside rest :=
  fun h => absurd rfl h

namespace Scanner
open Relation

/-- A turn leads from one scanner to the other. -/
def Leads (s t : Scanner) : Prop := ∃ g?, s.turn? = some (g?, t)

/-- Some turn of a scanner of the text gives the region, and `e` is what ends it
there. -/
def EndsWith (r : Rules) (source : Text) (g : Region) (e : Ending) : Prop :=
  ∃ s t, ReflTransGen Leads (ofText r source) s ∧ s.turn? = some (some g, t) ∧ s.ending = e

/-- The scanner stands in the text, in code or in what is going to be a lexeme. -/
def Pending (r : Rules) (source : Text) (s : Scanner) : Prop :=
  ∃ mode before inside rest, s = within r mode before inside rest ∧
    source = before ++ (inside ++ rest) ∧ mode.Pending r inside rest

variable {r : Rules} {source before inside rest : Text} {mode : Mode} {s t : Scanner}
  {g : Region} {gs : List Region} {x : Option Region × Scanner}

/-! ## A construct in progress -/

theorem pending_ofOpener {o : Opener} (ho : r.opener? (o.token ++ rest) = some o) :
    (Mode.ofOpener o).Pending r o.token rest := by
  intro _
  have hm := (Rules.mem_of_opener? ho).1
  rw [cut_ofOpener hm, kind_ofOpener]
  refine .construct ?_ (Rules.ends_cut hm rest)
  rw [Rules.cut_append]
  exact ho

theorem Move.pending (hm : Move r before inside mode rest x)
    (hs : source = before ++ (inside ++ rest)) (hp : mode.Pending r inside rest) :
    Pending r source x.2 := by
  cases hm with
  | @code c rest _ =>
    exact ⟨.code, before, inside ++ [c], rest, rfl, by rw [hs]; simp, Mode.pending_code⟩
  | @opens o rest ho =>
    refine ⟨.ofOpener o, before ++ inside, o.token, rest, rfl, ?_, pending_ofOpener ho⟩
    rw [hs, List.append_assoc]
  | @reads read _ mode' rest _ hne _ hkind hcut =>
    -- what was to come is read, so the lexeme is the same
    refine ⟨mode', before, inside ++ read, rest, rfl, by rw [hs]; simp, fun _ => ?_⟩
    have hfirst := hp hne
    rw [hcut] at hfirst
    rw [hkind, List.append_assoc]
    exact hfirst
  | @ends read _ rest _ _ _ _ =>
    -- what comes next is code again, of which nothing is said
    refine ⟨.code, before ++ (inside ++ read), [], rest, finish_eq_within .., ?_, Mode.pending_code⟩
    rw [hs]
    simp

theorem pending (h : ReflTransGen Leads (ofText r source) s) : Pending r source s := by
  induction h with
  | refl => exact ⟨.code, [], [], source, ofText_eq r source, rfl, Mode.pending_code⟩
  | tail _ hlead ih =>
    obtain ⟨mode, before, inside, rest, rfl, hs, hp⟩ := ih
    obtain ⟨g?, hturn⟩ := hlead
    obtain ⟨x, hx, hm⟩ := Scanner.move r before inside mode rest
    obtain rfl := Option.some.inj (hturn.symm.trans hx)
    exact hm.pending hs hp

/-- A construct is given as the lexeme it was going to be. -/
theorem Move.lexeme (hm : Move r before inside mode rest x) (hp : mode.Pending r inside rest)
    (hg : x.1 = some g) (hk : g.kind.hasCloser = true) :
    ∃ l rest', r.First l rest' ∧ inside ++ rest = l.text ++ rest' ∧
      g = regionOf l.kind before l.text ∧
      (within r mode before inside rest).ending = .behind l.closed rest' := by
  cases hm with
  | code _ => cases hg
  | reads _ _ _ _ _ _ => cases hg
  | opens _ =>
    by_cases hi : inside = []
    · rw [hi, finish_within_nil] at hg
      cases hg
    · rw [finish_within _ hi] at hg
      obtain rfl := Option.some.inj hg
      cases hk
  | @ends read _ rest closed _ hcut hending =>
    by_cases hi : inside ++ read = []
    · rw [hi, finish_within_nil] at hg
      cases hg
    · rw [finish_within _ hi] at hg
      obtain rfl := Option.some.inj hg
      -- code has no closer, so this is a construct
      have hne : mode ≠ .code := by
        rintro rfl
        cases hk
      have hfirst := hp hne
      rw [hcut] at hfirst
      exact ⟨_, rest, hfirst, by rw [List.append_assoc], rfl, hending hk⟩

/-! ## Every region is given by a turn -/

theorem Call.leads {through : List Scanner} {g? : Option Region} (h : s.Call through g? t) :
    ∃ u, ReflTransGen Leads s u ∧ u.turn? = some (g?, t) := by
  induction h with
  | @last s t g? h _ => exact ⟨s, .refl, h⟩
  | turn _ h _ ih =>
    obtain ⟨u, hu, hturn⟩ := ih
    exact ⟨u, .head ⟨none, h⟩ hu, hturn⟩

theorem Gives.exists_turn (h : s.Gives gs) (hs : s.Within r source) (hg : g ∈ gs) :
    ∃ t u, ReflTransGen Leads s t ∧ t.turn? = some (some g, u) := by
  induction h with
  | done _ => cases hg
  | @more s t k gs hnext _ ih =>
    obtain ⟨through, g?, u, hcall, -, -, hu, -⟩ := exists_call hs
    have heq := hcall.next?_eq.symm.trans hnext
    rw [Option.some.injEq, Prod.mk.injEq] at heq
    obtain ⟨rfl, rfl⟩ := heq
    obtain ⟨v, hv, hturn⟩ := hcall.leads
    rcases List.mem_cons.1 hg with rfl | hg
    · exact ⟨v, _, hv, hturn⟩
    · obtain ⟨w, z, hw, hgiven⟩ := ih hu hg
      exact ⟨w, z, hv.trans (.head ⟨some k, hturn⟩ hw), hgiven⟩

/-- What ends a comment or literal of a text is what stands behind its lexeme. -/
theorem endsWith_iff {f : Fragment} {closed : Bool} {e : Ending}
    (hf : f ∈ r.fragments (before ++ (f.text ++ rest)))
    (hspan : f.span = .ofLength (Text.width before) (Text.width f.text))
    (hfirst : r.First ⟨f.kind, f.text, closed⟩ rest) (hk : f.kind.hasCloser = true) :
    EndsWith r (before ++ (f.text ++ rest)) f.region e ↔ e = .behind closed rest := by
  have hending : ∀ {s t}, ReflTransGen Leads (ofText r (before ++ (f.text ++ rest))) s →
      s.turn? = some (some f.region, t) → s.ending = .behind closed rest := by
    intro s t hs hturn
    obtain ⟨mode, before', inside, rest', rfl, hsource, hp⟩ := pending hs
    obtain ⟨x, hx, hm⟩ := Scanner.move r before' inside mode rest'
    obtain rfl := Option.some.inj (hturn.symm.trans hx)
    obtain ⟨l, rest'', hl, hin, hregion, hend⟩ := hm.lexeme hp rfl hk
    -- the same place in the text, so the same lexeme
    have hwidth : Text.width before = Text.width before' := by
      have hstart := congrArg (·.span.start) hregion
      simpa [Fragment.region, hspan, regionOf, Span.ofLength] using hstart
    obtain ⟨-, htext⟩ := Rules.append_inj_of_width hsource hwidth
    have hcons := hl.lexemes_append
    rw [← hin, ← htext, hfirst.lexemes_append, List.cons.injEq] at hcons
    obtain ⟨rfl, -⟩ := hcons
    rw [hend, List.append_cancel_left (htext.trans hin)]
  constructor
  · rintro ⟨s, t, hs, hturn, rfl⟩
    exact hending hs hturn
  · rintro rfl
    have hmem : f.region ∈ r.scan (before ++ (f.text ++ rest)) := List.mem_map.2 ⟨f, hf, rfl⟩
    obtain ⟨s, t, hs, hturn⟩ := ((gives_iff r _ _).2 rfl).exists_turn (within_ofText r _) hmem
    exact ⟨s, t, hs, hturn, hending hs hturn⟩

end Scanner
end Gloss
