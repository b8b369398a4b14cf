import Gloss.Proofs.Piece
/-!
# Fragments in their text

`Rules.First` says that a text starts with a lexeme and what follows it;
`byLexemes` is the induction that comes of it. `exists_first` finds a fragment of
a text in its place: what stands in front of it, the lexeme it is and what
follows. So the fragments of a text are those at the regions of its scan
(`fragmentsAt?_scan`).
-/

namespace Gloss
namespace Rules
variable {r : Rules}

/-- The lexeme stands at the front of a text in which `rest` follows it. -/
inductive First (r : Rules) : Lexeme → Text → Prop
  | code {code rest : Text} : code ≠ [] → r.Code code rest → First r ⟨.code, code, true⟩ rest
  | construct {o : Opener} {inside rest : Text} {closed : Bool} :
      r.opener? (o.token ++ (inside ++ rest)) = some o → r.Ends o inside closed rest →
      First r ⟨o.kind, o.token ++ inside, closed⟩ rest

theorem First.lexemes_append {l : Lexeme} {rest : Text} (h : r.First l rest) :
    r.lexemes (l.text ++ rest) = l :: r.lexemes rest := by
  cases h with
  | code hne hc => exact lexemes_code hne hc
  | construct ho he =>
    rw [List.append_assoc]
    exact lexemes_construct ho he

/-- Induction along the lexemes of a text, whatever they are. -/
@[elab_as_elim]
theorem byLexemes (r : Rules) {motive : Text → Prop} (nil : motive [])
    (cons : ∀ l rest, r.First l rest → motive rest → motive (l.text ++ rest)) (s : Text) :
    motive s := by
  induction s using reading r with
  | nil => exact nil
  | code code rest hne hc ih => exact cons _ rest (.code hne hc) ih
  | construct o inside closed rest ho he ih =>
    rw [← List.append_assoc]
    exact cons _ rest (.construct ho he) ih

/-! ## The place of a fragment -/

theorem exists_first_layOut {front back : List Fragment} {f : Fragment} {s : Text} :
    ∀ before : Text, layOut (Text.width before) (r.lexemes s) = front ++ f :: back →
      ∃ before' rest closed, before ++ s = before' ++ (f.text ++ rest) ∧
        f.span = .ofLength (Text.width before') (Text.width f.text) ∧ f.next = rest.head? ∧
        back = layOut f.span.stop (r.lexemes rest) ∧ r.First ⟨f.kind, f.text, closed⟩ rest := by
  induction s using byLexemes r generalizing front with
  | nil =>
    intro before h
    rw [lexemes_nil] at h
    simp [layOut] at h
  | cons l rest hl ih =>
    intro before h
    rw [hl.lexemes_append, layOut, head?_lexemes] at h
    rcases front with _ | ⟨g, front⟩
    · obtain ⟨rfl, rfl⟩ := List.cons.inj h
      exact ⟨before, rest, l.closed, rfl, rfl, rfl, rfl, hl⟩
    · rw [← Text.width_append] at h
      obtain ⟨before', rest', closed, hs, hplace⟩ := ih (before ++ l.text) (List.cons.inj h).2
      exact ⟨before', rest', closed, by rw [← hs, List.append_assoc], hplace⟩

/-- A fragment of a text: the part of the text it is, and the lexeme. -/
theorem exists_first {front back : List Fragment} {f : Fragment} {s : Text}
    (h : r.fragments s = front ++ f :: back) :
    ∃ before rest closed, s = before ++ (f.text ++ rest) ∧
      f.span = .ofLength (Text.width before) (Text.width f.text) ∧ f.next = rest.head? ∧
      back = layOut f.span.stop (r.lexemes rest) ∧ r.First ⟨f.kind, f.text, closed⟩ rest :=
  exists_first_layOut [] h

/-- The fragment at the region of a fragment is that one. -/
theorem ofRegion?_of_mem {f : Fragment} {s : Text} (h : f ∈ r.fragments s) :
    Fragment.ofRegion? s f.region = some f := by
  obtain ⟨front, back, hs⟩ := List.append_of_mem h
  obtain ⟨before, rest, closed, rfl, hspan, hnext, -⟩ := exists_first hs
  have hlength : f.span.length = Text.width f.text := by
    rw [hspan, Span.length, Span.ofLength, Nat.add_sub_cancel_left]
  have hstart : f.span.start = Text.width before := by
    rw [hspan]
    rfl
  unfold Fragment.ofRegion? Fragment.region
  simp only [hstart, hlength, Text.splitAt?_width_append, Option.bind_eq_bind, Option.bind_some,
    ← hnext]
  rfl

theorem mapM_ofRegion? {s : Text} {fs : List Fragment}
    (h : ∀ f ∈ fs, Fragment.ofRegion? s f.region = some f) :
    fragmentsAt? s (fs.map (·.region)) = some fs := by
  unfold fragmentsAt?
  induction fs with
  | nil => rfl
  | cons f fs ih =>
    rw [List.map_cons, List.mapM_cons, h f (by simp), ih fun g hg => h g (by simp [hg])]
    rfl

/-- The fragments of a text are those at the regions of its scan. -/
theorem fragmentsAt?_scan (r : Rules) (s : Text) : fragmentsAt? s (r.scan s) = some (r.fragments s) :=
  mapM_ofRegion? fun _ => ofRegion?_of_mem

end Rules
end Gloss
