import Gloss.Proofs.Append
/-!
# Scanning from a span on

A scan can be restarted where a span starts or stops: the spans from there on are
those of the text from there on, shifted (`scan_restart`). A scanner under way
may be inside a construct there, its opener read already; it goes on to give the
spans that one started afresh gives.
-/

namespace Gloss

/-- A scanner that gives these regions gives the first of them to so many calls,
and then gives the others. -/
theorem Scanner.Gives.exists_calls {s : Scanner} {front back : List Region}
    (h : s.Gives (front ++ back)) :
    ∃ t, s.calls? front.length = some (front.map some, t) ∧ t.Gives back := by
  induction front generalizing s with
  | nil => exact ⟨s, rfl, h⟩
  | cons g front ih =>
    cases h with
    | @more _ t _ _ hnext hgives =>
      obtain ⟨u, hcalls, hu⟩ := ih hgives
      refine ⟨u, ?_, hu⟩
      rw [List.length_cons, Scanner.calls?, hnext]
      simp only [Option.bind_eq_bind, Option.bind_some, hcalls]
      rfl

namespace Rules
variable {r : Rules} {source : Text} {front back : List Region} {g : Region}

/-- The regions of a text that starts at `offset`. -/
theorem map_region_scan (offset : Nat) (s : Text) :
    (layOut offset (r.lexemes s)).map (·.region) = (r.scan s).map (Region.shift offset) := by
  have h := map_region_shift offset (r.lexemes s) 0
  rwa [Nat.zero_add] at h

/-- The place of a region: the text in front of it, the text under it and the
text behind it, which is scanned by itself. -/
theorem exists_place (h : r.scan source = front ++ g :: back) :
    ∃ before text rest, source = before ++ (text ++ rest) ∧ g.span.start = Text.width before ∧
      g.span.stop = Text.width (before ++ text) ∧
      back = (r.scan rest).map (Region.shift g.span.stop) ∧
      g :: back = (r.scan (text ++ rest)).map (Region.shift g.span.start) := by
  obtain ⟨fs, gs, hfs, -, hgs⟩ := List.map_eq_append_iff.1 h
  obtain ⟨f, fs', rfl, rfl, rfl⟩ := List.map_eq_cons_iff.1 hgs
  obtain ⟨before, rest, closed, hsource, hspan, -, hback, hfirst⟩ := exists_first hfs
  have hstart : f.region.span.start = Text.width before := congrArg Span.start hspan
  have hstop : f.region.span.stop = Text.width (before ++ f.text) := by
    rw [Text.width_append]
    exact congrArg Span.stop hspan
  have hrest : fs'.map (·.region) = (r.scan rest).map (Region.shift f.region.span.stop) := by
    rw [hback]
    exact map_region_scan _ rest
  refine ⟨before, f.text, rest, hsource, hstart, hstop, hrest, ?_⟩
  rw [← map_region_scan, hfirst.lexemes_append, map_region_layOut, hstart]
  dsimp only
  rw [← Text.width_append, ← hstop, map_region_scan, hrest, ← hspan]
  rfl

/-- The spans from a span on are those of the text from its start on, and the
spans behind it those of the text from its stop on. A scanner that has given the
span goes on to give just these. -/
theorem scan_restart (r : Rules) {source : Text} {front back : List Region} {g : Region}
    (h : r.scan source = front ++ g :: back) :
    (∃ before rest, Text.splitAt? g.span.start source = some (before, rest) ∧
      g :: back = (r.scan rest).map (Region.shift g.span.start)) ∧
    (∃ before rest, Text.splitAt? g.span.stop source = some (before, rest) ∧
      back = (r.scan rest).map (Region.shift g.span.stop)) ∧
    ∃ s, (Scanner.ofText r source).calls? (front.length + 1) =
        some ((front ++ [g]).map some, s) ∧ s.Gives back := by
  obtain ⟨before, text, rest, hsource, hstart, hstop, hback, hfrom⟩ := exists_place h
  refine ⟨⟨before, text ++ rest, ?_, hfrom⟩, ⟨before ++ text, rest, ?_, hback⟩, ?_⟩
  · rw [hsource, hstart]
    exact Text.splitAt?_width_append _ _
  · rw [hsource, hstop, ← List.append_assoc]
    exact Text.splitAt?_width_append _ _
  · have hgives : (Scanner.ofText r source).Gives ((front ++ [g]) ++ back) := by
      rw [Scanner.gives_iff, h, List.append_assoc]
      rfl
    simpa only [List.length_append, List.length_singleton] using hgives.exists_calls

/-- Behind a literal that its line's end cuts, with a comment on the next line. -/
theorem scan_restart_common :
    ∃ source front back g, source = ['"', 'é', '\r', '\n', '/', '/'] ∧
      common.scan source = front ++ g :: back ∧ g.kind = .stringLiteral ∧ g.span.stop = 3 ∧
      (∃ before rest, Text.splitAt? g.span.start source = some (before, rest) ∧
        g :: back = (common.scan rest).map (Region.shift g.span.start)) ∧
      (∃ before rest, Text.splitAt? g.span.stop source = some (before, rest) ∧
        back = (common.scan rest).map (Region.shift g.span.stop)) ∧
      ∃ s, (Scanner.ofText common source).calls? (front.length + 1) =
          some ((front ++ [g]).map some, s) ∧ s.Gives back := by
  have hscan : common.scan ['"', 'é', '\r', '\n', '/', '/'] =
      [] ++ ⟨.stringLiteral, ⟨0, 3, by decide⟩⟩ ::
        [⟨.code, ⟨3, 5, by decide⟩⟩, ⟨.lineComment, ⟨5, 7, by decide⟩⟩] := by
    decide +kernel
  exact ⟨_, _, _, _, rfl, hscan, rfl, rfl, scan_restart common hscan⟩

end Rules
end Gloss
