import Gloss.Proofs.Walk
import Mathlib.Data.List.Basic
/-!
# Paths and what is above them

A path is the text of its parts with slashes between (`intercalate_parts`), so a
path below another has the moves of both (`moves_join`). The paths above a path
are found one after the other: each has the moves of the one below it but for the
last that counts (`above_eq`).
-/

namespace Gloss

/-- A name that stands for itself as part of a path. -/
structure Proper (name : String) : Prop where
  no_slash : '/' ∉ name.toList
  not_empty : name ≠ ""
  not_dot : name ≠ "."
  not_dots : name ≠ ".."

namespace Path

variable {p q : Path} {below : String} {names rest front back : List String}

/-! ## Parts -/

theorem cut_eq (s : Text) : cut s = s.splitOn '/' := by
  induction s with
  | nil => rfl
  | cons c s ih =>
    have hne := List.splitOn_ne_nil '/' s
    rw [cut, List.splitOn_cons_eq_if_modifyHead, ih]
    by_cases hc : c = '/'
    · simp [hc]
    · cases hs : s.splitOn '/' with
      | nil => exact absurd hs hne
      | cons part parts => simp [hc]

theorem not_mem_of_mem_cut {s part : Text} (h : part ∈ cut s) : '/' ∉ part := by
  induction s generalizing part with
  | nil =>
    cases List.mem_singleton.1 h
    exact List.not_mem_nil
  | cons c s ih =>
    rw [cut] at h
    split at h
    · rcases List.mem_cons.1 h with rfl | h
      · exact List.not_mem_nil
      · exact ih h
    · rename_i hc
      cases hs : cut s with
      | nil =>
        rw [hs] at h
        cases List.mem_singleton.1 h
        simpa using Ne.symm hc
      | cons first parts =>
        simp only [hs, List.mem_cons] at h ih
        rcases h with rfl | h
        · simpa [Ne.symm hc] using ih (.inl rfl)
        · exact ih (.inr h)

theorem intercalate_parts (p : Path) : "/".intercalate p.parts = p.text := by
  have h : (String.ofList ['/']).intercalate p.parts = p.text := by
    rw [← String.toList_inj, String.toList_intercalate, parts, List.map_map, cut_eq]
    simp [Function.comp_def, List.intercalate_splitOn]
  exact h

theorem parts_intercalate (hnames : names ≠ []) (hslash : ∀ name ∈ names, '/' ∉ name.toList) :
    parts ⟨"/".intercalate names⟩ = names := by
  have h : (cut ((String.ofList ['/']).intercalate names).toList).map String.ofList = names := by
    rw [String.toList_intercalate, String.toList_ofList, cut_eq, List.splitOn_intercalate]
    · simp [Function.comp_def]
    · simpa using hslash
    · simpa using hnames
  exact h

theorem parts_ne_nil (p : Path) : p.parts ≠ [] := by
  simp [parts, cut_eq]

theorem no_slash_of_mem_parts {part : String} (h : part ∈ p.parts) : '/' ∉ part.toList := by
  obtain ⟨t, ht, rfl⟩ := List.mem_map.1 h
  rw [String.toList_ofList]
  exact not_mem_of_mem_cut ht

theorem parts_append (s t : String) : parts ⟨s ++ "/" ++ t⟩ = parts ⟨s⟩ ++ parts ⟨t⟩ := by
  have htext : (s ++ "/" ++ t).toList = s.toList ++ '/' :: t.toList := by simp
  rw [parts, htext, cut_eq, List.splitOn_append_cons_self, List.map_append]
  simp only [parts, cut_eq]

theorem parts_empty : parts ⟨""⟩ = [""] := rfl

theorem exists_text_of_endsInSlash (h : p.endsInSlash = true) : ∃ s, p.text = s ++ "/" := by
  have hlast : p.text.toList.getLast? = some '/' := by simpa [endsInSlash] using h
  obtain ⟨s, hs⟩ := List.getLast?_eq_some_iff.1 hlast
  exact ⟨String.ofList s, String.toList_inj.1 (by simpa using hs)⟩

theorem isAbsolute_iff : p.isAbsolute = true ↔ ∃ part rest, p.parts = "" :: part :: rest := by
  constructor
  · intro h
    have hhead : p.text.toList.head? = some '/' := by simpa [isAbsolute] using h
    obtain ⟨s, hs⟩ := List.head?_eq_some_iff.1 hhead
    have hparts : p.parts = "" :: parts ⟨String.ofList s⟩ := by
      rw [parts, hs, cut, if_pos rfl, parts, String.toList_ofList]
      rfl
    obtain ⟨part, rest, hrest⟩ := List.exists_cons_of_ne_nil (parts_ne_nil ⟨String.ofList s⟩)
    exact ⟨part, rest, by rw [hparts, hrest]⟩
  · rintro ⟨part, rest, h⟩
    rw [isAbsolute, ← intercalate_parts, h]
    simp [String.toList_intercalate]

theorem getLast?_parts_of_endsInSlash (h : p.endsInSlash = true) : p.parts.getLast? = some "" := by
  obtain ⟨s, hs⟩ := exists_text_of_endsInSlash h
  have hparts := parts_append s ""
  rw [String.append_empty, ← hs, parts_empty] at hparts
  exact hparts ▸ List.getLast?_concat

theorem slash_notMem_moves (p : Path) : .slash ∉ p.moves := by
  intro h
  obtain ⟨part, -, hpart⟩ := List.mem_filterMap.1 h
  unfold Move.ofPart? at hpart
  split at hpart
  · cases hpart
  split at hpart
  · cases hpart
  split at hpart <;> cases hpart

/-! ## A path below another -/

/-- What stands in front of what is put below a path are the parts of the path, but for
the empty one behind a slash at its end. -/
theorem exists_front (p : Path) : ∃ front,
    (∀ below, (p.join below).parts = front ++ parts ⟨below⟩) ∧
      (p.parts = front ∨ p.parts = front ++ [""]) := by
  by_cases hp : p.text = ""
  · refine ⟨[], fun below => ?_, .inr ?_⟩
    · rw [join, if_pos (.inl hp), hp]
      simp
    · rw [show p = ⟨""⟩ from congrArg mk hp, parts_empty]
      rfl
  by_cases hslash : p.endsInSlash = true
  · obtain ⟨s, hs⟩ := exists_text_of_endsInSlash hslash
    refine ⟨parts ⟨s⟩, fun below => ?_, .inr ?_⟩
    · rw [join, if_pos (.inr hslash), hs, parts_append]
    · have hparts := parts_append s ""
      rwa [String.append_empty, ← hs, parts_empty] at hparts
  · refine ⟨p.parts, fun below => ?_, .inl rfl⟩
    rw [join, if_neg (by simp [hp, hslash]), parts_append]

theorem exists_parts_join (p : Path) (below : String) :
    ∃ front, (p.join below).parts = front ++ parts ⟨below⟩ ∧
      front.filterMap Move.ofPart? = p.moves := by
  obtain ⟨front, hjoin, hfront⟩ := exists_front p
  refine ⟨front, hjoin below, ?_⟩
  rcases hfront with h | h
  · rw [moves, h]
  · rw [moves, h, List.filterMap_append]
    exact (List.append_nil _).symm

/-- A path below another goes all the way of the other first. -/
theorem moves_join (p : Path) (below : String) :
    (p.join below).moves = p.moves ++ moves ⟨below⟩ := by
  obtain ⟨front, hparts, hfront⟩ := exists_parts_join p below
  rw [moves, hparts, List.filterMap_append, hfront]
  rfl

theorem ofPart?_proper {name : String} (h : Proper name) :
    Move.ofPart? name = some (.down name) := by
  rw [Move.ofPart?, if_neg h.not_empty, if_neg h.not_dot, if_neg h.not_dots]

theorem moves_intercalate (hnames : names ≠ []) (hproper : ∀ name ∈ names, Proper name) :
    moves ⟨"/".intercalate names⟩ = names.map .down := by
  rw [moves, parts_intercalate hnames fun name h => (hproper name h).no_slash]
  clear hnames
  induction names with
  | nil => rfl
  | cons name names ih =>
    rw [List.filterMap_cons, ofPart?_proper (hproper name (by simp)), List.map_cons,
      ih fun name h => hproper name (by simp [h])]

theorem endsInSlash_join (p : Path) (hnames : names ≠ []) (hproper : ∀ name ∈ names, Proper name) :
    (p.join ("/".intercalate names)).endsInSlash = false := by
  rw [Bool.eq_false_iff]
  intro h
  obtain ⟨front, hparts, -⟩ := exists_parts_join p ("/".intercalate names)
  have hlast := getLast?_parts_of_endsInSlash h
  rw [hparts, parts_intercalate hnames fun name h => (hproper name h).no_slash,
    List.getLast?_append_of_ne_nil _ hnames] at hlast
  exact (hproper _ (List.mem_of_getLast? hlast)).not_empty rfl

theorem isAbsolute_join (p : Path) (hnames : names ≠ []) (hproper : ∀ name ∈ names, Proper name) :
    (p.join ("/".intercalate names)).isAbsolute = p.isAbsolute := by
  by_cases hp : p.text = ""
  · have hparts := parts_intercalate hnames fun name h => (hproper name h).no_slash
    have habs : isAbsolute ⟨"/".intercalate names⟩ = false := by
      rw [Bool.eq_false_iff, Ne, isAbsolute_iff, hparts]
      rintro ⟨part, rest, rfl⟩
      exact (hproper "" (by simp)).not_empty rfl
    rw [join, if_pos (.inl hp), hp, String.empty_append, habs, show p = ⟨""⟩ from congrArg mk hp]
    rfl
  · have hne : p.text.toList ≠ [] := by simpa using hp
    unfold join isAbsolute
    split
    · rw [String.toList_append, List.head?_append_of_ne_nil _ hne]
    · rw [String.toList_append, String.toList_append, List.append_assoc,
        List.head?_append_of_ne_nil _ hne]

/-! ## The paths above -/

/-- The part of a path does not count. -/
def Blank (part : String) : Prop := part = "" ∨ part = "."

theorem stay_of_blank {parts : List String} (h : ∀ part ∈ parts, Blank part) :
    ∀ m ∈ parts.filterMap Move.ofPart?, m = .stay := by
  intro m hm
  obtain ⟨part, hpart, hmove⟩ := List.mem_filterMap.1 hm
  rcases h part hpart with rfl | rfl
  · cases hmove
  · exact (Option.some.inj hmove).symm

theorem exists_move {part : String} (h : ¬ Blank part) :
    ∃ m, Move.ofPart? part = some m ∧ m ≠ .stay ∧ m ≠ .slash := by
  rw [Blank, not_or] at h
  rw [Move.ofPart?, if_neg h.1, if_neg h.2]
  split
  · exact ⟨_, rfl, nofun, nofun⟩
  · exact ⟨_, rfl, nofun, nofun⟩

theorem dropIdle_cons {part : String} {rest : List String} (hrest : rest ≠ []) :
    dropIdle (part :: rest) = if part = "" ∨ part = "." then dropIdle rest else part :: rest :=
  dropIdle.eq_3 part rest hrest

theorem exists_dropIdle (parts : List String) :
    ∃ front, parts = front ++ dropIdle parts ∧ ∀ part ∈ front, Blank part := by
  induction parts with
  | nil => exact ⟨[], rfl, nofun⟩
  | cons part rest ih =>
    by_cases hrest : rest = []
    · subst hrest
      exact ⟨[], rfl, nofun⟩
    rw [dropIdle_cons hrest]
    split
    · rename_i hblank
      obtain ⟨front, hfront, hall⟩ := ih
      exact ⟨part :: front, congrArg (part :: ·) hfront, by simpa using ⟨hblank, hall⟩⟩
    · exact ⟨[], rfl, nofun⟩

/-- Only a first part may stand in front without counting. -/
theorem not_blank_of_dropIdle {parts : List String} {part : String} (hrest : rest ≠ [])
    (h : dropIdle parts = part :: rest) : ¬ Blank part := by
  induction parts with
  | nil => cases h
  | cons first parts ih =>
    by_cases hparts : parts = []
    · subst hparts
      cases h
      exact absurd rfl hrest
    rw [dropIdle_cons hparts] at h
    split at h
    · exact ih h
    · rename_i hblank
      cases h
      exact hblank

theorem aboveParts_dropIdle (parts : List String) :
    aboveParts (dropIdle parts) = aboveParts parts := by
  induction parts with
  | nil => rfl
  | cons part rest ih =>
    by_cases hrest : rest = []
    · subst hrest
      rfl
    rw [dropIdle_cons hrest]
    split
    · rename_i hblank
      rw [ih, aboveParts, if_pos (hblank.imp_right .inl)]
    · rfl

/-- Above the parts of a path, the last one first, either nothing is or what is
left without the first part that counts. -/
theorem aboveParts_eq (parts : List String) :
    (aboveParts parts = [] ∧ ∃ front back, parts = front ++ back ∧
      (∀ part ∈ front, Blank part) ∧ ∀ part ∈ back.tail, Blank part) ∨
    ∃ front part rest, parts = front ++ part :: rest ∧ (∀ part ∈ front, Blank part) ∧
      ¬ Blank part ∧ dropIdle rest ≠ [] ∧ dropIdle rest ≠ [""] ∧
      aboveParts parts =
        ⟨"/".intercalate (dropIdle rest).reverse⟩ :: aboveParts (dropIdle rest) := by
  induction parts with
  | nil => exact .inl ⟨rfl, [], [], rfl, nofun, nofun⟩
  | cons part rest ih =>
    by_cases hblank : Blank part
    · have heq : aboveParts (part :: rest) = aboveParts rest := by
        rw [aboveParts, if_pos (hblank.imp_right .inl)]
      rw [heq]
      refine ih.imp ?_ ?_
      · rintro ⟨hnil, front, back, rfl, hfront, hback⟩
        exact ⟨hnil, part :: front, back, rfl, by simpa using ⟨hblank, hfront⟩, hback⟩
      · rintro ⟨front, next, rest, rfl, hfront, hmore⟩
        exact ⟨part :: front, next, rest, rfl, by simpa using ⟨hblank, hfront⟩, hmore⟩
    obtain ⟨idle, hidle, hall⟩ := exists_dropIdle rest
    by_cases hup : dropIdle rest = [] ∨ dropIdle rest = [""]
    · refine .inl ⟨?_, [], part :: rest, rfl, nofun, ?_⟩
      · rw [aboveParts, if_pos (.inr (.inr hup)), ← aboveParts_dropIdle]
        rcases hup with hup | hup <;> rw [hup] <;> rfl
      · intro x hx
        rw [List.tail_cons, hidle, List.mem_append] at hx
        refine hx.elim (hall x) fun hx => ?_
        rcases hup with hup | hup
        · rw [hup] at hx
          cases hx
        · rw [hup] at hx
          exact .inl (List.mem_singleton.1 hx)
    · have hne := not_or.1 hup
      have hcond : ¬ (part = "" ∨ part = "." ∨ dropIdle rest = [] ∨ dropIdle rest = [""]) := by
        rw [← or_assoc, not_or]
        exact ⟨hblank, hup⟩
      refine .inr ⟨[], part, rest, rfl, nofun, hblank, hne.1, hne.2, ?_⟩
      rw [aboveParts, if_neg hcond, aboveParts_dropIdle]

/-- The last move of the path counts, unless it is the only one. -/
def Ends (p : Path) : Prop := ∀ ms, p.moves = ms ++ [.stay] → ms = []

theorem ends_of_parts (h : ∀ part, p.parts.getLast? = some part → Blank part → p.parts = [part]) :
    p.Ends := by
  intro ms hms
  obtain ⟨parts, part, hparts⟩ := (List.eq_nil_or_concat p.parts).resolve_left p.parts_ne_nil
  rw [List.concat_eq_append] at hparts
  by_cases hblank : Blank part
  · have hone := h part (by rw [hparts, List.getLast?_concat]) hblank
    have hlength := congrArg List.length hms
    have hle := List.length_filterMap_le Move.ofPart? p.parts
    rw [moves, List.length_append] at hlength
    rw [hone] at hle hlength
    exact List.length_eq_zero_iff.1 (by simp at hle hlength; omega)
  · obtain ⟨m, hm, hstay, -⟩ := exists_move hblank
    have hlast : p.moves = parts.filterMap Move.ofPart? ++ [m] := by
      rw [moves, hparts, List.filterMap_append]
      simp [hm]
    obtain ⟨-, hsame⟩ := List.append_inj' (hms.symm.trans hlast) rfl
    exact absurd (List.cons.inj hsame).1.symm hstay

/-- The path is written as far as its last move and no further. -/
structure Plain (p : Path) : Prop where
  text : p.text ≠ ""
  endsInSlash : p.endsInSlash = false
  ends : p.Ends

/-- The second path is the one right above the first. -/
structure Above (p q : Path) : Prop where
  isAbsolute : q.isAbsolute = p.isAbsolute
  plain : q.Plain
  /-- What is written before the last part that counts. -/
  written : q.text.toList <+: p.text.toList
  /-- The moves but for the last that counts. -/
  moves : ∃ idle m idle', p.moves = q.moves ++ idle ++ m :: idle' ∧
    (∀ x ∈ idle, x = .stay) ∧ m ≠ .stay ∧ m ≠ .slash ∧ ∀ x ∈ idle', x = .stay

theorem count_moves_le {front back : List String} (hparts : p.parts.reverse = front ++ back)
    (hfront : ∀ part ∈ front, Blank part) (hback : ∀ part ∈ back.tail, Blank part) :
    (p.moves.filter (· ≠ .stay)).length ≤ 1 := by
  have hidle : ∀ parts : List String, (∀ part ∈ parts, Blank part) →
      (parts.reverse.filterMap Move.ofPart?).filter (· ≠ .stay) = [] := by
    intro parts hall
    rw [List.filter_eq_nil_iff]
    intro m hm
    simpa using stay_of_blank (fun part hpart => hall part (by simpa using hpart)) m hm
  rw [List.reverse_eq_iff, List.reverse_append] at hparts
  rw [moves, hparts, List.filterMap_append, List.filter_append, hidle front hfront, List.append_nil]
  rcases back with _ | ⟨part, back⟩
  · exact Nat.zero_le 1
  · rw [List.reverse_cons, List.filterMap_append, List.filter_append, hidle back hback]
    exact Nat.le_trans (List.length_filter_le ..) (List.length_filterMap_le ..)

/-- The path that has all but the last counting part, and what is idle before it. -/
theorem above_mk {front up idle : List String} {part : String}
    (hparts : p.parts = up ++ (idle ++ part :: front)) (hfront : ∀ part ∈ front, Blank part)
    (hidle : ∀ part ∈ idle, Blank part) (hpart : ¬ Blank part) (hne : up ≠ []) (hroot : up ≠ [""])
    (hlast : ∀ part, up.getLast? = some part → Blank part → up = [part]) :
    p.Above ⟨"/".intercalate up⟩ ∧ parts ⟨"/".intercalate up⟩ = up := by
  have hslash : ∀ x ∈ up ++ (idle ++ part :: front), '/' ∉ x.toList := by
    rw [← hparts]
    exact fun _ => no_slash_of_mem_parts
  have hup : parts ⟨"/".intercalate up⟩ = up :=
    parts_intercalate hne fun x h => hslash x (List.mem_append_left _ h)
  refine ⟨⟨?_, ⟨?_, ?_, ends_of_parts (by rwa [hup])⟩, ?_, ?_⟩, hup⟩
  · rw [Bool.eq_iff_iff, isAbsolute_iff, isAbsolute_iff, hup, hparts]
    rcases up with _ | ⟨first, _ | ⟨second, rest⟩⟩
    · exact absurd rfl hne
    · have hfirst : first ≠ "" := fun h => hroot (by rw [h])
      simp [hfirst]
    · simp
  · intro h
    have hblank : parts ⟨""⟩ = up := h ▸ hup
    exact hroot hblank.symm
  · rw [Bool.eq_false_iff]
    intro h
    have hblank := getLast?_parts_of_endsInSlash h
    rw [hup] at hblank
    exact hroot (hlast _ hblank (.inl rfl))
  · have hmore : parts ⟨"/".intercalate (idle ++ part :: front)⟩ = idle ++ part :: front :=
      parts_intercalate (by simp) fun x h => hslash x (List.mem_append_right _ h)
    have htext := intercalate_parts
      ⟨"/".intercalate up ++ "/" ++ "/".intercalate (idle ++ part :: front)⟩
    rw [parts_append, hup, hmore, ← hparts, intercalate_parts] at htext
    rw [htext, String.append_assoc, String.toList_append]
    exact List.prefix_append ..
  · obtain ⟨m, hm, hstay, hslash⟩ := exists_move hpart
    refine ⟨idle.filterMap Move.ofPart?, m, front.filterMap Move.ofPart?, ?_,
      stay_of_blank hidle, hstay, hslash, stay_of_blank hfront⟩
    rw [moves, moves, hup, hparts, List.filterMap_append, List.filterMap_append,
      List.filterMap_cons, hm, List.append_assoc]

/-- Above a path is nothing, if at most one of its moves counts, or the path right
above it and what is above that. -/
theorem above_eq (p : Path) :
    (p.above = [] ∧ (p.moves.filter (· ≠ .stay)).length ≤ 1) ∨
      ∃ q, p.above = q :: q.above ∧ p.Above q := by
  rcases aboveParts_eq p.parts.reverse with ⟨hnil, front, back, hparts, hfront, hback⟩ |
    ⟨front, part, rest, hparts, hfront, hpart, hne, hroot, habove⟩
  · exact .inl ⟨hnil, count_moves_le hparts hfront hback⟩
  · obtain ⟨idle, hrest, hidle⟩ := exists_dropIdle rest
    have hall : p.parts = (dropIdle rest).reverse ++ (idle.reverse ++ part :: front.reverse) := by
      rw [List.reverse_eq_iff, hrest] at hparts
      simpa using hparts
    have hlast : ∀ part, (dropIdle rest).reverse.getLast? = some part → Blank part →
        (dropIdle rest).reverse = [part] := by
      intro part hlast hblank
      rw [List.getLast?_reverse, List.head?_eq_some_iff] at hlast
      obtain ⟨more, hmore⟩ := hlast
      by_cases hnil : more = []
      · rw [hmore, hnil]
        rfl
      · exact absurd hblank (not_blank_of_dropIdle hnil hmore)
    obtain ⟨hq, hup⟩ := above_mk hall (by simpa using hfront) (by simpa using hidle) hpart
      (by simpa using hne) (by simpa [List.reverse_eq_iff] using hroot) hlast
    refine .inr ⟨_, ?_, hq⟩
    rw [above, habove, above, hup, List.reverse_reverse]

end Path
end Gloss
