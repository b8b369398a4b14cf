import Gloss.Proofs.Plan
import Gloss.Proofs.Rules
import Mathlib.Data.List.Induction
/-!
# Registered languages

A registry is a table of languages, with indices into it by name and by
extension. `Lists` says what it holds: the known languages and then those of the
settings, each index leading to the last of them with the name or the extension.
Adding a language keeps this (`Lists.add`), so it holds of every registry
(`lists_of_ofSettings`). Settings that pass their check make a registry, and a
language can be forced exactly if the settings know its name
(`registry_of_check`).
-/

namespace Gloss

/-! ## Last elements -/

/-- The element at an index of a list has a property, and none behind it has. -/
structure LastAt {α : Type} (P : α → Prop) (xs : List α) (i : Nat) (x : α) : Prop where
  at_index : xs[i]? = some x
  holds : P x
  last : ∀ j y, i < j → xs[j]? = some y → ¬ P y

section LastAt
variable {α : Type} {P : α → Prop} {xs : List α} {i j : Nat} {x y : α}

theorem LastAt.mem (h : LastAt P xs i x) : x ∈ xs := List.mem_of_getElem? h.at_index

theorem lastAt_concat (hy : P y) : LastAt P (xs ++ [y]) i x ↔ i = xs.length ∧ x = y := by
  have hlast : (xs ++ [y])[xs.length]? = some y := by simp
  constructor
  · intro h
    have hlt : i < (xs ++ [y]).length := (List.getElem?_eq_some_iff.1 h.at_index).1
    have hnot : ¬ i < xs.length := fun hi => h.last _ y hi hlast hy
    rw [List.length_append, List.length_singleton] at hlt
    obtain rfl : i = xs.length := by omega
    exact ⟨rfl, Option.some.inj (h.at_index.symm.trans hlast)⟩
  · rintro ⟨rfl, rfl⟩
    refine ⟨hlast, hy, fun j z hj hz => ?_⟩
    have hlt : j < (xs ++ [x]).length := (List.getElem?_eq_some_iff.1 hz).1
    rw [List.length_append, List.length_singleton] at hlt
    omega

theorem lastAt_concat_of_not (hy : ¬ P y) : LastAt P (xs ++ [y]) i x ↔ LastAt P xs i x := by
  constructor
  · intro h
    have hlt : i < xs.length := by
      have hle : i < (xs ++ [y]).length := (List.getElem?_eq_some_iff.1 h.at_index).1
      rw [List.length_append, List.length_singleton] at hle
      refine Nat.lt_of_le_of_ne (by omega) ?_
      rintro rfl
      have hat := h.at_index
      rw [List.getElem?_concat_length] at hat
      exact hy (Option.some.inj hat ▸ h.holds)
    refine ⟨?_, h.holds, fun j z hj hz => h.last j z hj ?_⟩
    · rw [← List.getElem?_append_left hlt, h.at_index]
    · rwa [List.getElem?_append_left (List.getElem?_eq_some_iff.1 hz).1]
  · intro h
    have hlt : i < xs.length := (List.getElem?_eq_some_iff.1 h.at_index).1
    refine ⟨by rw [List.getElem?_append_left hlt, h.at_index], h.holds, fun j z hj hz => ?_⟩
    by_cases hjlt : j < xs.length
    · rw [List.getElem?_append_left hjlt] at hz
      exact h.last j z hj hz
    · rw [List.getElem?_append_right (Nat.not_lt.1 hjlt)] at hz
      exact List.mem_singleton.1 (List.mem_of_getElem? hz) ▸ hy

theorem LastAt.unique (h : LastAt P xs i x) (h' : LastAt P xs j y) : j = i ∧ y = x := by
  have hij : ¬ i < j := fun hlt => h.last j y hlt h'.at_index h'.holds
  have hji : ¬ j < i := fun hlt => h'.last i x hlt h.at_index h.holds
  obtain rfl : j = i := by omega
  exact ⟨rfl, Option.some.inj (h'.at_index.symm.trans h.at_index)⟩

theorem exists_lastAt (hx : x ∈ xs) (h : P x) : ∃ i y, LastAt P xs i y := by
  induction xs using List.reverseRecOn with
  | nil => cases hx
  | append_singleton xs z ih =>
    by_cases hz : P z
    · exact ⟨_, _, (lastAt_concat hz).2 ⟨rfl, rfl⟩⟩
    · have hne : x ≠ z := by
        rintro rfl
        exact hz h
      obtain ⟨i, y, hlast⟩ := ih (by simpa [hne] using hx)
      exact ⟨i, y, (lastAt_concat_of_not hz).2 hlast⟩

end LastAt

/-! ## Candidates -/

/-- A language that a file may be in: a known one, or one of the settings under the
name it has there. -/
inductive Candidate where
  | known (language : Language)
  | custom (name : String) (language : CustomLanguage)

namespace Candidate

def name : Candidate → String
  | known l => l.name
  | custom name _ => name

def extensions : Candidate → List String
  | known l => l.extensions
  | custom _ c => c.extensions

/-- The name as it is looked up. -/
def key (c : Candidate) : String := Text.lower c.name

@[simp] theorem key_known (l : Language) : (known l).key = l.name := by
  cases l <;> decide

@[simp] theorem key_custom (name : String) (c : CustomLanguage) :
    (custom name c).key = Text.lower name := rfl

/-- The language claims an extension that is in lower case. -/
def Claims (c : Candidate) (extension : String) : Prop :=
  ∃ e ∈ c.extensions, Registry.claim e = extension

/-- The delimiters of the language. Its own word on literals comes first, then the
one for all languages; else literals end with their line. -/
def delimiters (multiline : Option Bool) : Candidate → Delimiters
  | known l => { l.rules.toDelimiters with multiline := multiline.getD false }
  | custom _ c => {
      lineComment := c.lineComment
      blockComment := c.blockComment
      stringQuote := c.stringQuote
      charQuote := c.charQuote
      escape := c.escape
      multiline := (c.multiline.or multiline).getD false }

end Candidate

/-- All languages, in the order in which later ones take over from earlier ones. -/
def Settings.roster (s : Settings) : List Candidate :=
  Language.all.map .known ++ s.languages.map fun (name, c) => .custom name c

/-- The candidate a name stands for: the last one of this name or, if there is none,
the last one with the name that this is an alias of. -/
def Settings.Calls (s : Settings) (name : String) (i : Nat) (c : Candidate) : Prop :=
  LastAt (·.key = Text.lower name) s.roster i c ∨
    (∀ c ∈ s.roster, c.key ≠ Text.lower name) ∧
      ∃ l, Language.ofName? name = some l ∧ LastAt (·.key = l.name) s.roster i c

/-! ## What a registry holds -/

namespace Registry

variable {g g' : Registry} {m : Option Bool} {cs : List Candidate} {c : Candidate} {r : Rules}
  {s : Settings} {forced : Option String} {name key : String} {i n : Nat}

/-- The registry holds these candidates in this order. -/
structure Lists (g : Registry) (m : Option Bool) (cs : List Candidate) : Prop where
  entries : List.Forall₂ (fun c e => e.1 = c.key ∧ e.2.toDelimiters = c.delimiters m) cs g.entries
  byName : ∀ key i, g.byName.lookup key = some i ↔ ∃ c, LastAt (·.key = key) cs i c
  byExtension : ∀ key i, g.byExtension.lookup key = some i ↔ ∃ c, LastAt (·.Claims key) cs i c
  valid : ∀ e ∈ g.byName ++ g.byExtension, e.2 < g.entries.length

theorem lists_empty : Lists {} m [] where
  entries := .nil
  byName _ _ := ⟨nofun, fun ⟨_, h⟩ => nomatch h.mem⟩
  byExtension _ _ := ⟨nofun, fun ⟨_, h⟩ => nomatch h.mem⟩
  valid := nofun

theorem lookup_cons (key other : String) (n : Nat) (index : Index) :
    ((key, n) :: index).lookup other = if key = other then some n else index.lookup other := by
  rw [List.lookup_cons]
  by_cases h : key = other
  · simp [h]
  · rw [if_neg h, beq_eq_false_iff_ne.2 (Ne.symm h)]

/-- An index in which a language has claimed its extensions. -/
theorem lookup_claims (extensions : List String) (index : Index) (key : String) :
    (extensions.foldl (fun index e => (claim e, n) :: index) index).lookup key =
      if ∃ e ∈ extensions, claim e = key then some n else index.lookup key := by
  induction extensions generalizing index with
  | nil => simp
  | cons e extensions ih =>
    rw [List.foldl_cons, ih, lookup_cons]
    by_cases hmore : ∃ e ∈ extensions, claim e = key
    · rw [if_pos hmore, if_pos (by simpa using .inr hmore)]
    · by_cases he : claim e = key
      · rw [if_neg hmore, if_pos he, if_pos ⟨e, by simp, he⟩]
      · rw [if_neg hmore, if_neg he, if_neg (by simpa [he] using hmore)]

theorem mem_claims {extensions : List String} {index : Index} {e : String × Nat}
    (h : e ∈ extensions.foldl (fun index e => (claim e, n) :: index) index) :
    e.2 = n ∨ e ∈ index := by
  induction extensions generalizing index with
  | nil => exact .inr h
  | cons x extensions ih =>
    refine (ih h).elim .inl fun h => ?_
    rcases List.mem_cons.1 h with rfl | h
    · exact .inl rfl
    · exact .inr h

/-- An index that a last element was put in front of. -/
theorem lookup_iff_concat {P : String → Candidate → Prop} {index index' : Index}
    [∀ key, Decidable (P key c)]
    (h : ∀ key i, index.lookup key = some i ↔ ∃ c, LastAt (P key) cs i c)
    (hput : ∀ key, index'.lookup key =
      if P key c then some cs.length else index.lookup key) (key : String) (i : Nat) :
    index'.lookup key = some i ↔ ∃ c', LastAt (P key) (cs ++ [c]) i c' := by
  rw [hput]
  by_cases hc : P key c
  · rw [if_pos hc]
    simp only [lastAt_concat hc, Option.some.injEq]
    exact ⟨fun heq => ⟨c, heq.symm, rfl⟩, fun ⟨_, heq, _⟩ => heq.symm⟩
  · rw [if_neg hc, h]
    simp only [lastAt_concat_of_not hc]

/-- A language that is added is the last one, and comes first under its name and its
extensions. -/
theorem Lists.add (h : g.Lists m cs) (hr : r.toDelimiters = c.delimiters m) :
    (g.add c.name r c.extensions).Lists m (cs ++ [c]) := by
  have hlength : cs.length = g.entries.length := h.entries.length_eq
  constructor
  case entries => exact List.rel_append h.entries (.cons ⟨rfl, hr⟩ .nil)
  case byName =>
    refine lookup_iff_concat (P := fun key c => c.key = key) h.byName fun key => ?_
    rw [hlength]
    exact lookup_cons ..
  case byExtension =>
    classical
    refine lookup_iff_concat (P := fun key c => c.Claims key) h.byExtension fun key => ?_
    rw [hlength]
    exact (lookup_claims ..).trans (if_congr .rfl rfl rfl)
  case valid =>
    intro e he
    have hvalid : e.2 = g.entries.length ∨ e ∈ g.byName ++ g.byExtension := by
      rcases List.mem_append.1 he with hname | hextension
      · rcases List.mem_cons.1 hname with rfl | hold
        · exact .inl rfl
        · exact .inr (List.mem_append_left _ hold)
      · exact (mem_claims hextension).imp_right (List.mem_append_right _)
    rw [Registry.add, List.length_append, List.length_singleton]
    rcases hvalid with hnew | hold
    · omega
    · exact Nat.lt_succ_of_lt (h.valid e hold)

/-! ## Registries of settings -/

theorem delimiters_rulesOf (s : Settings) (l : Language) :
    (rulesOf s l).toDelimiters = (Candidate.known l).delimiters s.multiline := by
  unfold rulesOf Candidate.delimiters
  cases s.multiline with
  | some allow => rfl
  | none => cases l <;> rfl

theorem lists_foldl (ls : List Language) (h : g.Lists s.multiline cs) :
    (ls.foldl (fun g l => g.add l.name (rulesOf s l) l.extensions) g).Lists s.multiline
      (cs ++ ls.map .known) := by
  induction ls generalizing g cs with
  | nil => rwa [List.map_nil, List.append_nil]
  | cons l ls ih =>
    rw [List.map_cons, List.append_cons]
    exact ih (h.add (c := .known l) (delimiters_rulesOf s l))

theorem lists_known (s : Settings) : (known s).Lists s.multiline (Language.all.map .known) := by
  unfold known
  rw [← List.nil_append (Language.all.map Candidate.known)]
  exact lists_foldl Language.all lists_empty

theorem delimiters_rules {custom : CustomLanguage} (h : custom.rules name m = .ok r) :
    r.toDelimiters = (Candidate.custom name custom).delimiters m := by
  unfold CustomLanguage.rules at h
  split at h
  · rename_i hcheck
    cases h
    exact Delimiters.toDelimiters_of_check hcheck
  · cases h

/-- The languages of settings are added, if all of them make rules. -/
def addAll (g : Registry) (m : Option Bool) (languages : List (String × CustomLanguage)) :
    Except Problem Registry :=
  languages.foldlM (fun g (name, c) => do return g.add name (← c.rules name m) c.extensions) g

theorem lists_addAll {languages : List (String × CustomLanguage)} (h : g.Lists m cs)
    (hadd : g.addAll m languages = .ok g') :
    g'.Lists m (cs ++ languages.map fun (name, c) => .custom name c) := by
  induction languages generalizing g cs with
  | nil =>
    cases hadd
    rwa [List.map_nil, List.append_nil]
  | cons l languages ih =>
    obtain ⟨next, hnext, hrest⟩ := Command.exists_of_bind hadd
    obtain ⟨r, hr, hnext⟩ := Command.exists_of_bind hnext
    cases hnext
    rw [List.map_cons, List.append_cons]
    exact ih (h.add (c := .custom l.1 l.2) (delimiters_rules hr)) hrest

theorem exists_addAll (languages : List (String × CustomLanguage))
    (h : ∀ l ∈ languages, ∃ r, l.2.rules l.1 m = .ok r) : ∃ g', g.addAll m languages = .ok g' := by
  induction languages generalizing g with
  | nil => exact ⟨g, rfl⟩
  | cons l languages ih =>
    obtain ⟨r, hr⟩ := h l (by simp)
    obtain ⟨g', hg'⟩ := ih (g := g.add l.1 r l.2.extensions) fun x hx => h x (by simp [hx])
    refine ⟨g', ?_⟩
    rw [addAll, List.foldlM_cons]
    show (l.2.rules l.1 m >>= _) >>= _ = _
    rw [hr]
    exact hg'

theorem ofSettings_eq_ok_iff : ofSettings s forced = .ok g ↔ ∃ all i j,
    (known s).addAll s.multiline s.languages = .ok all ∧
    forced.mapM all.require = .ok i ∧ s.defaultLanguage.mapM all.require = .ok j ∧
    g = { all with forced := i, fallback := j } := by
  unfold ofSettings
  constructor
  · intro h
    obtain ⟨all, hall, h⟩ := Command.exists_of_bind h
    obtain ⟨i, hi, h⟩ := Command.exists_of_bind h
    obtain ⟨j, hj, h⟩ := Command.exists_of_bind h
    cases h
    exact ⟨all, i, j, hall, hi, hj, rfl⟩
  · rintro ⟨all, i, j, hall, hi, hj, rfl⟩
    refine (Command.bind_of_ok hall _).trans ?_
    rw [Command.bind_of_ok hi, Command.bind_of_ok hj]
    rfl

theorem mapM_require_iff {name : Option String} {i : Option Nat} :
    name.mapM g.require = .ok i ↔ Option.Rel (fun name i => g.number? name = some i) name i := by
  cases name with
  | none =>
    constructor
    · intro h
      cases h
      exact .none
    · intro h
      cases h
      rfl
  | some name =>
    rw [Option.mapM_some, require]
    constructor
    · intro h
      cases hnumber : g.number? name with
      | none => rw [hnumber] at h; cases h
      | some n => rw [hnumber] at h; cases h; exact .some hnumber
    · intro h
      cases h with
      | some hnumber => rw [hnumber]; rfl

/-- What a registry of settings holds, and what it has for the forced and for the
default language. -/
theorem lists_of_ofSettings (h : ofSettings s forced = .ok g) : g.Lists s.multiline s.roster ∧
    Option.Rel (fun name i => g.number? name = some i) forced g.forced ∧
    Option.Rel (fun name i => g.number? name = some i) s.defaultLanguage g.fallback := by
  obtain ⟨all, i, j, hall, hi, hj, rfl⟩ := ofSettings_eq_ok_iff.1 h
  obtain ⟨hentries, hname, hextension, hvalid⟩ := lists_addAll (lists_known s) hall
  exact ⟨⟨hentries, hname, hextension, hvalid⟩, mapM_require_iff.1 hi, mapM_require_iff.1 hj⟩

/-! ## Names -/

theorem lookup_eq_none_iff (h : g.Lists m cs) :
    g.byName.lookup key = none ↔ ∀ c ∈ cs, c.key ≠ key := by
  constructor
  · intro hnone c hc hkey
    obtain ⟨i, c', hlast⟩ := exists_lastAt (P := fun c : Candidate => c.key = key) hc hkey
    rw [(h.byName key i).2 ⟨c', hlast⟩] at hnone
    cases hnone
  · intro hall
    cases hlookup : g.byName.lookup key with
    | none => rfl
    | some i =>
      obtain ⟨c, hlast⟩ := (h.byName key i).1 hlookup
      exact absurd hlast.holds (hall c hlast.mem)

/-- The number of a name is that of the candidate it stands for. -/
theorem number?_eq_some_iff (h : g.Lists m s.roster) :
    g.number? name = some i ↔ ∃ c, s.Calls name i c := by
  unfold number? Settings.Calls
  cases hlookup : g.byName.lookup (Text.lower name) with
  | some n =>
    obtain ⟨c, hlast⟩ := (h.byName _ n).1 hlookup
    constructor
    · intro heq
      cases heq
      exact ⟨c, .inl hlast⟩
    · rintro ⟨c', hlast' | ⟨hnone, -⟩⟩
      · exact congrArg some (hlast'.unique hlast).1
      · exact absurd hlast.holds (hnone c hlast.mem)
  | none =>
    have hnone := (lookup_eq_none_iff h).1 hlookup
    constructor
    · intro heq
      obtain ⟨l, hl, hnumber⟩ := Option.bind_eq_some_iff.1 heq
      obtain ⟨c, hlast⟩ := (h.byName _ i).1 hnumber
      exact ⟨c, .inr ⟨hnone, l, hl, hlast⟩⟩
    · rintro ⟨c, hlast | ⟨-, l, hl, hlast⟩⟩
      · exact absurd hlast.holds (hnone c hlast.mem)
      · exact Option.bind_eq_some_iff.2 ⟨l, hl, (h.byName _ i).2 ⟨c, hlast⟩⟩

theorem mem_roster : c ∈ s.roster ↔
    (∃ l, c = .known l) ∨ ∃ l ∈ s.languages, c = .custom l.1 l.2 := by
  rw [Settings.roster, List.mem_append, List.mem_map, List.mem_map]
  refine or_congr ?_ ?_
  · exact ⟨fun ⟨l, _, hc⟩ => ⟨l, hc.symm⟩, fun ⟨l, hc⟩ => ⟨l, l.mem_all, hc.symm⟩⟩
  · exact ⟨fun ⟨l, hl, hc⟩ => ⟨l, hl, hc.symm⟩, fun ⟨l, hl, hc⟩ => ⟨l, hl, hc.symm⟩⟩

/-- The settings know the names that stand for a candidate, and no others. -/
theorem knows_iff : s.knows name = true ↔ ∃ i c, s.Calls name i c := by
  rw [Settings.knows, Bool.or_eq_true, List.any_eq_true]
  constructor
  · intro h
    by_cases hcalled : ∃ c ∈ s.roster, c.key = Text.lower name
    · obtain ⟨c, hc, hkey⟩ := hcalled
      obtain ⟨i, c', hlast⟩ :=
        exists_lastAt (P := fun c : Candidate => c.key = Text.lower name) hc hkey
      exact ⟨i, c', .inl hlast⟩
    · have hnone : ∀ c ∈ s.roster, c.key ≠ Text.lower name := by simpa using hcalled
      rcases h with hknown | ⟨l, hl, hkey⟩
      · obtain ⟨l, hl⟩ := Option.isSome_iff_exists.1 hknown
        obtain ⟨i, c, hlast⟩ := exists_lastAt (P := fun c : Candidate => c.key = l.name)
          (mem_roster.2 (.inl ⟨l, rfl⟩)) (Candidate.key_known l)
        exact ⟨i, c, .inr ⟨hnone, l, hl, hlast⟩⟩
      · have hne := hnone _ (mem_roster.2 (.inr ⟨l, hl, rfl⟩))
        rw [Candidate.key_custom] at hne
        exact absurd (eq_of_beq hkey) hne
  · rintro ⟨i, c, hlast | ⟨-, l, hl, -⟩⟩
    · have hkey : c.key = Text.lower name := hlast.holds
      rcases mem_roster.1 hlast.mem with ⟨l, rfl⟩ | ⟨l, hl, rfl⟩
      · rw [Candidate.key_known] at hkey
        exact .inl (List.find?_isSome.2 ⟨l, l.mem_all, by simp [hkey]⟩)
      · rw [Candidate.key_custom] at hkey
        exact .inr ⟨l, hl, beq_iff_eq.2 hkey⟩
    · exact .inl (Option.isSome_iff_exists.2 ⟨l, hl⟩)

/-! ## Checked settings -/

theorem forM_eq_ok_iff {α : Type} {f : α → Except Problem Unit} {xs : List α} :
    xs.forM f = .ok () ↔ ∀ x ∈ xs, f x = .ok () := by
  induction xs with
  | nil => exact ⟨fun _ => nofun, fun _ => rfl⟩
  | cons x xs ih =>
    rw [List.forall_mem_cons, ← ih]
    constructor
    · intro h
      obtain ⟨_, hx, hxs⟩ := Command.exists_of_bind h
      exact ⟨hx, hxs⟩
    · rintro ⟨hx, hxs⟩
      exact (Command.bind_of_ok hx _).trans hxs

theorem check_eq_ok_iff : s.check = .ok () ↔ s.jobs ≠ some 0 ∧
    (∀ l ∈ s.languages, ∃ r, l.2.rules l.1 s.multiline = .ok r) ∧
    ∀ name, s.defaultLanguage = some name → s.knows name = true := by
  unfold Settings.check
  extract_lets rest
  by_cases hjobs : s.jobs = some 0
  · rw [if_pos hjobs]
    constructor
    · intro h
      cases h
    · intro h
      exact absurd hjobs h.1
  have hrules : ∀ l : String × CustomLanguage,
      (do let _ ← l.2.rules l.1 s.multiline : Except Problem Unit) = .ok () ↔
        ∃ r, l.2.rules l.1 s.multiline = .ok r := by
    intro l
    constructor
    · intro h
      obtain ⟨r, hr, -⟩ := Command.exists_of_bind h
      exact ⟨r, hr⟩
    · rintro ⟨r, hr⟩
      rw [Command.bind_of_ok hr]
      rfl
  rw [if_neg hjobs]
  simp only [← hrules]
  rw [← forM_eq_ok_iff]
  constructor
  · intro h
    obtain ⟨_, hlanguages, hrest⟩ := Command.exists_of_bind h
    refine ⟨hjobs, hlanguages, fun name hname => ?_⟩
    by_contra hknows
    rw [hname] at hrest
    simp only [hknows] at hrest
    cases hrest
  · rintro ⟨-, hlanguages, hdefault⟩
    refine (Command.bind_of_ok hlanguages _).trans ?_
    cases hname : s.defaultLanguage with
    | none => rfl
    | some name =>
      dsimp only
      rw [hdefault name hname]
      rfl

/-- The languages that settings add make rules, and the default one is known. -/
theorem ofSettings_iff_knows (h : s.check = .ok ()) :
    (∃ g, ofSettings s forced = .ok g) ↔ ∀ name, forced = some name → s.knows name = true := by
  obtain ⟨-, hrules, hdefault⟩ := check_eq_ok_iff.1 h
  obtain ⟨all, hall⟩ := exists_addAll (g := known s) s.languages hrules
  have hlists := lists_addAll (lists_known s) hall
  -- a name is required with success exactly if the settings know it
  have hrequire : ∀ name : Option String,
      (∃ i, name.mapM all.require = .ok i) ↔ ∀ x, name = some x → s.knows x = true := by
    intro name
    simp only [mapM_require_iff]
    cases name with
    | none => exact ⟨fun _ => nofun, fun _ => ⟨none, .none⟩⟩
    | some name =>
      constructor
      · rintro ⟨i, hi⟩ x hx
        cases hx
        cases hi with
        | some hnumber => exact knows_iff.2 ⟨_, (number?_eq_some_iff hlists).1 hnumber⟩
      · intro hknows
        obtain ⟨i, hcalls⟩ := knows_iff.1 (hknows name rfl)
        exact ⟨some i, .some ((number?_eq_some_iff hlists).2 hcalls)⟩
  constructor
  · rintro ⟨g, hg⟩
    obtain ⟨all', i, j, hall', hi, -, -⟩ := ofSettings_eq_ok_iff.1 hg
    cases hall.symm.trans hall'
    exact (hrequire forced).1 ⟨i, hi⟩
  · intro hforced
    obtain ⟨i, hi⟩ := (hrequire forced).2 hforced
    obtain ⟨j, hj⟩ := (hrequire s.defaultLanguage).2 hdefault
    exact ⟨_, ofSettings_eq_ok_iff.2 ⟨all, i, j, hall, hi, hj, rfl⟩⟩

theorem number?_lt (h : g.Lists m cs) (hi : g.number? name = some i) : i < g.entries.length := by
  have hlookup : ∀ key, g.byName.lookup key = some i → i < g.entries.length := by
    intro key hkey
    obtain ⟨c, hlast⟩ := (h.byName key i).1 hkey
    exact h.entries.length_eq ▸ (List.getElem?_eq_some_iff.1 hlast.at_index).1
  unfold number? at hi
  cases hname : g.byName.lookup (Text.lower name) with
  | some n =>
    rw [hname] at hi
    cases hi
    exact hlookup _ hname
  | none =>
    rw [hname] at hi
    obtain ⟨l, -, hl⟩ := Option.bind_eq_some_iff.1 hi
    exact hlookup _ hl

theorem claimant?_lt (h : g.Lists m cs) {p : Path} (hi : g.claimant? p = some i) :
    i < g.entries.length := by
  obtain ⟨e, -, hkey⟩ := Option.bind_eq_some_iff.1 hi
  obtain ⟨c, hlast⟩ := (h.byExtension _ i).1 hkey
  exact h.entries.length_eq ▸ (List.getElem?_eq_some_iff.1 hlast.at_index).1

/-- Settings that pass their check make a registry, and one in which a name is forced
exactly if they know the name. Every number in a registry is that of an entry, and so
is the one that decides the language of a path. -/
theorem registry_of_check (s : Settings) :
    (s.check = .ok () → (∃ g, ofSettings s none = .ok g) ∧
      ∀ name, (∃ g, ofSettings s (some name) = .ok g) ↔ s.knows name = true) ∧
    ∀ forced g, ofSettings s forced = .ok g →
      (∀ i, g.forced = some i → i < g.entries.length) ∧
      (∀ i, g.fallback = some i → i < g.entries.length) ∧
      (∀ e ∈ g.byName ++ g.byExtension, e.2 < g.entries.length) ∧
      ∀ p i, (g.forced <|> g.claimant? p <|> g.fallback) = some i →
        ∃ h : i < g.entries.length, g.resolve p = .ok g.entries[i] := by
  refine ⟨fun h => ⟨(ofSettings_iff_knows h).2 nofun, fun name => ?_⟩, fun forced g h => ?_⟩
  · rw [ofSettings_iff_knows h]
    exact ⟨fun hknows => hknows name rfl, fun hknows _ heq => Option.some.inj heq ▸ hknows⟩
  · obtain ⟨hlists, hforced, hfallback⟩ := lists_of_ofSettings h
    have hlt : ∀ {name : Option String} {j : Option Nat},
        Option.Rel (fun name i => g.number? name = some i) name j →
          ∀ i, j = some i → i < g.entries.length := by
      intro name j hrel i hi
      cases hrel with
      | none => cases hi
      | some hnumber =>
        cases hi
        exact number?_lt hlists hnumber
    refine ⟨hlt hforced, hlt hfallback, hlists.valid, fun p i hi => ?_⟩
    have hvalid : i < g.entries.length := by
      simp only [Option.orElse_eq_orElse, Option.orElse_eq_or, Option.or_eq_some_iff] at hi
      rcases hi with hf | ⟨-, hc | ⟨-, hd⟩⟩
      · exact hlt hforced i hf
      · exact claimant?_lt hlists hc
      · exact hlt hfallback i hd
    refine ⟨hvalid, ?_⟩
    rw [resolve, hi, Option.bind_some, List.getElem?_eq_getElem hvalid]

/-- Two languages with the name of a known one, and one with the alias of another. -/
def takeover : Settings where
  defaultLanguage := some "PY"
  languages := [
    ("Java", { extensions := ["java"], lineComment := some ['#'] }),
    ("JAVA", { extensions := ["..Java", "j"], lineComment := some [';'], multiline := some true }),
    ("cxx", { lineComment := some ['%'] })]

theorem registry_of_check_takeover : takeover.check = .ok () ∧
    (∃ g, ofSettings takeover (some "Cxx") = .ok g) ∧
    (¬ ∃ g, ofSettings takeover (some "cobol") = .ok g) ∧
    ∃ g, ofSettings takeover none = .ok g ∧ g.fallback = some 10 ∧ 10 < g.entries.length := by
  have hcheck : takeover.check = .ok () := rfl
  obtain ⟨⟨g, hg⟩, hforced⟩ := (registry_of_check takeover).1 hcheck
  have hcobol : takeover.knows "cobol" ≠ true := by decide
  have hfallback : g.fallback = some 10 := by cases hg; rfl
  refine ⟨hcheck, (hforced "Cxx").2 (by decide), mt (hforced "cobol").1 hcobol, g, hg, hfallback,
    ?_⟩
  exact ((registry_of_check takeover).2 none g hg).2.1 10 hfallback

end Registry
end Gloss
