import Gloss.Proofs.Collected
import Gloss.Proofs.Registry
/-!
# The language of a file

`Chosen` says which language a file is in: the forced one, else the last one that
claims its extension, else the default, else none. A registry answers with the name
and the rules of this language (`resolve_chosen`). So a file with a claimed
extension has a language, and files are taken from a directory only by such
extensions.
-/

namespace Gloss

/-- No language claims the extension of the path. -/
def Settings.Unclaimed (s : Settings) (p : Path) : Prop :=
  ∀ e, p.extension? = some e → ∀ c ∈ s.roster, ¬ c.Claims (Text.lower e)

/-- The language of a file, given the one forced on all files, and what tells it. -/
inductive Settings.Chosen (s : Settings) (forced : Option String) (p : Path) :
    Option Candidate → Prop
  | forced {name : String} {i : Nat} {c : Candidate} :
      forced = some name → s.Calls name i c → Chosen s forced p (some c)
  | claimed {e : String} {i : Nat} {c : Candidate} : forced = none → p.extension? = some e →
      LastAt (·.Claims (Text.lower e)) s.roster i c → Chosen s forced p (some c)
  | default {name : String} {i : Nat} {c : Candidate} : forced = none → s.Unclaimed p →
      s.defaultLanguage = some name → s.Calls name i c → Chosen s forced p (some c)
  | undetermined : forced = none → s.Unclaimed p → s.defaultLanguage = none →
      Chosen s forced p none

namespace Registry

variable {g : Registry} {s : Settings} {forced : Option String} {m : Option Bool}
  {cs : List Candidate} {c : Candidate} {p : Path} {name : String} {i : Nat}

/-- The registry gives name and rules of a language for a path, or says that none is
known. -/
def Answers (g : Registry) (m : Option Bool) (p : Path) : Option Candidate → Prop
  | some c => ∃ r, g.resolve p = .ok (c.key, r) ∧ r.toDelimiters = c.delimiters m
  | none => g.resolve p = .error (.undetermined p)

theorem Lists.entry (h : g.Lists m cs) (hc : cs[i]? = some c) :
    ∃ r, g.entries[i]? = some (c.key, r) ∧ r.toDelimiters = c.delimiters m := by
  obtain ⟨hi, rfl⟩ := List.getElem?_eq_some_iff.1 hc
  have hi' : i < g.entries.length := h.entries.length_eq ▸ hi
  obtain ⟨hkey, hrules⟩ := h.entries.get hi hi'
  exact ⟨_, (List.getElem?_eq_getElem hi').trans (congrArg some (Prod.ext hkey rfl)), hrules⟩

/-- What the number decides that comes first. -/
theorem answers_of_number (h : g.Lists m cs) (hc : cs[i]? = some c)
    (hi : (g.forced <|> g.claimant? p <|> g.fallback) = some i) : g.Answers m p (some c) := by
  obtain ⟨r, hr, hrules⟩ := h.entry hc
  exact ⟨r, by rw [resolve, hi, Option.bind_some, hr], hrules⟩

theorem claimant?_eq_some_iff (h : g.Lists m s.roster) : g.claimant? p = some i ↔
    ∃ e c, p.extension? = some e ∧ LastAt (·.Claims (Text.lower e)) s.roster i c := by
  rw [claimant?, Option.bind_eq_some_iff]
  simp only [h.byExtension, exists_and_left]

theorem claimant?_eq_none_iff (h : g.Lists m s.roster) : g.claimant? p = none ↔ s.Unclaimed p := by
  constructor
  · intro hnone e he c hc hclaims
    obtain ⟨i, c', hlast⟩ := exists_lastAt (P := (·.Claims (Text.lower e))) hc hclaims
    rw [(claimant?_eq_some_iff h).2 ⟨e, c', he, hlast⟩] at hnone
    cases hnone
  · intro hall
    cases hclaimant : g.claimant? p with
    | none => rfl
    | some i =>
      obtain ⟨e, c, he, hlast⟩ := (claimant?_eq_some_iff h).1 hclaimant
      exact absurd hlast.holds (hall e he c hlast.mem)

theorem eq_bind_number? {name : Option String} {j : Option Nat}
    (h : Option.Rel (fun name i => g.number? name = some i) name j) : j = name.bind g.number? := by
  cases h with
  | none => rfl
  | some hnumber => exact hnumber.symm

theorem exists_chosen (h : ofSettings s forced = .ok g) (p : Path) :
    ∃ choice, s.Chosen forced p choice := by
  obtain ⟨hlists, hforced, hfallback⟩ := lists_of_ofSettings h
  generalize g.forced = f at hforced
  cases hforced with
  | some hnumber =>
    obtain ⟨c, hcalls⟩ := (number?_eq_some_iff hlists).1 hnumber
    exact ⟨_, .forced rfl hcalls⟩
  | none =>
    cases hclaimant : g.claimant? p with
    | some i =>
      obtain ⟨e, c, he, hlast⟩ := (claimant?_eq_some_iff hlists).1 hclaimant
      exact ⟨_, .claimed rfl he hlast⟩
    | none =>
      have hunclaimed := (claimant?_eq_none_iff hlists).1 hclaimant
      generalize hname : s.defaultLanguage = name at hfallback
      generalize g.fallback = f at hfallback
      cases hfallback with
      | some hnumber =>
        obtain ⟨c, hcalls⟩ := (number?_eq_some_iff hlists).1 hnumber
        exact ⟨_, .default rfl hunclaimed hname hcalls⟩
      | none => exact ⟨_, .undetermined rfl hunclaimed hname⟩

theorem getElem?_of_calls (h : s.Calls name i c) : s.roster[i]? = some c := by
  rcases h with hlast | ⟨-, _, -, hlast⟩
  · exact hlast.at_index
  · exact hlast.at_index

theorem answers_of_chosen (h : ofSettings s forced = .ok g) {choice : Option Candidate}
    (hchosen : s.Chosen forced p choice) : g.Answers s.multiline p choice := by
  obtain ⟨hlists, hforced, hfallback⟩ := lists_of_ofSettings h
  have hforced := eq_bind_number? hforced
  have hfallback := eq_bind_number? hfallback
  cases hchosen with
  | forced hname hcalls =>
    rw [hname, Option.bind_some, (number?_eq_some_iff hlists).2 ⟨_, hcalls⟩] at hforced
    exact answers_of_number hlists (getElem?_of_calls hcalls) (by rw [hforced]; rfl)
  | claimed hname he hlast =>
    rw [hname, Option.bind_none] at hforced
    have hclaimant := (claimant?_eq_some_iff hlists).2 ⟨_, _, he, hlast⟩
    exact answers_of_number hlists hlast.at_index (by rw [hforced, hclaimant]; rfl)
  | default hname hunclaimed hdefault hcalls =>
    rw [hname, Option.bind_none] at hforced
    rw [hdefault, Option.bind_some, (number?_eq_some_iff hlists).2 ⟨_, hcalls⟩] at hfallback
    have hclaimant := (claimant?_eq_none_iff hlists).2 hunclaimed
    exact answers_of_number hlists (getElem?_of_calls hcalls)
      (by rw [hforced, hclaimant, hfallback]; rfl)
  | undetermined hname hunclaimed hdefault =>
    rw [hname, Option.bind_none] at hforced
    rw [hdefault, Option.bind_none] at hfallback
    rw [Answers, resolve, hforced, (claimant?_eq_none_iff hlists).2 hunclaimed, hfallback]
    rfl

theorem resolve_of_claims (h : ofSettings s forced = .ok g) (hp : g.claims p = true) :
    ∃ entry, g.resolve p = .ok entry := by
  obtain ⟨choice, hchosen⟩ := exists_chosen h p
  have hanswers := answers_of_chosen h hchosen
  cases choice with
  | some c =>
    obtain ⟨r, hr, -⟩ := hanswers
    exact ⟨_, hr⟩
  | none =>
    cases hchosen with
    | undetermined _ hunclaimed _ =>
      rw [claims, (claimant?_eq_none_iff (lists_of_ofSettings h).1).2 hunclaimed] at hp
      cases hp

end Registry

/-! ## Files of a directory -/

theorem Path.fileName?_join {p : Path} {name : String} (h : Proper name) :
    (p.join name).fileName? = some name := by
  obtain ⟨front, hparts, -⟩ := exists_parts_join p name
  have hname : parts ⟨name⟩ = [name] := by
    have := parts_intercalate (List.cons_ne_nil name []) (by simpa using h.no_slash)
    rwa [String.intercalate_singleton] at this
  have hstep : step? name = some (.name name) := by
    rw [step?, if_neg (by simp [h.not_empty, h.not_dot]), if_neg h.not_dots]
  have hlast : (p.join name).steps.getLast? = some (.name name) := by
    rw [steps, hparts, hname, List.filterMap_append, List.filterMap_cons, hstep, List.filterMap_nil,
      ← List.append_assoc, List.getLast?_concat]
  rw [fileName?, hlast]

theorem Path.extension?_join {p : Path} {name : String} (h : Proper name) :
    (p.join name).extension? = extension? ⟨name⟩ := by
  have hname : fileName? ⟨name⟩ = some name := by
    have := fileName?_join (p := ⟨""⟩) h
    rwa [join, if_pos (.inl rfl), String.empty_append] at this
  rw [extension?, fileName?_join h, extension?, hname]

/-- The last of the names of a file that is taken from a directory was asked for. -/
theorem Node.keep_of_mem_filesBelow {keep : String → Bool} {names : Location}
    {entries : List (String × Node)} (h : names ∈ (dir entries).filesBelow keep) :
    ∃ front name, names = front ++ [name] ∧ keep name = true := by
  induction names generalizing entries with
  | nil =>
    obtain ⟨_, _, _, _, hnil, -⟩ := mem_filesBelow h
    cases hnil
  | cons name names ih =>
    obtain ⟨key, n, below, -, heq, hn⟩ := mem_filesBelow h
    obtain ⟨rfl, rfl⟩ := List.cons.inj heq
    rcases hn with ⟨_, -, rfl, hkeep⟩ | ⟨inner, -, hbelow⟩
    · exact ⟨[], name, rfl, hkeep⟩
    · obtain ⟨front, last, rfl, hkeep⟩ := ih hbelow
      exact ⟨name :: front, last, rfl, hkeep⟩

/-- The extension of a file that is taken from a directory is claimed. -/
theorem Disk.claims_of_filesOf {d : Disk} {g : Registry} {input : Path} {files : List InputFile}
    (hd : d.Tidy) (hdir : d.isDir input = true) (h : filesOf d g input = .ok files)
    {file : InputFile} (hmem : file ∈ files) : g.claims file.path = true := by
  unfold filesOf at h
  split at h
  · rename_i hnode
    rw [isDir, hnode] at hdir
    cases hdir
  · rename_i entries hnode
    extract_lets tree at h
    split at h
    · cases h
      obtain ⟨names, hnames, rfl⟩ := List.mem_map.1 hmem
      unfold node? at hnode
      split at hnode
      · obtain ⟨-, -, hproper⟩ := hd.filesBelow hnode hnames
        obtain ⟨front, name, rfl, hclaims⟩ := Node.keep_of_mem_filesBelow hnames
        rwa [Registry.claims, Registry.claimant?, Path.below, List.foldl_append,
          List.foldl_cons, List.foldl_nil, Path.extension?_join (hproper name (by simp))]
      · cases hnode
    · cases h
  · cases h

namespace Registry

/-- Every path has one language that is chosen for it, and a registry answers with the
name of this language and with rules that have its delimiters. A path whose extension
is claimed is always answered for, and so is every file that is taken from a
directory. -/
theorem resolve_chosen {s : Settings} {forced : Option String} {g : Registry}
    (h : ofSettings s forced = .ok g) :
    (∀ p, (∃ choice, s.Chosen forced p choice) ∧
      ∀ choice, s.Chosen forced p choice → g.Answers s.multiline p choice) ∧
    (∀ p, g.claims p = true → ∃ entry, g.resolve p = .ok entry) ∧
    ∀ (d : Disk) input files, d.Tidy → d.isDir input = true → filesOf d g input = .ok files →
      ∀ file ∈ files, ∃ entry, g.resolve file.path = .ok entry := by
  refine ⟨fun p => ⟨exists_chosen h p, fun choice => answers_of_chosen h⟩,
    fun p => resolve_of_claims h, fun d input files hd hdir hfiles file hfile => ?_⟩
  exact resolve_of_claims h (Disk.claims_of_filesOf hd hdir hfiles hfile)

/-- A file with an extension that two languages of the settings claim. -/
def oneFile : Disk := ⟨.dir [("A.J", .file "x ; y\n".toUTF8)], []⟩

theorem tidy_oneFile : oneFile.Tidy := by
  apply Disk.tidy_flat
  · intro e he
    exact ⟨_, congrArg Prod.snd (List.mem_singleton.1 he)⟩
  · decide
  · intro name hname
    cases List.mem_singleton.1 hname
    constructor <;> decide

theorem filesOf_oneFile {g : Registry} (h : g.claims ⟨"A.J"⟩ = true) :
    filesOf oneFile g ⟨"."⟩ = .ok [⟨⟨"./A.J"⟩, ⟨"A.J"⟩⟩] := by
  have hnode : oneFile.node? ⟨"."⟩ = some (.dir [("A.J", .file "x ; y\n".toUTF8)]) := rfl
  rw [filesOf, hnode]
  simp only [Node.filesBelow_file, Node.dirsBelow_file, h]
  rfl

/-- The last language with the name of a known one has its extension too. -/
theorem chosen_takeover : takeover.Chosen none ⟨"src/A.java"⟩ (some (.custom "JAVA"
    { extensions := ["..Java", "j"], lineComment := some [';'], multiline := some true })) := by
  have hextension : Path.extension? ⟨"src/A.java"⟩ = some "java" := by decide +kernel
  refine .claimed rfl hextension (i := 14) ⟨rfl, ⟨"..Java", List.mem_cons_self, by decide⟩, ?_⟩
  intro j c hj hc
  have hlt : j < 16 := (List.getElem?_eq_some_iff.1 hc).1
  obtain rfl : j = 15 := by omega
  cases hc
  rintro ⟨_, hnone, -⟩
  cases hnone

theorem resolve_chosen_takeover : ∃ g, ofSettings takeover none = .ok g ∧
    (∃ r, g.resolve ⟨"src/A.java"⟩ = .ok ("java", r) ∧ r.lineComment = some [';'] ∧
      r.multiline = true) ∧
    filesOf oneFile g ⟨"."⟩ = .ok [⟨⟨"./A.J"⟩, ⟨"A.J"⟩⟩] ∧
    ∃ entry, g.resolve ⟨"./A.J"⟩ = .ok entry := by
  obtain ⟨g, hg⟩ : ∃ g, ofSettings takeover none = .ok g := ⟨_, rfl⟩
  have hclaims : g.claims ⟨"A.J"⟩ = true := by
    cases hg
    decide +kernel
  obtain ⟨hanswers, -, hfiles⟩ := resolve_chosen hg
  obtain ⟨r, hr, hrules⟩ := (hanswers ⟨"src/A.java"⟩).2 _ chosen_takeover
  refine ⟨g, hg, ⟨r, hr, by rw [hrules]; rfl, by rw [hrules]; rfl⟩, filesOf_oneFile hclaims, ?_⟩
  exact hfiles oneFile ⟨"."⟩ _ tidy_oneFile rfl (filesOf_oneFile hclaims) ⟨⟨"./A.J"⟩, ⟨"A.J"⟩⟩
    (by simp)

end Registry
end Gloss
