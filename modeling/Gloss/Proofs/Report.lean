import Gloss.Command.Check
import Gloss.Command.Extract
import Gloss.Proofs.Collected
/-!
# Reports on several files

What a run that only reads has to say is an account of its files: the accounts of the
single files, one after the other (`check_says`, `extract_says`). So what is said of two
lists of inputs is what is said of each, and a file that fails adds what stands in its
own account and nothing else.
-/

namespace Gloss

theorem collect_append {d : Disk} {g : Registry} {a b : List Path} {fa fb : List InputFile}
    (ha : collect d g a = .ok fa) (hb : collect d g b = .ok fb) :
    collect d g (a ++ b) = .ok (fa ++ fb) := by
  rw [Command.collect_eq_ok_iff] at *
  obtain ⟨hne, groups, hgroups, rfl⟩ := ha
  obtain ⟨-, more, hmore, rfl⟩ := hb
  refine ⟨fun h => hne (List.append_eq_nil_iff.1 h).1, groups ++ more, ?_, ?_⟩
  · rw [List.mapM_append, hgroups, hmore]
    rfl
  · rw [List.flatten_append]

namespace Command

/-! ## Accounts -/

instance : Add Summary where
  add s t := ⟨s.count + t.count, s.processed + t.processed, s.failed + t.failed⟩

attribute [ext] Summary

@[simp] theorem Summary.add_count (s t : Summary) : (s + t).count = s.count + t.count := rfl

@[simp] theorem Summary.add_processed (s t : Summary) :
    (s + t).processed = s.processed + t.processed := rfl

@[simp] theorem Summary.add_failed (s t : Summary) : (s + t).failed = s.failed + t.failed := rfl

/-- The summary of one file that was worked on, with what was found in it. -/
def Summary.done (count : Nat) : Summary := ⟨count, 1, 0⟩

/-- The summary of one file that failed. -/
def Summary.lost : Summary := ⟨0, 0, 1⟩

/-- What there is to say about files. -/
@[ext]
structure Account (α : Type) where
  /-- What is listed on the output. -/
  shown : List α
  warnings : List String
  summary : Summary

namespace Account

variable {α : Type}

instance : Add (Account α) where
  add x y := ⟨x.shown ++ y.shown, x.warnings ++ y.warnings, x.summary + y.summary⟩

@[simp] theorem add_shown (x y : Account α) : (x + y).shown = x.shown ++ y.shown := rfl

@[simp] theorem add_warnings (x y : Account α) :
    (x + y).warnings = x.warnings ++ y.warnings := rfl

@[simp] theorem add_summary (x y : Account α) : (x + y).summary = x.summary + y.summary := rfl

/-- The account of a file that fails with no more than a warning. -/
def failure (file : InputFile) (p : Problem) : Account α :=
  ⟨[], [s!"{file.path.text}: {p.message}"], .lost⟩

/-- The accounts of files one after the other. -/
def ofFiles (account : InputFile → Account α) : List InputFile → Account α
  | [] => ⟨[], [], ⟨0, 0, 0⟩⟩
  | file :: files => account file + ofFiles account files

@[simp] theorem ofFiles_cons (account : InputFile → Account α) (file : InputFile)
    (files : List InputFile) :
    ofFiles account (file :: files) = account file + ofFiles account files := rfl

theorem ofFiles_append (account : InputFile → Account α) (xs ys : List InputFile) :
    ofFiles account (xs ++ ys) = ofFiles account xs + ofFiles account ys := by
  induction xs with
  | nil => ext <;> simp [ofFiles]
  | cons x xs ih => ext <;> simp [ih, Nat.add_assoc]

end Account

/-- A run says what stands in an account: `render` makes its output of what is shown,
`verdict` its result of the summary. -/
structure Run.Says {α : Type} (run : Run Summary) (render : List α → String)
    (verdict : Summary → Except Problem Summary) (account : Account α) : Prop where
  output : run.output = render account.shown
  warnings : run.warnings = account.warnings
  result : run.result = verdict account.summary

/-! ## Checking -/

namespace CheckRequest

/-- The request for other inputs. -/
def onInputs (r : CheckRequest) (inputs : List Path) : CheckRequest := { r with inputs }

/-- The result of a check that came to a summary. -/
def verdict (r : CheckRequest) (s : Summary) : Except Problem Summary :=
  if s.failed ≠ 0 then .error (.filesFailed s.failed)
  else if r.denyWarnings ∧ 0 < s.count then .error (.unclosed s.count)
  else .ok s

theorem verdict_eq (r : CheckRequest) (s : Summary) : r.verdict s = do
    let t ← s.check
    if r.denyWarnings ∧ 0 < s.count then throw (.unclosed s.count)
    return t := by
  unfold verdict Summary.check
  by_cases hfailed : s.failed = 0
  · rw [if_neg (not_not.2 hfailed), if_pos hfailed]
    rfl
  · rw [if_pos hfailed, if_neg hfailed]
    rfl

/-- What a check has to say about one file. -/
def account (r : CheckRequest) (d : Disk) (g : Registry) (file : InputFile) : Account String :=
  match report r d g file with
  | .error p => .failure file p
  | .ok found =>
    { shown := found.diagnostics
      warnings := []
      summary :=
        ⟨found.unclosed, if found.readable then 1 else 0, if found.readable then 0 else 1⟩ }

end CheckRequest

/-- Diagnostics, each on a line of its own. -/
def lines (diagnostics : List String) : String := String.join (diagnostics.map (· ++ "\n"))

theorem lines_append (xs ys : List String) : lines (xs ++ ys) = lines xs ++ lines ys := by
  unfold lines
  rw [List.map_append, String.join_append]

section

variable {r : CheckRequest} {d : Disk} {g : Registry} {s : Settings} {files : List InputFile}

theorem events_of_report (file : InputFile) :
    let run : Run Summary := ⟨FileReport.events file (report r d g file), .ok .lost⟩
    run.output = lines (r.account d g file).shown ∧
      run.warnings = (r.account d g file).warnings := by
  unfold CheckRequest.account
  cases report r d g file with
  | error p => exact ⟨rfl, rfl⟩
  | ok found =>
    constructor
    · simp [Run.output, FileReport.events, lines, Event.text, Function.comp_def]
    · simp [Run.warnings, FileReport.events]

theorem check_shows (result : Except Problem Summary) :
    let run : Run Summary :=
      ⟨files.flatMap fun file => FileReport.events file (report r d g file), result⟩
    run.output = lines (Account.ofFiles (r.account d g) files).shown ∧
      run.warnings = (Account.ofFiles (r.account d g) files).warnings := by
  induction files with
  | nil => exact ⟨rfl, rfl⟩
  | cons file files ih =>
    obtain ⟨houtput, hwarnings⟩ := events_of_report (r := r) (d := d) (g := g) file
    constructor
    · rw [Account.ofFiles_cons, Account.add_shown, lines_append, ← houtput, ← ih.1, Run.output,
        List.flatMap_cons, List.map_append, String.join_append]
      rfl
    · rw [Account.ofFiles_cons, Account.add_warnings, ← hwarnings, ← ih.2, Run.warnings,
        List.flatMap_cons, List.filterMap_append]
      rfl

theorem summary_of_report (file : InputFile) :
    (r.account d g file).summary = ⟨FileReport.count (report r d g file),
      if FileReport.isGood (report r d g file) then 1 else 0,
      if FileReport.isGood (report r d g file) then 0 else 1⟩ := by
  unfold CheckRequest.account
  cases report r d g file <;> rfl

theorem check_counts :
    let count := (files.map fun file => FileReport.count (report r d g file)).foldl (· + ·) 0
    let processed := files.countP fun file => FileReport.isGood (report r d g file)
    (Account.ofFiles (r.account d g) files).summary =
      ⟨count, processed, files.length - processed⟩ := by
  induction files with
  | nil => rfl
  | cons file files ih =>
    intro count processed
    have hle := List.countP_le_length (p := fun file => FileReport.isGood (report r d g file))
      (l := files)
    rw [Account.ofFiles_cons, Account.add_summary, ih, summary_of_report]
    unfold count processed
    simp only [← List.sum_eq_foldl]
    rw [List.map_cons, List.sum_cons, List.countP_cons, List.length_cons]
    ext
    · rfl
    · exact Nat.add_comm _ _
    · rw [Summary.add_failed]
      dsimp only
      split <;> omega

/-- A check says what there is to say about its files. -/
theorem check_says (hg : Registry.ofSettings s r.language = .ok g)
    (hfiles : collect d g r.inputs = .ok files) :
    (check r d s).Says lines r.verdict (Account.ofFiles (r.account d g) files) := by
  have hrun : check r d s = ⟨files.flatMap fun file => FileReport.events file (report r d g file),
      r.verdict (Account.ofFiles (r.account d g) files).summary⟩ := by
    unfold check
    extract_lets prepared
    have hprepared : prepared = .ok (g, files) := by
      unfold prepared
      rw [bind_of_ok hg, bind_of_ok hfiles]
      rfl
    rw [hprepared, check_counts]
    simp only [List.flatMap_map, List.map_map, List.countP_map]
    exact congrArg (Run.mk _) (r.verdict_eq _).symm
  rw [hrun]
  exact ⟨(check_shows _).1, (check_shows _).2, rfl⟩

end

/-! ## Extracting -/

namespace ExtractRequest

/-- The request for other inputs. -/
def onInputs (r : ExtractRequest) (inputs : List Path) : ExtractRequest := { r with inputs }

/-- The form of the listing. -/
def form (r : ExtractRequest) : Except Problem Format :=
  match r.format with
  | some name => Format.ofName? name
  | none => .ok .text

end ExtractRequest

/-- The listing as text. -/
def Format.render (f : Format) (found : List Listed) : String :=
  match f with
  | .text => String.join (found.map Listed.line)
  | .json => (Json.array (found.map Listed.json)).render 0 ++ "\n"

theorem Format.render_append (xs ys : List Listed) :
    Format.text.render (xs ++ ys) = Format.text.render xs ++ Format.text.render ys := by
  unfold Format.render
  rw [List.map_append, String.join_append]

/-- What there is to extract from one file. -/
def extracted (d : Disk) (g : Registry) (file : InputFile) : Account Listed :=
  match listed d g file with
  | .error p => .failure file p
  | .ok found => { shown := found, warnings := [], summary := .done found.length }

section

variable {r : ExtractRequest} {d : Disk} {g : Registry} {s : Settings} {files : List InputFile}
  {format : Format}

theorem extract_shown : (files.flatMap fun file => match listed d g file with
      | .ok found => found
      | .error _ => []) = (Account.ofFiles (extracted d g) files).shown := by
  induction files with
  | nil => rfl
  | cons file files ih =>
    rw [List.flatMap_cons, ih, Account.ofFiles_cons, Account.add_shown, extracted]
    cases listed d g file <;> rfl

theorem extract_warnings : (files.filterMap fun file => match listed d g file with
      | .ok _ => none
      | .error p => some (.failure file p)) =
    (Account.ofFiles (extracted d g) files).warnings.map Event.warning := by
  induction files with
  | nil => rfl
  | cons file files ih =>
    rw [List.filterMap_cons, ih, Account.ofFiles_cons, Account.add_warnings, List.map_append,
      extracted]
    cases listed d g file <;> rfl

theorem extract_counts :
    let account := Account.ofFiles (extracted d g) files
    account.warnings.length ≤ files.length ∧ account.summary =
      ⟨account.shown.length, files.length - account.warnings.length, account.warnings.length⟩ := by
  induction files with
  | nil => exact ⟨Nat.le_refl _, rfl⟩
  | cons file files ih =>
    obtain ⟨hle, hsummary⟩ := ih
    obtain ⟨hone, hfile⟩ : (extracted d g file).warnings.length ≤ 1 ∧
        (extracted d g file).summary = ⟨(extracted d g file).shown.length,
          1 - (extracted d g file).warnings.length, (extracted d g file).warnings.length⟩ := by
      unfold extracted
      cases listed d g file with
      | error p => exact ⟨Nat.le_refl 1, rfl⟩
      | ok found => exact ⟨Nat.zero_le 1, rfl⟩
    intro account
    unfold account
    rw [Account.ofFiles_cons, Account.add_summary, hsummary, hfile]
    refine ⟨by simp; omega, ?_⟩
    ext <;> simp
    omega

/-- The events of an extraction: its warnings come first. -/
theorem output_of_listing (warnings : List String) (found : List Listed)
    (result : Except Problem Summary) :
    let run : Run Summary := ⟨warnings.map .warning ++ format.show found, result⟩
    run.output = format.render found ∧ run.warnings = warnings := by
  have hsilent : String.join ((warnings.map Event.warning).map Event.text) = "" := by
    induction warnings with
    | nil => rfl
    | cons w ws ih => rw [List.map_cons, List.map_cons, String.join_cons, ih]; rfl
  have hspoken : (⟨format.show found, result⟩ : Run Summary).warnings = [] := by
    cases format with
    | text => simp [Run.warnings, Format.show]
    | json => rfl
  constructor
  · rw [Run.output, List.map_append, String.join_append, hsilent, String.empty_append]
    cases format with
    | text => simp [Format.show, Format.render, Event.text, Function.comp_def]
    | json => simp [Format.show, Format.render, Event.text, String.join_cons]
  · rw [Run.warnings, List.filterMap_append, List.filterMap_map]
    exact (congrArg _ hspoken).trans ((List.append_nil _).trans List.filterMap_some)

/-- An extraction says what there is to extract from its files. -/
theorem extract_says (hform : r.form = .ok format) (hg : Registry.ofSettings s r.language = .ok g)
    (hfiles : collect d g r.inputs = .ok files) :
    (extract r d s).Says format.render Summary.check (Account.ofFiles (extracted d g) files) := by
  have hrun : extract r d s = ⟨(Account.ofFiles (extracted d g) files).warnings.map .warning ++
      format.show (Account.ofFiles (extracted d g) files).shown,
      (Account.ofFiles (extracted d g) files).summary.check⟩ := by
    unfold extract
    extract_lets below prepared
    have hbelow : below format = .ok (format, g, files) := by
      unfold below
      rw [bind_of_ok hg, bind_of_ok hfiles]
      rfl
    have hprepared : prepared = .ok (format, g, files) := by
      unfold prepared
      unfold ExtractRequest.form at hform
      cases hname : r.format with
      | none =>
        rw [hname] at hform
        cases hform
        exact hbelow
      | some name =>
        rw [hname] at hform
        show Format.ofName? name >>= below = _
        rw [show Format.ofName? name = .ok format from hform]
        exact hbelow
    rw [hprepared, extract_counts.2, ← extract_shown, ← List.length_map (f := Event.warning),
      ← extract_warnings]
    simp only [List.flatMap_map, List.filterMap_map]
    rfl
  rw [hrun]
  exact ⟨(output_of_listing _ _ _).1, (output_of_listing _ _ _).2, rfl⟩

end

/-! ## Several inputs -/

section

variable {d : Disk} {g : Registry} {file : InputFile}

theorem account_of_resolved {r : CheckRequest} {entry : String × Rules}
    (h : g.resolve file.path = .ok entry) :
    let found := FileReport.ofFile r d entry.2 file.path
    r.account d g file =
      ⟨found.diagnostics, [], found.unclosed, if found.readable then 1 else 0,
        if found.readable then 0 else 1⟩ := by
  rw [CheckRequest.account, report, h]
  rfl

/-- A file that cannot be opened is counted as one that failed, and adds nothing else but
a warning or, in a check, one diagnostic. -/
theorem account_of_unopened {p : Problem} (h : openSource d g file.path = .error p) :
    extracted d g file = .failure file p ∧ ∀ r : CheckRequest,
      (r.account d g file).summary = .lost ∧
      (r.account d g file).shown.length + (r.account d g file).warnings.length = 1 := by
  refine ⟨by rw [extracted, listed, h]; rfl, fun r => ?_⟩
  cases hresolve : g.resolve file.path with
  | error =>
    rw [CheckRequest.account, report, hresolve]
    exact ⟨rfl, rfl⟩
  | ok entry =>
    cases hread : readSource d file.path with
    | error =>
      rw [account_of_resolved hresolve, FileReport.ofFile, hread]
      exact ⟨rfl, rfl⟩
    | ok source =>
      rw [openSource, hresolve] at h
      change (readSource d file.path >>= _) = _ at h
      rw [hread] at h
      cases h

/-- A file that can be opened did not fail, and as much of it is shown as is counted. -/
theorem account_of_opened {x : String × Rules × String} (h : openSource d g file.path = .ok x) :
    (extracted d g file).summary = .done (extracted d g file).shown.length ∧
      (extracted d g file).warnings = [] ∧ ∀ r : CheckRequest,
      (r.account d g file).summary = .done (r.account d g file).shown.length ∧
      (r.account d g file).warnings = [] := by
  refine ⟨by rw [extracted, listed, h]; rfl, by rw [extracted, listed, h]; rfl, fun r => ?_⟩
  rw [openSource] at h
  obtain ⟨entry, hresolve, h⟩ := exists_of_bind h
  obtain ⟨source, hread, -⟩ := exists_of_bind h
  rw [account_of_resolved hresolve, FileReport.ofFile, hread]
  refine ⟨?_, rfl⟩
  cases r.denyWarnings <;> simp [Summary.done]

end

/-- What is said of two lists of inputs together is what is said of each, in the same
order, and the numbers are the sums. This is so whatever fails: a file that cannot be
opened is counted, and adds at most one line of its own. -/
theorem says_append {d : Disk} {s : Settings} {language : Option String} {g : Registry}
    {a b : List Path} {fa fb : List InputFile} (hg : Registry.ofSettings s language = .ok g)
    (ha : collect d g a = .ok fa) (hb : collect d g b = .ok fb) :
    (∀ r : CheckRequest, r.language = language →
      let A := Account.ofFiles (r.account d g) fa
      let B := Account.ofFiles (r.account d g) fb
      (check (r.onInputs a) d s).Says lines r.verdict A ∧
      (check (r.onInputs b) d s).Says lines r.verdict B ∧
      (check (r.onInputs (a ++ b)) d s).Says lines r.verdict (A + B) ∧
      (check (r.onInputs (a ++ b)) d s).output =
        (check (r.onInputs a) d s).output ++ (check (r.onInputs b) d s).output) ∧
    (∀ r : ExtractRequest, r.language = language → ∀ format, r.form = .ok format →
      let A := Account.ofFiles (extracted d g) fa
      let B := Account.ofFiles (extracted d g) fb
      (extract (r.onInputs a) d s).Says format.render Summary.check A ∧
      (extract (r.onInputs b) d s).Says format.render Summary.check B ∧
      (extract (r.onInputs (a ++ b)) d s).Says format.render Summary.check (A + B) ∧
      (format = .text → (extract (r.onInputs (a ++ b)) d s).output =
        (extract (r.onInputs a) d s).output ++ (extract (r.onInputs b) d s).output) ∧
      (format = .json → ∃ xs ys,
        (extract (r.onInputs a) d s).output = (Json.array xs).render 0 ++ "\n" ∧
        (extract (r.onInputs b) d s).output = (Json.array ys).render 0 ++ "\n" ∧
        (extract (r.onInputs (a ++ b)) d s).output = (Json.array (xs ++ ys)).render 0 ++ "\n")) ∧
    ∀ file,
      (∀ x, openSource d g file.path = .ok x →
        (extracted d g file).summary = .done (extracted d g file).shown.length ∧
        (extracted d g file).warnings = [] ∧ ∀ r : CheckRequest,
          (r.account d g file).summary = .done (r.account d g file).shown.length ∧
          (r.account d g file).warnings = []) ∧
      ∀ p, openSource d g file.path = .error p →
        extracted d g file = .failure file p ∧ ∀ r : CheckRequest,
          (r.account d g file).summary = .lost ∧
          (r.account d g file).shown.length + (r.account d g file).warnings.length = 1 := by
  have hab := collect_append ha hb
  refine ⟨?_, ?_, ?_⟩
  · rintro r rfl A B
    have hA : (check (r.onInputs a) d s).Says lines r.verdict A := check_says hg ha
    have hB : (check (r.onInputs b) d s).Says lines r.verdict B := check_says hg hb
    have hAB : (check (r.onInputs (a ++ b)) d s).Says lines r.verdict (A + B) := by
      have hsays := check_says (r := r.onInputs (a ++ b)) hg hab
      rwa [Account.ofFiles_append] at hsays
    refine ⟨hA, hB, hAB, ?_⟩
    rw [hAB.output, hA.output, hB.output, Account.add_shown, lines_append]
  · rintro r rfl format hform A B
    have hA : (extract (r.onInputs a) d s).Says format.render Summary.check A :=
      extract_says hform hg ha
    have hB : (extract (r.onInputs b) d s).Says format.render Summary.check B :=
      extract_says hform hg hb
    have hAB : (extract (r.onInputs (a ++ b)) d s).Says format.render Summary.check (A + B) := by
      have hsays := extract_says (r := r.onInputs (a ++ b)) hform hg hab
      rwa [Account.ofFiles_append] at hsays
    refine ⟨hA, hB, hAB, ?_, ?_⟩
    · rintro rfl
      rw [hAB.output, hA.output, hB.output, Account.add_shown, Format.render_append]
    · rintro rfl
      refine ⟨A.shown.map Listed.json, B.shown.map Listed.json, hA.output, hB.output, ?_⟩
      rw [hAB.output, Account.add_shown, Format.render, List.map_append]
  · intro file
    exact ⟨fun x => account_of_opened, fun p => account_of_unopened⟩

/-- A file with a comment and one that never ends, one of no language, and below a
directory one that is no text. -/
def mixed : Disk :=
  ⟨.dir [("a.c", .file "int x; // one\n/* two".toUTF8), ("b.zz", .file "plain".toUTF8),
    ("src", .dir [("c.c", .file ⟨#[0xff]⟩)])], []⟩

theorem collect_mixed {g : Registry} (h : g.claims ⟨"c.c"⟩ = true) :
    collect mixed g [⟨"src"⟩] = .ok [⟨⟨"src/c.c"⟩, ⟨"c.c"⟩⟩] := by
  have hnode : mixed.node? ⟨"src"⟩ = some (.dir [("c.c", .file ⟨#[0xff]⟩)]) := rfl
  have hfiles : filesOf mixed g ⟨"src"⟩ = .ok [⟨⟨"src/c.c"⟩, ⟨"c.c"⟩⟩] := by
    rw [filesOf, hnode]
    simp only [Node.filesBelow_file, Node.dirsBelow_file, h]
    rfl
  rw [collect, if_neg (List.cons_ne_nil _ _), List.mapM_cons, hfiles]
  rfl

theorem says_append_mixed :
    (extract ⟨[⟨"b.zz"⟩, ⟨"a.c"⟩, ⟨"src"⟩], none, none⟩ mixed {}).output =
      "a.c:1: one\na.c:2: two\n" ∧
    (extract ⟨[⟨"b.zz"⟩, ⟨"a.c"⟩, ⟨"src"⟩], none, none⟩ mixed {}).result =
      .error (.filesFailed 2) ∧
    (check ⟨[⟨"b.zz"⟩, ⟨"a.c"⟩, ⟨"src"⟩], none, true, false⟩ mixed {}).result =
      .error (.filesFailed 2) := by
  obtain ⟨g, hg⟩ : ∃ g, Registry.ofSettings {} none = .ok g := ⟨_, rfl⟩
  have ha : collect mixed g [⟨"b.zz"⟩, ⟨"a.c"⟩] =
      .ok [⟨⟨"b.zz"⟩, ⟨"b.zz"⟩⟩, ⟨⟨"a.c"⟩, ⟨"a.c"⟩⟩] := rfl
  have hb : collect mixed g [⟨"src"⟩] = .ok [⟨⟨"src/c.c"⟩, ⟨"c.c"⟩⟩] := by
    apply collect_mixed
    cases hg
    decide +kernel
  obtain ⟨hcheck, hextract, -⟩ := says_append hg ha hb
  obtain ⟨-, -, htext, -⟩ := hextract ⟨[], none, none⟩ rfl .text rfl
  obtain ⟨-, -, hboth, -⟩ := hcheck ⟨[], none, true, false⟩ rfl
  cases hg
  refine ⟨htext.output.trans ?_, htext.result.trans ?_, hboth.result.trans ?_⟩
  · decide +kernel
  · rfl
  · rfl

end Command
end Gloss
