import Gloss.Proofs.Collected
import Gloss.Proofs.Overwrite
import Gloss.Proofs.Strip
import Mathlib.Data.List.Pairwise
/-!
# Stripping in place

Files that are stripped in place are written over one by one. If no two of them are the
same, what each becomes depends on itself alone (`steps_inPlace`): it is stripped if it
can be opened, and nothing else is touched. A second run reads stripped texts, so it
puts back what is there (`steps_again`).
-/

namespace Gloss

namespace Disk

variable {d : Disk} {p q : Path} {a b : Location} {x y : ByteArray}

/-- The paths are the same, or lead to the same place. -/
def SameFile (d : Disk) (p q : Path) : Prop :=
  p.steps = q.steps ∨ ∃ loc, d.find p = .ok (.found loc) ∧ d.find q = .ok (.found loc)

theorem SameFile.symm (h : d.SameFile p q) : d.SameFile q p := by
  apply h.imp Eq.symm
  rintro ⟨loc, hp, hq⟩
  exact ⟨loc, hq, hp⟩

theorem sameFile_iff (hp : d.FileAt p a x) (hq : d.FileAt q b y) : d.SameFile p q ↔ a = b := by
  constructor
  · rintro (hsteps | ⟨loc, hfound, hfound'⟩)
    · exact hp.eq_of_steps hq hsteps
    · cases hp.found.symm.trans hfound
      cases hq.found.symm.trans hfound'
      rfl
  · rintro rfl
    exact .inr ⟨a, hp.found, hq.found⟩

end Disk

namespace Command

variable {plan : StripPlan} {d e f : Disk} {file : InputFile} {files : List InputFile}
  {text : Text} {n : Nat} {r : StripRequest} {s : Settings}

/-! ## One file -/

/-- The number of comments in an opened file. -/
def comments (x : String × Rules × String) : Nat :=
  (x.2.1.fragments x.2.2.toList).countP (·.kind.isComment)

/-- A file is stripped if it can be opened. -/
theorem strip_eq (plan : StripPlan) (d : Disk) (file : InputFile) :
    plan.strip d file = (openSource d plan.registry file.path).map fun x =>
      (x.2.1.strip plan.policy x.2.2.toList, comments x) := by
  rw [StripPlan.strip]
  cases openSource d plan.registry file.path <;> rfl

theorem strip_snd (d : Disk) (file : InputFile) :
    (plan.strip d file).map Prod.snd = (openSource d plan.registry file.path).map comments := by
  rw [strip_eq]
  cases openSource d plan.registry file.path <;> rfl

theorem exists_of_strip (h : plan.strip d file = .ok (text, n)) :
    ∃ language rules source,
      openSource d plan.registry file.path = .ok (language, rules, source) ∧
      text = rules.strip plan.policy source.toList := by
  rw [strip_eq] at h
  cases hopen : openSource d plan.registry file.path with
  | error => rw [hopen] at h; cases h
  | ok x =>
    rw [hopen] at h
    cases h
    exact ⟨x.1, x.2.1, x.2.2, rfl, rfl⟩

theorem exists_of_openSource {g : Registry} {p : Path} {language : String} {rules : Rules}
    {source : String} (h : openSource d g p = .ok (language, rules, source)) :
    g.resolve p = .ok (language, rules) ∧
      ∃ loc bytes, d.FileAt p loc bytes ∧ String.fromUTF8? bytes = some source := by
  obtain ⟨entry, hresolve, h⟩ := exists_of_bind h
  obtain ⟨text, hread, h⟩ := exists_of_bind h
  cases h
  refine ⟨hresolve, ?_⟩
  unfold readSource at hread
  split at hread
  · rename_i htext
    cases hread
    unfold Disk.readText at htext
    split at htext
    · cases htext
    · rename_i bytes hbytes
      obtain ⟨loc, hfile⟩ := Disk.read_eq_ok_iff.1 hbytes
      refine ⟨loc, bytes, hfile, ?_⟩
      split at htext
      · cases htext
        assumption
      · cases htext
  · cases hread

/-- A file with a text in it is opened with this text. -/
theorem openSource_of_text {g : Registry} {p : Path} {loc : Location} {language : String}
    {rules : Rules} {source : String} (hresolve : g.resolve p = .ok (language, rules))
    (hfile : d.FileAt p loc source.toUTF8) :
    openSource d g p = .ok (language, rules, source) := by
  have hutf : String.fromUTF8? source.toUTF8 = some source := by
    simp only [String.fromUTF8?, String.toUTF8_eq_toByteArray, dif_pos source.isValidUTF8]
    rfl
  have hread : readSource d p = .ok source := by
    rw [readSource, Disk.readText, Disk.read_eq_ok_iff.2 ⟨loc, hfile⟩]
    dsimp only
    rw [hutf]
  rw [openSource, bind_of_ok hresolve]
  dsimp only
  rw [bind_of_ok hread]
  rfl

/-- What a file is without its comments depends on where its path leads and on what is
there. -/
theorem strip_of_shape (hshape : e.shape = d.shape)
    (hlook : ∀ loc, d.find file.path = .ok (.found loc) → e.look? loc = d.look? loc) :
    plan.strip e file = plan.strip d file := by
  have hfind : e.find file.path = d.find file.path := by
    rw [← Disk.find_shape, hshape, Disk.find_shape]
  rw [StripPlan.strip, StripPlan.strip, openSource, openSource, readSource, readSource,
    Disk.readText, Disk.readText, Disk.read_congr hfind hlook]

theorem step_of_error {problem : Problem} (h : plan.strip d file = .error problem) :
    plan.step d file = (d, .error problem) := by
  rw [StripPlan.step, h]

/-- A file that is stripped in place is written over where it is. -/
theorem step_of_ok {loc : Location} {bytes : ByteArray} (htarget : plan.target = .inPlace)
    (h : plan.strip d file = .ok (text, n)) (hfile : d.FileAt file.path loc bytes) :
    plan.step d file = (d.put loc (.file (String.ofList text).toUTF8), .ok n) := by
  have hwrite : plan.write d file text =
      (d.put loc (.file (String.ofList text).toUTF8), .ok ()) := by
    rw [StripPlan.write, if_neg (by simp [htarget])]
    have hdestination : plan.target.destination file = file.path := by rw [htarget]; rfl
    simp only [hdestination, hfile.ensureParent, hfile.write]
  rw [StripPlan.step, h]
  simp only [hwrite]
  rfl

/-! ## Several files -/

/-- What stripping files in place comes to. -/
structure Replaced (plan : StripPlan) (files : List InputFile) (d e : Disk) : Prop where
  shape : e.shape = d.shape
  /-- Files that can be opened are stripped. -/
  stripped : ∀ file ∈ files, ∀ text n, plan.strip d file = .ok (text, n) →
    ∀ loc, d.find file.path = .ok (.found loc) →
      e.look? loc = some (.file (String.ofList text).toUTF8)
  /-- Nothing else changes. -/
  kept : ∀ loc, (∀ file ∈ files, ∀ x, plan.strip d file = .ok x →
    d.find file.path ≠ .ok (.found loc)) → e.look? loc = d.look? loc

theorem Replaced.find (h : Replaced plan files d e) (p : Path) : e.find p = d.find p := by
  rw [← Disk.find_shape, h.shape, Disk.find_shape]

theorem Replaced.sameFile (h : Replaced plan files d e) (p q : Path) :
    e.SameFile p q ↔ d.SameFile p q := by
  unfold Disk.SameFile
  rw [h.find, h.find]

/-- Another file is not touched. -/
theorem Replaced.strip_other (h : Replaced plan files d e)
    (hother : ∀ f ∈ files, ∀ x, plan.strip d f = .ok x → ¬ d.SameFile f.path file.path) :
    plan.strip e file = plan.strip d file := by
  apply strip_of_shape h.shape
  intro loc hfind
  apply h.kept
  intro f hf x hx hfound
  exact hother f hf x hx (.inr ⟨loc, hfound, hfind⟩)

theorem replaced_nil (plan : StripPlan) (d : Disk) : Replaced plan [] d d :=
  ⟨rfl, fun _ h => (List.not_mem_nil h).elim, fun _ _ => rfl⟩

theorem replaced_single (htarget : plan.target = .inPlace) (d : Disk) (file : InputFile) :
    ∃ e, plan.step d file = (e, (plan.strip d file).map Prod.snd) ∧ Replaced plan [file] d e := by
  cases hstrip : plan.strip d file with
  | error problem =>
    refine ⟨d, step_of_error hstrip, rfl, ?_, fun _ _ => rfl⟩
    intro f hf text n hok
    rw [List.mem_singleton.1 hf, hstrip] at hok
    cases hok
  | ok x =>
    obtain ⟨text, n⟩ := x
    obtain ⟨_, _, _, hopen, -⟩ := exists_of_strip hstrip
    obtain ⟨-, loc, bytes, hfile, -⟩ := exists_of_openSource hopen
    refine ⟨_, step_of_ok htarget hstrip hfile, Disk.shape_put hfile.file, ?_, ?_⟩
    · intro f hf text' n' hok loc' hfind
      rw [List.mem_singleton.1 hf] at hok hfind
      cases hstrip.symm.trans hok
      cases hfile.found.symm.trans hfind
      rw [Disk.look?_put_over hfile.file, if_pos rfl]
    · intro loc' hloc
      rw [Disk.look?_put_over hfile.file, if_neg]
      rintro rfl
      exact hloc file (by simp) _ hstrip hfile.found

theorem Replaced.cons (h : Replaced plan [file] d e) (h' : Replaced plan files e f)
    (hother : ∀ f ∈ files, ¬ d.SameFile file.path f.path) : Replaced plan (file :: files) d f := by
  have hsame : ∀ f ∈ files, plan.strip e f = plan.strip d f := by
    intro f hf
    apply h.strip_other
    intro x hx _ _
    rw [List.mem_singleton.1 hx]
    exact hother f hf
  refine ⟨h'.shape.trans h.shape, ?_, ?_⟩
  · intro f hf text n hok loc hfind
    rcases List.mem_cons.1 hf with rfl | hf
    · rw [h'.kept, h.stripped f (by simp) text n hok loc hfind]
      intro x hx _ _ hfound
      rw [h.find] at hfound
      exact hother x hx (.inr ⟨loc, hfind, hfound⟩)
    · rw [← hsame f hf] at hok
      rw [← h.find] at hfind
      exact h'.stripped f hf text n hok loc hfind
  · intro loc hloc
    rw [h'.kept, h.kept]
    · intro x hx
      exact hloc x (List.mem_cons.2 (.inl (List.mem_singleton.1 hx)))
    · intro x hx y hy
      rw [hsame x hx] at hy
      rw [h.find]
      exact hloc x (List.mem_cons_of_mem _ hx) y hy

/-- Files no two of which are the same are stripped each by itself. -/
theorem steps_inPlace (htarget : plan.target = .inPlace)
    (hapart : files.Pairwise fun a b => ¬ d.SameFile a.path b.path) :
    ∃ e, plan.steps d files = (e, files.map fun file =>
        (file, (openSource d plan.registry file.path).map comments)) ∧
      Replaced plan files d e := by
  simp only [← strip_snd]
  induction files generalizing d with
  | nil => exact ⟨d, rfl, replaced_nil plan d⟩
  | cons file files ih =>
    obtain ⟨hother, hapart⟩ := List.pairwise_cons.1 hapart
    obtain ⟨e, hstep, he⟩ := replaced_single htarget d file
    have hapart' : files.Pairwise fun a b => ¬ e.SameFile a.path b.path :=
      hapart.imp fun h => (he.sameFile _ _).not.2 h
    obtain ⟨f, hsteps, hf⟩ := ih hapart'
    refine ⟨f, ?_, he.cons hf hother⟩
    have hsame : ∀ x ∈ files, plan.strip e x = plan.strip d x := by
      intro x hx
      apply he.strip_other
      intro y hy _ _
      rw [List.mem_singleton.1 hy]
      exact hother x hx
    have hresults : files.map (fun x => (x, (plan.strip e x).map Prod.snd)) =
        files.map fun x => (x, (plan.strip d x).map Prod.snd) := by
      apply List.map_congr_left
      intro x hx
      rw [hsame x hx]
    rw [StripPlan.steps, hstep]
    simp only [hsteps, hresults]
    rfl

/-- In which order the files are listed does not matter. -/
theorem Replaced.of_mem {order : List InputFile} (h : Replaced plan files d e)
    (hmem : ∀ file, file ∈ order ↔ file ∈ files) : Replaced plan order d e := by
  refine ⟨h.shape, fun file hfile => h.stripped file ((hmem file).1 hfile), ?_⟩
  intro loc hloc
  apply h.kept
  intro file hfile
  exact hloc file ((hmem file).2 hfile)

theorem Replaced.look?_eq (h : Replaced plan files d e) (h' : Replaced plan files d f) :
    f.look? = e.look? := by
  funext loc
  by_cases hloc : ∃ file ∈ files, ∃ x, plan.strip d file = .ok x ∧
      d.find file.path = .ok (.found loc)
  · obtain ⟨file, hfile, ⟨text, n⟩, hok, hfind⟩ := hloc
    rw [h.stripped file hfile text n hok loc hfind, h'.stripped file hfile text n hok loc hfind]
  · have hkept : ∀ file ∈ files, ∀ x, plan.strip d file = .ok x →
        d.find file.path ≠ .ok (.found loc) := by
      intro file hfile x hok hfind
      exact hloc ⟨file, hfile, x, hok, hfind⟩
    rw [h.kept loc hkept, h'.kept loc hkept]

/-! ## A second run -/

theorem Replaced.look?_failed (h : Replaced plan files d e)
    (hapart : files.Pairwise fun a b => ¬ d.SameFile a.path b.path) (hmem : file ∈ files)
    {problem : Problem} (hfail : plan.strip d file = .error problem) {loc : Location}
    (hfind : d.find file.path = .ok (.found loc)) : e.look? loc = d.look? loc := by
  have hsymm : Std.Symm fun a b : InputFile => ¬ d.SameFile a.path b.path :=
    ⟨fun _ _ hab hba => hab hba.symm⟩
  apply h.kept
  intro f hf x hx hfound
  have hne : f ≠ file := by
    rintro rfl
    rw [hfail] at hx
    cases hx
  exact hapart.forall hf hmem hne (.inr ⟨loc, hfound, hfind⟩)

/-- Nothing is left to strip, and what could not be opened still cannot. -/
theorem Replaced.strip_again (h : Replaced plan files d e)
    (hapart : files.Pairwise fun a b => ¬ d.SameFile a.path b.path) (hmem : file ∈ files) :
    plan.strip e file = (plan.strip d file).map fun x => (x.1, 0) := by
  cases hstrip : plan.strip d file with
  | error problem =>
    rw [strip_of_shape h.shape fun loc => h.look?_failed hapart hmem hstrip, hstrip]
    rfl
  | ok x =>
    obtain ⟨text, n⟩ := x
    obtain ⟨language, rules, source, hopen, rfl⟩ := exists_of_strip hstrip
    obtain ⟨hresolve, loc, bytes, hfile, -⟩ := exists_of_openSource hopen
    have hnow := h.stripped file hmem _ _ hstrip loc hfile.found
    have hagain := openSource_of_text hresolve (hfile.of_shape h.shape hnow)
    rw [strip_eq, hagain]
    refine congrArg Except.ok (Prod.ext ?_ ?_)
    · dsimp only
      rw [String.toList_ofList, (rules.strip_strip plan.policy source.toList).2]
    · apply List.countP_eq_zero.2
      intro fragment hfragment
      rw [String.toList_ofList] at hfragment
      simp [rules.not_comment_strip _ _ fragment hfragment]

/-- Files that are as they would be written stay as they are. -/
theorem steps_again (htarget : plan.target = .inPlace)
    (h : ∀ file ∈ files, ∀ text n, plan.strip d file = .ok (text, n) →
      ∀ loc, d.find file.path = .ok (.found loc) →
        d.look? loc = some (.file (String.ofList text).toUTF8)) :
    plan.steps d files = (d, files.map fun file => (file, (plan.strip d file).map Prod.snd)) := by
  induction files with
  | nil => rfl
  | cons file files ih =>
    have hstep : plan.step d file = (d, (plan.strip d file).map Prod.snd) := by
      cases hstrip : plan.strip d file with
      | error problem => exact step_of_error hstrip
      | ok x =>
        obtain ⟨text, n⟩ := x
        obtain ⟨_, _, _, hopen, -⟩ := exists_of_strip hstrip
        obtain ⟨-, loc, bytes, hfile, -⟩ := exists_of_openSource hopen
        rw [step_of_ok htarget hstrip hfile,
          Disk.put_same (h file (by simp) text n hstrip loc hfile.found)]
        rfl
    rw [StripPlan.steps, hstep]
    simp only [ih fun f hf => h f (List.mem_cons_of_mem _ hf)]
    rfl

/-! ## Whole runs -/

/-- The warnings about files that cannot be opened. -/
def failures (d : Disk) (g : Registry) (files : List InputFile) : List Event :=
  files.filterMap fun file =>
    match openSource d g file.path with
    | .ok _ => none
    | .error p => some (.failure file p)

/-- The sum over the files that can be opened. -/
def total (count : String × Rules × String → Nat) (d : Disk) (g : Registry)
    (files : List InputFile) : Nat :=
  (files.map fun file =>
    match openSource d g file.path with
    | .ok x => count x
    | .error _ => 0).foldl (· + ·) 0

theorem total_zero (d : Disk) (g : Registry) (files : List InputFile) :
    total (fun _ => 0) d g files = 0 := by
  induction files with
  | nil => rfl
  | cons file files ih =>
    unfold total at ih ⊢
    rw [List.map_cons, List.foldl_cons]
    cases openSource d g file.path <;> exact ih

theorem tally_opened (count : String × Rules × String → Nat) (d : Disk) (g : Registry)
    (files : List InputFile) :
    tally (files.map fun file => (file, (openSource d g file.path).map count)) =
      ⟨failures d g files, Summary.check ⟨total count d g files,
        files.length - (failures d g files).length, (failures d g files).length⟩⟩ := by
  unfold tally
  extract_lets failed found
  have hfailed : failed = failures d g files := by
    unfold failed failures
    rw [List.filterMap_map]
    apply List.filterMap_congr
    intro file _
    dsimp only [Function.comp_apply]
    cases openSource d g file.path <;> rfl
  have hfound : found = total count d g files := by
    unfold found total
    rw [List.map_map]
    apply congrArg (List.foldl (· + ·) 0)
    apply List.map_congr_left
    intro file _
    dsimp only [Function.comp_apply]
    cases openSource d g file.path <;> rfl
  rw [hfailed, hfound, List.length_map]

/-- Files are stripped in place if that is forced, unless there is one input that is a file. -/
theorem target_inPlace (hforce : r.force = true) (hout : r.output = none)
    (hmany : ∀ input, r.inputs = [input] → d.isFile input = false) : r.target d = .ok .inPlace := by
  unfold StripRequest.target
  extract_lets single
  have hsingle : single = false := by
    unfold single
    split
    · exact hmany _ ‹_›
    · rfl
  rw [hout, hsingle, hforce]
  rfl

theorem planned_inPlace {policy : Policy} {g : Registry} (hpolicy : r.policyUnder s = .ok policy)
    (hg : Registry.ofSettings s r.language = .ok g) (hfiles : collect d g r.inputs = .ok files)
    (hforce : r.force = true) (hout : r.output = none)
    (hmany : ∀ input, r.inputs = [input] → d.isFile input = false)
    (hapart : files.Pairwise fun a b => ¬ d.SameFile a.path b.path) :
    Planned r d s ⟨policy, g, files, .inPlace, true⟩ := by
  refine ⟨hpolicy, hg, hfiles, target_inPlace hforce hout hmany, ?_, hforce.symm⟩
  apply List.pairwise_map.2
  apply hapart.imp
  intro a b hab hsteps
  exact hab (.inl hsteps)

theorem Planned.of_shape (h : Planned r d s plan) (hshape : e.shape = d.shape) :
    Planned r e s plan := by
  have hfiles : collect e plan.registry r.inputs = collect d plan.registry r.inputs := by
    rw [← collect_shape, hshape, collect_shape]
  have htarget : r.target e = r.target d := by
    have hfile : e.isFile = d.isFile := by
      funext input
      rw [← Disk.isFile_shape, hshape, Disk.isFile_shape]
    have hdir : e.isDir = d.isDir := by
      funext path
      rw [← Disk.isDir_shape, hshape, Disk.isDir_shape]
    unfold StripRequest.target
    rw [hfile, hdir]
  exact ⟨h.policy, h.registry, hfiles.trans h.files, htarget.trans h.target, h.apart, h.force⟩

theorem strip_planned (h : Planned r d s plan) (htarget : plan.target = .inPlace) :
    strip r d s = ((plan.steps d plan.files).1, tally (plan.steps d plan.files).2) := by
  rw [strip, plan_of_planned h]
  simp only [htarget]

/-- The result of stripping the files in place once more. -/
theorem Replaced.steps_again (htarget : plan.target = .inPlace) (h : Replaced plan files d e)
    (hapart : files.Pairwise fun a b => ¬ d.SameFile a.path b.path) :
    plan.steps e files = (e, files.map fun file =>
      (file, (openSource d plan.registry file.path).map fun _ => 0)) := by
  have hstripped : ∀ file ∈ files, ∀ text n, plan.strip e file = .ok (text, n) →
      ∀ loc, e.find file.path = .ok (.found loc) →
        e.look? loc = some (.file (String.ofList text).toUTF8) := by
    intro file hfile text n hok loc hfind
    rw [h.strip_again hapart hfile] at hok
    rw [h.find] at hfind
    cases hstrip : plan.strip d file with
    | error problem =>
      rw [hstrip] at hok
      cases hok
    | ok x =>
      rw [hstrip] at hok
      cases hok
      exact h.stripped file hfile _ _ hstrip loc hfind
  rw [Command.steps_again htarget hstripped, Prod.mk.injEq]
  refine ⟨rfl, List.map_congr_left fun file hfile => ?_⟩
  rw [h.strip_again hapart hfile, strip_eq]
  cases openSource d plan.registry file.path <;> rfl

/-- Stripping in place, said of the whole disk and of the run. Files that can be opened
become what they are without their comments, and all else stays as it was. As many files
fail as cannot be opened. A second run fails on the same files, finds no comment in the
others, and changes nothing. In which order the files are done does not matter. -/
theorem strip_inPlace {policy : Policy} {g : Registry} (hpolicy : r.policyUnder s = .ok policy)
    (hg : Registry.ofSettings s r.language = .ok g) (hfiles : collect d g r.inputs = .ok files)
    (hforce : r.force = true) (hout : r.output = none)
    (hmany : ∀ input, r.inputs = [input] → d.isFile input = false)
    (hapart : files.Pairwise fun a b => ¬ d.SameFile a.path b.path) :
    let failed := failures d g files
    let outcome := fun count : Nat => (⟨failed, Summary.check
      ⟨count, files.length - failed.length, failed.length⟩⟩ : Run Summary)
    let plan : StripPlan := ⟨policy, g, files, .inPlace, true⟩
    ∃ e, strip r d s = (e, outcome (total comments d g files)) ∧
      (∀ file ∈ files, ∀ language rules source,
        openSource d g file.path = .ok (language, rules, source) →
        e.read file.path = .ok (String.ofList (rules.strip policy source.toList)).toUTF8) ∧
      (∀ file ∈ files, ∀ problem, openSource d g file.path = .error problem →
        e.read file.path = d.read file.path) ∧
      (∀ loc, (∀ file ∈ files, ∀ x, openSource d g file.path = .ok x →
        d.find file.path ≠ .ok (.found loc)) → e.look? loc = d.look? loc) ∧
      strip r e s = (e, outcome 0) ∧
      ∀ order, order.Perm files →
        (∃ f, plan.steps d order = (f, order.map fun file =>
          (file, (openSource d g file.path).map comments)) ∧ f.look? = e.look?) ∧
        plan.steps e order = (e, order.map fun file =>
          (file, (openSource d g file.path).map fun _ => 0)) := by
  intro failed outcome plan
  have htarget : plan.target = .inPlace := rfl
  have hplanned : Planned r d s plan :=
    planned_inPlace hpolicy hg hfiles hforce hout hmany hapart
  obtain ⟨e, hsteps, he⟩ := steps_inPlace htarget hapart
  have hfirst : strip r d s = (e, outcome (total comments d g files)) := by
    rw [strip_planned hplanned htarget, hsteps]
    dsimp only
    rw [tally_opened]
  have hsecond : strip r e s = (e, outcome 0) := by
    rw [strip_planned (hplanned.of_shape he.shape) htarget, he.steps_again htarget hapart]
    dsimp only
    rw [tally_opened, total_zero]
  refine ⟨e, hfirst, ?_, ?_, ?_, hsecond, ?_⟩
  · intro file hfile language rules source hopen
    obtain ⟨-, loc, bytes, hat, -⟩ := exists_of_openSource hopen
    have hstrip : plan.strip d file =
        .ok (rules.strip policy source.toList, comments (language, rules, source)) := by
      rw [strip_eq, show openSource d plan.registry file.path = _ from hopen]
      rfl
    have hnow := he.stripped file hfile _ _ hstrip loc hat.found
    exact Disk.read_eq_ok_iff.2 ⟨loc, hat.of_shape he.shape hnow⟩
  · intro file hfile problem hopen
    have hstrip : plan.strip d file = .error problem := by
      rw [strip_eq, show openSource d plan.registry file.path = _ from hopen]
      rfl
    apply Disk.read_congr (he.find file.path)
    intro loc
    exact he.look?_failed hapart hfile hstrip
  · intro loc hloc
    apply he.kept
    intro file hfile x hx
    obtain ⟨_, _, _, hopen, -⟩ := exists_of_strip hx
    exact hloc file hfile _ hopen
  · intro order horder
    have hapart' : order.Pairwise fun a b => ¬ d.SameFile a.path b.path :=
      (horder.pairwise_iff fun hab hba => hab hba.symm).2 hapart
    have he' := he.of_mem fun file => horder.mem_iff
    obtain ⟨f, hsteps', hf⟩ := steps_inPlace htarget hapart'
    exact ⟨⟨f, hsteps', he'.look?_eq hf⟩, he'.steps_again htarget hapart'⟩

/-- Two files with comments, one of them in a directory, and one that is no text. -/
def project : Disk :=
  ⟨.dir [("a.c", .file "int a; // one\n".toUTF8), ("c.c", .file ⟨#[0xff]⟩),
    ("src", .dir [("b.c", .file "/* two */int b;\n".toUTF8)])], []⟩

def projectFiles : List InputFile :=
  [⟨⟨"src/b.c"⟩, ⟨"b.c"⟩⟩, ⟨⟨"c.c"⟩, ⟨"c.c"⟩⟩, ⟨⟨"a.c"⟩, ⟨"a.c"⟩⟩]

theorem collect_project {g : Registry} (h : g.claims ⟨"b.c"⟩ = true) :
    collect project g [⟨"src"⟩, ⟨"c.c"⟩, ⟨"a.c"⟩] = .ok projectFiles := by
  have hnode : project.node? ⟨"src"⟩ =
      some (.dir [("b.c", .file "/* two */int b;\n".toUTF8)]) := rfl
  have hfiles : filesOf project g ⟨"src"⟩ = .ok [⟨⟨"src/b.c"⟩, ⟨"b.c"⟩⟩] := by
    rw [filesOf, hnode]
    simp only [Node.filesBelow_file, Node.dirsBelow_file, h]
    rfl
  rw [collect, if_neg (List.cons_ne_nil _ _), List.mapM_cons, hfiles]
  rfl

theorem project_apart :
    projectFiles.Pairwise fun a b => ¬ project.SameFile a.path b.path := by
  have ha : project.FileAt ⟨"a.c"⟩ ["a.c"] "int a; // one\n".toUTF8 := ⟨rfl, rfl⟩
  have hb : project.FileAt ⟨"src/b.c"⟩ ["src", "b.c"] "/* two */int b;\n".toUTF8 := ⟨rfl, rfl⟩
  have hc : project.FileAt ⟨"c.c"⟩ ["c.c"] ⟨#[0xff]⟩ := ⟨rfl, rfl⟩
  simp [projectFiles, Disk.sameFile_iff hb hc, Disk.sameFile_iff hb ha,
    Disk.sameFile_iff hc ha]

theorem strip_inPlace_project :
    let r : StripRequest := { inputs := [⟨"src"⟩, ⟨"c.c"⟩, ⟨"a.c"⟩], force := true }
    ∃ e, (strip r project {}).1 = e ∧
      (strip r project {}).2.result = .error (.filesFailed 1) ∧
      e.read ⟨"a.c"⟩ = .ok "int a;\n".toUTF8 ∧ e.read ⟨"src/b.c"⟩ = .ok "int b;\n".toUTF8 ∧
      e.read ⟨"c.c"⟩ = .ok ⟨#[0xff]⟩ ∧ (strip r e {}).1 = e ∧
      (strip r e {}).2.result = .error (.filesFailed 1) := by
  intro r
  obtain ⟨g, hg⟩ : ∃ g, Registry.ofSettings {} none = .ok g := ⟨_, rfl⟩
  have hfiles : collect project g r.inputs = .ok projectFiles := by
    apply collect_project
    cases hg
    decide +kernel
  have hmany : ∀ input, r.inputs = [input] → project.isFile input = false := by
    intro input hinputs
    simp [r] at hinputs
  obtain ⟨e, hfirst, hstripped, hfailed, -, hsecond, -⟩ :=
    strip_inPlace (r := r) rfl hg hfiles rfl rfl hmany project_apart
  cases hg
  refine ⟨e, by rw [hfirst], ?_, ?_, ?_, ?_, by rw [hsecond], ?_⟩
  · rw [hfirst]
    rfl
  · rw [hstripped ⟨⟨"a.c"⟩, ⟨"a.c"⟩⟩ (by simp [projectFiles]) "c" _ "int a; // one\n" rfl]
    exact congrArg Except.ok (by decide +kernel)
  · rw [hstripped ⟨⟨"src/b.c"⟩, ⟨"b.c"⟩⟩ (by simp [projectFiles]) "c" _ "/* two */int b;\n" rfl]
    exact congrArg Except.ok (by decide +kernel)
  · rw [hfailed ⟨⟨"c.c"⟩, ⟨"c.c"⟩⟩ (by simp [projectFiles]) _ rfl]
    rfl
  · rw [hsecond]
    rfl

end Command
end Gloss
