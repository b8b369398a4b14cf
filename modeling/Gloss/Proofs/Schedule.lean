import Gloss.Proofs.Destination
import Gloss.Proofs.Unforced
import Mathlib.Data.List.Nodup
/-!
# The order of files

Files that go into a directory without force may be done in any order, if no
destination is at or below that of another, none goes up from what is not there yet,
and no link on the way to one leads to what is not there yet (`Independent`): what each
comes to and what it adds to the disk is what it would alone (`step_alone`), so the
whole is the same in every order (`steps_perm`). Otherwise it need not be
(`not_same_steps`).
-/

namespace Gloss.Command

open Disk

variable {plan : StripPlan} {d e : Disk} {file : InputFile} {files done : List InputFile}

/-! ## One file -/

theorem write_of_holds (hforce : plan.force = false) (htarget : plan.target ≠ .inPlace)
    (hholds : d.holds (plan.target.destination file) = true) (text : Text) :
    plan.write d file text = (d, .error (.outputExists (plan.target.destination file))) := by
  rw [StripPlan.write]
  exact if_pos ⟨htarget, hholds, by rw [hforce]; rfl⟩

theorem write_of_unmade {f : Disk} {fault : Fault}
    (hholds : d.holds (plan.target.destination file) = false)
    (hparent : d.ensureParent (plan.target.destination file) = (f, .error fault)) (text : Text) :
    plan.write d file text = (f, .error (.system fault)) := by
  rw [StripPlan.write]
  refine (if_neg fun h => by simp [hholds] at h).trans ?_
  simp only [hparent]

theorem write_of_unwritten {f : Disk} {fault : Fault} {text : Text}
    (hholds : d.holds (plan.target.destination file) = false)
    (hparent : d.ensureParent (plan.target.destination file) = (f, .ok ()))
    (hwrite : f.write (plan.target.destination file) (String.ofList text).toUTF8 = .error fault) :
    plan.write d file text =
      (f, .error (.inaccessible (plan.target.destination file) fault)) := by
  rw [StripPlan.write]
  refine (if_neg fun h => by simp [hholds] at h).trans ?_
  simp only [hparent, hwrite]

theorem write_of_written {f g : Disk} {text : Text}
    (hholds : d.holds (plan.target.destination file) = false)
    (hparent : d.ensureParent (plan.target.destination file) = (f, .ok ()))
    (hwrite : f.write (plan.target.destination file) (String.ofList text).toUTF8 = .ok g) :
    plan.write d file text = (g, .ok ()) := by
  rw [StripPlan.write]
  refine (if_neg fun h => by simp [hholds] at h).trans ?_
  simp only [hparent, hwrite]

/-- A settled destination is not written to, and nothing is made. -/
theorem write_fixed (hforce : plan.force = false) (htarget : plan.target ≠ .inPlace) (hd : d.Tidy)
    (h : d.Fixed (plan.target.destination file)) (text : Text) :
    ∃ problem, ∀ e, d.Keeps e → plan.write e file text = (e, .error problem) := by
  by_cases hfound : ∃ loc, d.find (plan.target.destination file) = .ok (.found loc)
  · refine ⟨.outputExists (plan.target.destination file), fun e hk => ?_⟩
    exact write_of_holds hforce htarget ((h.holds hd hk).2 hfound) text
  have hfree : ∀ e, d.Keeps e → e.holds (plan.target.destination file) = false := fun e hk =>
    Bool.eq_false_iff.2 fun hholds => hfound ((h.holds hd hk).1 hholds)
  obtain ⟨res, hres⟩ := h.ensureParent hd
  cases res with
  | error fault => exact ⟨.system fault, fun e hk => write_of_unmade (hfree e hk) (hres e hk) text⟩
  | ok _ =>
    obtain ⟨fault, hwrite⟩ := h.write (not_exists.1 hfound)
    refine ⟨.inaccessible (plan.target.destination file) fault, fun e hk => ?_⟩
    exact write_of_unwritten (hfree e hk) (hres e hk) (hwrite e hk _)

/-- A vacant destination is written to, or not, alike on all disks that are ready. -/
theorem write_vacant {loc : Location} (hp : (plan.target.destination file).Plain)
    (h : d.Vacant (plan.target.destination file) loc) (text : Text) :
    ∃ res new, (∀ l x, new l = some x → l = loc ∨ (x = .dir ∧ l <+: loc ∧ l ≠ loc)) ∧
      ∀ e, d.Ready e (plan.target.destination file) →
        ∃ f, plan.write e file text = (f, res) ∧ e.Adds new f := by
  obtain ⟨dir, init, last, rfl, hdown, hdir, hready⟩ := h.exists_init
  obtain ⟨res, reach, hreach, hall, hparent⟩ := ensureParent_descends hdown hdir
  have hfree : ∀ e, d.Ready e (plan.target.destination file) →
      e.holds (plan.target.destination file) = false := fun e hr =>
    holds_descends hp (hdown.keeps hr.keeps) (hr.keeps.entries _ _ hdir) (hready e hr).1
      (hready e hr).2
  have hmade : ∀ e, d.Ready e (plan.target.destination file) → ∃ f,
      e.ensureParent (plan.target.destination file) = (f, res) ∧ e.Adds (upTo (dir ++ reach)) f :=
    fun e hr => hparent e hr.keeps fun l hl => (hready e hr).1 l (hl.trans (List.prefix_append ..))
  cases res with
  | error fault =>
    refine ⟨.error (.system fault), upTo (dir ++ reach),
      fun l x hx => .inr (above_of_upTo hreach hx), fun e hr => ?_⟩
    obtain ⟨f, hf, hadds⟩ := hmade e hr
    exact ⟨f, write_of_unmade (hfree e hr) hf text, hadds⟩
  | ok _ =>
    obtain ⟨rfl, hshort⟩ := hall rfl
    -- where the file goes is a directory now, and still free
    have hlast : ∀ e f, d.Ready e (plan.target.destination file) →
        e.Adds (upTo (dir ++ reach)) f →
        f.Descends (plan.target.destination file) (dir ++ reach) [last] ∧
          f.look? (dir ++ reach) = some .dir ∧ f.look? (dir ++ reach ++ [last]) = none :=
      fun e f hr hadds =>
        descends_last (hdown.keeps hr.keeps) hshort (hready e hr).1 (hready e hr).2 hadds
    rcases write_descends hp (String.ofList text).toUTF8 last with ⟨fault, hwrite⟩ | hwrite
    · refine ⟨.error (.inaccessible (plan.target.destination file) fault), upTo (dir ++ reach),
        fun l x hx => .inr (above_of_upTo hreach hx), fun e hr => ?_⟩
      obtain ⟨f, hf, hadds⟩ := hmade e hr
      obtain ⟨hto, hthere, hnone⟩ := hlast e f hr hadds
      exact ⟨f, write_of_unwritten (hfree e hr) hf (hwrite f _ hto hthere hnone), hadds⟩
    · refine ⟨.ok (), fun l => (upTo (dir ++ reach) l).or
        (if l = dir ++ reach ++ [last] then some (.file (String.ofList text).toUTF8) else none),
        fun l x hx => ?_, fun e hr => ?_⟩
      · rcases Option.or_eq_some_iff.1 hx with hx | ⟨-, hx⟩
        · exact .inr (above_of_upTo hreach hx)
        · split at hx
          · rename_i hl
            exact .inl (by rw [hl, List.append_assoc])
          · cases hx
      · obtain ⟨f, hf, hadds⟩ := hmade e hr
        obtain ⟨hto, hthere, hnone⟩ := hlast e f hr hadds
        exact ⟨_, write_of_written (hfree e hr) hf (hwrite f _ hto hthere hnone),
          hadds.trans (adds_put get?_file hthere hnone)⟩

/-- What a file comes to and what it adds, on every disk that is ready for it. -/
structure Addition (plan : StripPlan) (d : Disk) (file : InputFile) (res : Except Problem Nat)
    (new : Location → Option Entry) : Prop where
  places : ∀ l x, new l = some x → ∃ loc, d.Vacant (plan.target.destination file) loc ∧
    (l = loc ∨ (x = .dir ∧ l <+: loc ∧ l ≠ loc))
  step : ∀ e, d.Ready e (plan.target.destination file) →
    ∃ f, plan.step e file = (f, res) ∧ e.Adds new f

/-- A file that is not written adds nothing. -/
theorem Addition.nothing {res : Except Problem Nat}
    (h : ∀ e, d.Ready e (plan.target.destination file) → plan.step e file = (e, res)) :
    Addition plan d file res fun _ => none :=
  ⟨nofun, fun e hr => ⟨e, h e hr, .nothing e⟩⟩

/-- What stripping a file comes to, on every disk that is ready, is what it comes to
alone. -/
theorem step_alone (hforce : plan.force = false) (htarget : plan.target ≠ .inPlace) (hd : d.Tidy)
    (hfile : d.Collected file) (hp : (plan.target.destination file).Plain)
    (hdirect : d.Direct (plan.target.destination file))
    (hlinks : d.Unbroken (plan.target.destination file)) :
    ∃ new, Addition plan d file (plan.step d file).2 new := by
  -- enough that the result is one for all, for the disk itself is ready
  suffices h : ∃ res new, Addition plan d file res new by
    obtain ⟨res, new, hnew⟩ := h
    obtain ⟨f, hf, -⟩ := hnew.step d (.refl d _)
    rw [hf]
    exact ⟨new, hnew⟩
  have hstrip : ∀ e, d.Ready e (plan.target.destination file) →
      plan.strip e file = plan.strip d file := fun e hr => strip_of_collected hd hfile hr.keeps
  cases hs : plan.strip d file with
  | error problem =>
    refine ⟨.error problem, _, .nothing fun e hr => ?_⟩
    rw [StripPlan.step, hstrip e hr, hs]
  | ok result =>
    obtain ⟨text, count⟩ := result
    rcases settled_or_vacant hd hdirect hlinks with hsettled | ⟨loc, hvacant⟩
    · obtain ⟨problem, hwrite⟩ := write_fixed hforce htarget hd ⟨hp, hsettled⟩ text
      refine ⟨.error problem, _, .nothing fun e hr => ?_⟩
      rw [StripPlan.step, hstrip e hr, hs]
      simp only [hwrite e hr.keeps]
      rfl
    · obtain ⟨res, new, hnew, hwrite⟩ := write_vacant hp hvacant text
      refine ⟨res.map fun _ => count, new, fun l x hx => ⟨loc, hvacant, hnew l x hx⟩,
        fun e hr => ?_⟩
      obtain ⟨f, hf, hadds⟩ := hwrite e hr
      refine ⟨f, ?_, hadds⟩
      rw [StripPlan.step, hstrip e hr, hs]
      simp only [hf]

/-! ## All files -/

/-- The files of a plan do not get in the way of each other: no destination goes up from
what is not there yet, no link on the way to one leads to what is not there yet, and no
vacant place is at or above another. -/
structure Independent (plan : StripPlan) (d : Disk) : Prop where
  direct : ∀ file ∈ plan.files, d.Direct (plan.target.destination file)
  unbroken : ∀ file ∈ plan.files, d.Unbroken (plan.target.destination file)
  apart : ∀ file ∈ plan.files, ∀ other ∈ plan.files, file ≠ other → ∀ loc loc',
    d.Vacant (plan.target.destination file) loc → d.Vacant (plan.target.destination other) loc' →
    ¬ loc <+: loc'

/-- What each file adds, wherever it comes in the order. -/
structure Additions (plan : StripPlan) (d : Disk) (new : InputFile → Location → Option Entry) :
    Prop where
  places : ∀ file ∈ plan.files, ∀ l x, new file l = some x →
    ∃ loc, d.Vacant (plan.target.destination file) loc ∧
      (l = loc ∨ (x = .dir ∧ l <+: loc ∧ l ≠ loc))
  step : ∀ file ∈ plan.files, ∀ e, d.Ready e (plan.target.destination file) →
    ∃ f, plan.step e file = (f, (plan.step d file).2) ∧ e.Adds (new file) f

/-- What files that were done have added together. -/
def added (new : InputFile → Location → Option Entry) (done : List InputFile) :
    Location → Option Entry := fun loc => done.findSome? (new · loc)

variable {new : InputFile → Location → Option Entry}

/-- Where two files add to the same location, they add the same: a directory. -/
theorem Additions.agree (h : Additions plan d new) (hind : Independent plan d) {other : InputFile}
    (hfile : file ∈ plan.files) (hother : other ∈ plan.files) {l : Location} {x y : Entry}
    (hx : new file l = some x) (hy : new other l = some y) : x = y := by
  by_cases hsame : file = other
  · subst hsame
    exact Option.some.inj (hx.symm.trans hy)
  obtain ⟨loc, hloc, hlx⟩ := h.places file hfile l x hx
  obtain ⟨loc', hloc', hly⟩ := h.places other hother l y hy
  have hapart := hind.apart file hfile other hother hsame loc loc' hloc hloc'
  have hapart' := hind.apart other hother file hfile (Ne.symm hsame) loc' loc hloc' hloc
  rcases hlx with rfl | ⟨rfl, hl, -⟩
  · rcases hly with rfl | ⟨-, hl', -⟩
    · exact absurd (List.prefix_refl _) hapart
    · exact absurd hl' hapart
  · rcases hly with rfl | ⟨rfl, -, -⟩
    · exact absurd hl hapart'
    · rfl

/-- A disk where others are done is ready for a file. -/
theorem Additions.ready (h : Additions plan d new) (hind : Independent plan d)
    (hdone : ∀ other ∈ done, other ∈ plan.files) (hfile : file ∈ plan.files) (hnot : file ∉ done)
    (hadds : d.Adds (added new done) e) : d.Ready e (plan.target.destination file) := by
  refine ⟨hadds.keeps, fun loc hloc l hl => ?_⟩
  rw [hadds.entries]
  cases hd : d.look? l with
  | some x => exact .inl rfl
  | none =>
    cases hx : added new done l with
    | none => exact .inl rfl
    | some x =>
      obtain ⟨other, hother, hnew⟩ := List.exists_of_findSome?_eq_some hx
      have hne : file ≠ other := fun heq => hnot (heq ▸ hother)
      obtain ⟨loc', hloc', hlx⟩ := h.places other (hdone other hother) l x hnew
      rcases hlx with rfl | ⟨rfl, hl', -⟩
      · exact absurd hl
          (hind.apart other (hdone other hother) file hfile (Ne.symm hne) l loc hloc' hloc)
      · refine .inr ⟨?_, rfl⟩
        rintro rfl
        exact hind.apart file hfile other (hdone other hother) hne l loc' hloc hloc' hl'

/-- Each of the files comes to what it does alone, and together they add what each
does. -/
theorem Additions.steps (h : Additions plan d new) (hind : Independent plan d)
    (hfiles : ∀ file ∈ done ++ files, file ∈ plan.files) (hnodup : (done ++ files).Nodup)
    (hadds : d.Adds (added new done) e) :
    (plan.steps e files).2 = files.map (fun file => (file, (plan.step d file).2)) ∧
      d.Adds (added new (done ++ files)) (plan.steps e files).1 := by
  induction files generalizing done e with
  | nil =>
    rw [List.append_nil]
    exact ⟨rfl, hadds⟩
  | cons file files ih =>
    have hfile : file ∈ plan.files := hfiles file (by simp)
    have hnot : file ∉ done := fun hmem =>
      (List.nodup_append.1 hnodup).2.2 file hmem file (by simp) rfl
    have hready := h.ready hind (fun x hx => hfiles x (by simp [hx])) hfile hnot hadds
    obtain ⟨f, hf, hmore⟩ := h.step file hfile e hready
    have hdone : d.Adds (added new (done ++ [file])) f := by
      have hboth := hadds.trans hmore
      refine ⟨hboth.here, fun loc => ?_⟩
      rw [hboth.entries, added, added, List.findSome?_append]
      simp
    rw [List.append_cons] at hfiles hnodup
    obtain ⟨hresults, hall⟩ := ih hfiles hnodup hdone
    rw [StripPlan.steps, hf, List.append_cons]
    exact ⟨congrArg ((file, (plan.step d file).2) :: ·) hresults, hall⟩

theorem exists_additions (hforce : plan.force = false) (htarget : plan.target ≠ .inPlace)
    (hd : d.Tidy) (hcollected : ∀ file ∈ plan.files, d.Collected file)
    (hplain : ∀ file ∈ plan.files, (plan.target.destination file).Plain)
    (hind : Independent plan d) : ∃ new, Additions plan d new := by
  have hall : ∀ file, ∃ new, file ∈ plan.files →
      Addition plan d file (plan.step d file).2 new := by
    intro file
    by_cases hfile : file ∈ plan.files
    · obtain ⟨new, hnew⟩ := step_alone hforce htarget hd (hcollected file hfile)
        (hplain file hfile) (hind.direct file hfile) (hind.unbroken file hfile)
      exact ⟨new, fun _ => hnew⟩
    · exact ⟨fun _ => none, fun hmem => absurd hmem hfile⟩
  choose new hnew using hall
  exact ⟨new, fun file hfile => (hnew file hfile).places, fun file hfile => (hnew file hfile).step⟩

/-- Files done in two orders leave the same disk. -/
theorem Additions.same (h : Additions plan d new) (hind : Independent plan d)
    {done' : List InputFile} {f : Disk} (hperm : done'.Perm done)
    (hdone : ∀ file ∈ done, file ∈ plan.files) (he : d.Adds (added new done) e)
    (hf : d.Adds (added new done') f) : e.Same f := by
  refine ⟨hf.here.trans he.here.symm, fun loc => ?_⟩
  rw [he.entries, hf.entries]
  congr 1
  cases hx : added new done loc with
  | none =>
    rw [added, List.findSome?_eq_none_iff] at hx ⊢
    exact fun file hfile => hx file (hperm.subset hfile)
  | some x =>
    obtain ⟨file, hfile, hnew⟩ := List.exists_of_findSome?_eq_some hx
    cases hy : added new done' loc with
    | none =>
      rw [added, List.findSome?_eq_none_iff] at hy
      rw [hy file (hperm.symm.subset hfile)] at hnew
      cases hnew
    | some y =>
      obtain ⟨other, hother, hnew'⟩ := List.exists_of_findSome?_eq_some hy
      rw [h.agree hind (hdone file hfile) (hdone other (hperm.subset hother)) hnew hnew']

/-- A destination in a directory is written as far as the last of its names. -/
theorem plain_join {p : Path} {names : List String} (hnames : names ≠ [])
    (hproper : ∀ name ∈ names, Proper name) : (p.join ("/".intercalate names)).Plain := by
  have hparts := Path.parts_intercalate hnames fun name h => (hproper name h).no_slash
  refine ⟨Path.text_join_ne fun hblank => ?_, Path.endsInSlash_join p hnames hproper,
    fun ms hms => ?_⟩
  · rw [hblank, Path.parts_empty] at hparts
    exact (hproper "" (by simp [← hparts])).not_empty rfl
  · obtain ⟨init, last, rfl⟩ := (List.eq_nil_or_concat names).resolve_left hnames
    rw [Path.moves_join, Path.moves_intercalate hnames hproper, List.concat_eq_append,
      List.map_append, ← List.append_assoc] at hms
    obtain ⟨-, hlast⟩ := List.append_inj' hms rfl
    cases hlast

theorem strip_eq_steps {r : StripRequest} {s : Settings} {out : Path}
    (hplan : r.plan d s = .ok plan) (htarget : plan.target = .directory out) :
    strip r d s = ((plan.steps d plan.files).1, tally (plan.steps d plan.files).2) := by
  rw [strip, hplan]
  dsimp only
  split
  · rename_i hout _
    rw [htarget] at hout
    cases hout
  · rfl

/-- Files that go into a directory without force, and are not in each other's way, may be
done in any order: each comes to what it does alone, and the disk is the same. -/
theorem steps_perm {r : StripRequest} {s : Settings} {out : Path} (hd : d.Tidy)
    (hforce : r.force = false) (hplan : r.plan d s = .ok plan)
    (htarget : plan.target = .directory out) (hind : Independent plan d)
    (hperm : files.Perm plan.files) :
    (plan.steps d files).2 = files.map (fun file => (file, (plan.step d file).2)) ∧
      (strip r d s).1.Same (plan.steps d files).1 := by
  have hp := planned_of_plan hplan
  have hcollected : ∀ file ∈ plan.files, d.Collected file := fun file hfile =>
    collected_of_collect hd hp.files hfile
  have hplain : ∀ file ∈ plan.files, (plan.target.destination file).Plain := by
    intro file hfile
    obtain ⟨names, hrelative, hnames, hproper⟩ := (hcollected file hfile).relative
    rw [htarget, Target.destination, hrelative]
    exact plain_join hnames hproper
  obtain ⟨new, hnew⟩ := exists_additions (hp.force.trans hforce) (by rw [htarget]; nofun) hd
    hcollected hplain hind
  have hnodup : plan.files.Nodup := List.Nodup.of_map _ hp.apart
  have hstart : d.Adds (added new []) d := .nothing d
  obtain ⟨-, hall⟩ := hnew.steps hind (by exact fun _ h => h) (by exact hnodup) hstart
  obtain ⟨hresults, hother⟩ := hnew.steps hind (by exact fun _ h => hperm.subset h)
    (by exact hperm.nodup_iff.2 hnodup) hstart
  refine ⟨hresults, ?_⟩
  rw [strip_eq_steps hplan htarget]
  exact hnew.same hind hperm (fun _ h => h) hall hother

/-! ## Files in each other's way, and not -/

/-- A plan for files that go into a directory, under no settings. -/
def planInto (out : Path) (files : List InputFile) : StripPlan :=
  { policy := .preserve
    registry := Registry.known {}
    files
    target := .directory out
    force := false }

/-- Two files beside each other. -/
def pair : Disk :=
  ⟨.dir [("a.c", .file "int a; // 1\n".toUTF8), ("b.c", .file "int b; // 2\n".toUTF8)], []⟩

def pairFiles : List InputFile := [⟨⟨"a.c"⟩, ⟨"a.c"⟩⟩, ⟨⟨"b.c"⟩, ⟨"b.c"⟩⟩]

theorem pair_flat : ∀ e ∈ [("a.c", Node.file "int a; // 1\n".toUTF8),
    ("b.c", .file "int b; // 2\n".toUTF8)], ∃ bytes, e.2 = .file bytes := by
  intro e he
  simp only [List.mem_cons, List.not_mem_nil, or_false] at he
  rcases he with rfl | rfl <;> exact ⟨_, rfl⟩

theorem tidy_pair : pair.Tidy := by
  refine tidy_flat pair_flat (by decide) fun name hname => ?_
  simp only [List.map_cons, List.map_nil, List.mem_cons, List.not_mem_nil, or_false] at hname
  rcases hname with rfl | rfl <;> constructor <;> decide

theorem pair_no_link (loc : Location) (target : Path) : pair.look? loc ≠ some (.link target) := by
  intro h
  obtain ⟨n, hn, hlink⟩ := Option.map_eq_some_iff.1 h
  rcases Node.get?_flat pair_flat hn with ⟨-, rfl⟩ | ⟨_, -, hmem⟩
  · cases hlink
  · obtain ⟨bytes, rfl⟩ := pair_flat _ hmem
    cases hlink

theorem vacant_pair {file : InputFile} (hfile : file ∈ pairFiles) {loc : Location}
    (h : pair.Vacant ((Target.directory ⟨"o/n"⟩).destination file) loc) :
    loc = ["o", "n", file.path.text] := by
  have hmoves : ((Target.directory ⟨"o/n"⟩).destination file).moves =
      [.down "o", .down "n", .down file.path.text] ∧
      pair.start ((Target.directory ⟨"o/n"⟩).destination file) = [] := by
    simp only [pairFiles, List.mem_cons, List.not_mem_nil, or_false] at hfile
    rcases hfile with rfl | rfl <;> constructor <;> decide +kernel
  obtain ⟨dir, name, rest, rfl, ⟨front, back, n, hsplit, hleads, hdown⟩, hdir, -, -⟩ := h
  rw [hmoves.1] at hsplit
  rw [hmoves.2] at hleads
  -- the way begins with a name that is not there
  have hnone : pair.look? ([] ++ ["o"]) = none := rfl
  cases hleads with
  | here =>
    obtain rfl := hsplit
    cases hdown with
    | down h => cases h with
      | down h => cases h with
        | down h => cases h; rfl
  | idle _ hm =>
    rw [← (List.cons.inj hsplit).1] at hm
    simp at hm
  | up => cases (List.cons.inj hsplit).1
  | down _ _ hx =>
    cases (List.cons.inj hsplit).1
    rw [hnone] at hx
    cases hx
  | link _ _ hx => exact absurd hx (pair_no_link _ _)

theorem independent_pair : Independent (planInto ⟨"o/n"⟩ pairFiles) pair := by
  constructor
  case direct =>
    intro file hfile front back hmoves
    have hup : .up ∉ ((planInto ⟨"o/n"⟩ pairFiles).target.destination file).moves := by
      simp only [planInto, pairFiles, List.mem_cons, List.not_mem_nil, or_false] at hfile
      rcases hfile with rfl | rfl <;> decide +kernel
    exact absurd (hmoves ▸ by simp) hup
  case unbroken =>
    intro file _ front name back n dir target _ _ hlink
    exact absurd hlink (pair_no_link _ _)
  case apart =>
    intro file hfile other hother hne loc loc' hloc hloc' hprefix
    rw [vacant_pair hfile hloc, vacant_pair hother hloc'] at hprefix
    simp only [planInto, pairFiles, List.mem_cons, List.not_mem_nil, or_false] at hfile hother
    rcases hfile with rfl | rfl <;> rcases hother with rfl | rfl <;> simp_all

/-- Two files into a directory that is made for them, the second one first. -/
theorem steps_perm_pair :
    StripRequest.plan { inputs := [⟨"a.c"⟩, ⟨"b.c"⟩], output := some ⟨"o/n"⟩ } pair {} =
        .ok (planInto ⟨"o/n"⟩ pairFiles) ∧
      ((planInto ⟨"o/n"⟩ pairFiles).steps pair pairFiles.reverse).2 =
        pairFiles.reverse.map (fun file =>
          (file, ((planInto ⟨"o/n"⟩ pairFiles).step pair file).2)) ∧
      (strip { inputs := [⟨"a.c"⟩, ⟨"b.c"⟩], output := some ⟨"o/n"⟩ } pair {}).1.Same
        ((planInto ⟨"o/n"⟩ pairFiles).steps pair pairFiles.reverse).1 := by
  have hplan : StripRequest.plan { inputs := [⟨"a.c"⟩, ⟨"b.c"⟩], output := some ⟨"o/n"⟩ } pair {} =
      .ok (planInto ⟨"o/n"⟩ pairFiles) :=
    plan_of_planned ⟨rfl, rfl, rfl, rfl, by decide +kernel, rfl⟩
  exact ⟨hplan, steps_perm tidy_pair rfl hplan rfl independent_pair (List.reverse_perm _)⟩

/-- A file, and a directory that has the name of the file. -/
def nested : Disk :=
  ⟨.dir [("p", .dir [("x.c", .file "int x; // 1\n".toUTF8)]),
    ("q", .dir [("x.c", .dir [("y.c", .file "int y; // 2\n".toUTF8)])])], []⟩

def nestedFiles : List InputFile := [⟨⟨"p/x.c"⟩, ⟨"x.c"⟩⟩, ⟨⟨"q/x.c/y.c"⟩, ⟨"x.c/y.c"⟩⟩]

theorem collect_nested :
    collect nested (Registry.known {}) [⟨"p/x.c"⟩, ⟨"q"⟩] = .ok nestedFiles := by
  have hclaims : (Registry.known {}).claims ⟨"y.c"⟩ = true := by decide +kernel
  have hname : Path.fileName? ⟨"p/x.c"⟩ = some "x.c" := by decide +kernel
  have hfile : nested.node? ⟨"p/x.c"⟩ = some (.file "int x; // 1\n".toUTF8) := rfl
  have hdir : nested.node? ⟨"q"⟩ =
      some (.dir [("x.c", .dir [("y.c", .file "int y; // 2\n".toUTF8)])]) := rfl
  have hp : filesOf nested (Registry.known {}) ⟨"p/x.c"⟩ = .ok [⟨⟨"p/x.c"⟩, ⟨"x.c"⟩⟩] := by
    rw [filesOf, hfile]
    simp only [hname]
  have hq : filesOf nested (Registry.known {}) ⟨"q"⟩ = .ok [⟨⟨"q/x.c/y.c"⟩, ⟨"x.c/y.c"⟩⟩] := by
    rw [filesOf, hdir]
    simp only [Node.filesBelow_dir, Node.filesBelow_file, Node.dirsBelow_dir, Node.dirsBelow_file,
      hclaims]
    rfl
  rw [collect, if_neg (List.cons_ne_nil _ _), List.mapM_cons, hp, List.mapM_cons, hq]
  rfl

/-- Whether the file or the directory of that name is made depends on which comes
first. -/
theorem not_same_steps : ∃ plan,
    StripRequest.plan { inputs := [⟨"p/x.c"⟩, ⟨"q"⟩], output := some ⟨"o"⟩ } nested {} = .ok plan ∧
      plan.target = .directory ⟨"o"⟩ ∧ ∃ files, files.Perm plan.files ∧
        ¬ (strip { inputs := [⟨"p/x.c"⟩, ⟨"q"⟩], output := some ⟨"o"⟩ } nested {}).1.Same
          (plan.steps nested files).1 := by
  have hplan : StripRequest.plan { inputs := [⟨"p/x.c"⟩, ⟨"q"⟩], output := some ⟨"o"⟩ } nested {} =
      .ok (planInto ⟨"o"⟩ nestedFiles) :=
    plan_of_planned ⟨rfl, rfl, collect_nested, rfl, by decide +kernel, rfl⟩
  refine ⟨_, hplan, rfl, nestedFiles.reverse, List.reverse_perm _, fun hsame => ?_⟩
  have hfile : ((planInto ⟨"o"⟩ nestedFiles).steps nested nestedFiles).1.look? ["o", "x.c"] =
      some (.file "int x;\n".toUTF8) := by decide +kernel
  have hdir : ((planInto ⟨"o"⟩ nestedFiles).steps nested nestedFiles.reverse).1.look? ["o", "x.c"] =
      some .dir := by decide +kernel
  have h := hsame.entries ["o", "x.c"]
  rw [strip_eq_steps hplan rfl, hdir] at h
  exact absurd (h.trans hfile) nofun

end Gloss.Command
