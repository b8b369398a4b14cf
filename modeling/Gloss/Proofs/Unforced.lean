import Gloss.Proofs.Access
import Gloss.Proofs.Plan
/-!
# Runs without force

A run without force puts files and directories where nothing is, so whatever stood
before still does (`strip_keeps`), in whatever order the files are done. It takes
that no destination goes up from a directory that is not there yet: the test
whether something is at a destination is made before the directories above it are,
and such a path leads on only once they are (`not_keeps_strip`).
-/

namespace Gloss.Command

open Disk

variable {plan : StripPlan} {d : Disk} {file : InputFile} {files : List InputFile}

theorem write_keeps (hforce : plan.force = false) (htarget : plan.target ≠ .inPlace)
    (hp : d.Direct (plan.target.destination file)) (text : Text) :
    d.Keeps (plan.write d file text).1 := by
  unfold StripPlan.write
  extract_lets path
  split
  · exact Keeps.refl d
  · rename_i hfree
    have hholds : d.holds path = false := by simpa [htarget, hforce] using hfree
    have habove := ensureDirs_keeps d path.above
    split
    · rename_i e fault hmade
      rwa [show d.ensureDirs path.above = (e, .error fault) from hmade] at habove
    · rename_i e hmade
      split
      · rename_i f hwrite
        exact Disk.write_keeps hp hholds hmade hwrite
      · rwa [show d.ensureDirs path.above = (e, .ok ()) from hmade] at habove

theorem step_keeps (hforce : plan.force = false) (htarget : plan.target ≠ .inPlace)
    (hp : d.Direct (plan.target.destination file)) : d.Keeps (plan.step d file).1 := by
  unfold StripPlan.step
  split
  · exact Keeps.refl d
  · exact write_keeps hforce htarget hp _

theorem steps_keeps (hforce : plan.force = false) (htarget : plan.target ≠ .inPlace)
    (hp : ∀ file ∈ files, d.Direct (plan.target.destination file)) :
    d.Keeps (plan.steps d files).1 := by
  induction files generalizing d with
  | nil => exact Keeps.refl d
  | cons file files ih =>
    have hstep := step_keeps hforce htarget (hp file (by simp))
    exact hstep.trans (ih fun x hx => (hp x (by simp [hx])).keeps hstep)

/-- A run that is refused fails and leaves the disk as it was. A run without force
leaves everything where it stood, as it was, and so does any order of its files. -/
theorem strip_keeps (r : StripRequest) (d : Disk) (s : Settings) :
    (Refused r d s → ∃ problem, strip r d s = (d, .failed problem)) ∧
      (r.force = false → ∀ plan, r.plan d s = .ok plan →
        (plan.target ≠ .output →
          ∀ file ∈ plan.files, d.Direct (plan.target.destination file)) →
        d.Keeps (strip r d s).1 ∧
          (plan.target ≠ .output →
            ∀ files, files.Perm plan.files → d.Keeps (plan.steps d files).1)) := by
  refine ⟨strip_of_refused, fun hforce plan hplan hdirect => ?_⟩
  have hp := planned_of_plan hplan
  have hplanforce : plan.force = false := hp.force.trans hforce
  have htarget : plan.target ≠ .inPlace := by
    intro h
    have hforced := force_of_inPlace (h ▸ hp.target)
    rw [hforce] at hforced
    cases hforced
  have hsteps : plan.target ≠ .output →
      ∀ files, files.Perm plan.files → d.Keeps (plan.steps d files).1 := fun hout files hperm =>
    steps_keeps hplanforce htarget fun file hfile => hdirect hout file (hperm.subset hfile)
  refine ⟨?_, hsteps⟩
  rw [strip, hplan]
  dsimp only
  split
  · split <;> exact Keeps.refl d
  · rename_i hmore
    by_cases hout : plan.target = .output
    · -- without a file nothing is written
      have hnil : plan.files = [] := by
        cases hfiles : plan.files with
        | nil => rfl
        | cons file rest => exact absurd hfiles (hmore file rest hout)
      rw [hnil]
      exact Keeps.refl d
    · exact hsteps hout _ (.refl _)

/-- One file, with a directory to write to and a link to it. -/
def workplace : Disk :=
  ⟨.dir [("a.c", .file "int a; // x\n".toUTF8), ("out", .dir []), ("l", .link ⟨"out"⟩)], []⟩

theorem direct_through : workplace.Direct ⟨"out/../o.c"⟩ := by
  intro front back hmoves
  have hall : Path.moves ⟨"out/../o.c"⟩ = [.down "out", .up, .down "o.c"] := by decide +kernel
  rw [hall] at hmoves
  rcases front with _ | ⟨first, _ | ⟨second, _ | ⟨third, front⟩⟩⟩ <;> simp at hmoves
  obtain ⟨rfl, -⟩ := hmoves
  exact ⟨["out"], by decide +kernel⟩

theorem strip_keeps_workplace : ∃ plan,
    StripRequest.plan { inputs := [⟨"a.c"⟩], output := some ⟨"out/../o.c"⟩ } workplace {} = .ok plan ∧
      plan.files = [⟨⟨"a.c"⟩, ⟨"a.c"⟩⟩] ∧
      workplace.Keeps (strip { inputs := [⟨"a.c"⟩], output := some ⟨"out/../o.c"⟩ } workplace {}).1 ∧
      workplace.Keeps (plan.steps workplace [⟨⟨"a.c"⟩, ⟨"a.c"⟩⟩]).1 ∧
      ∃ problem, strip { inputs := [] } workplace {} = (workplace, .failed problem) := by
  have hfacts : (match StripRequest.plan
      { inputs := [⟨"a.c"⟩], output := some ⟨"out/../o.c"⟩ } workplace {} with
      | .ok plan => decide (plan.target = .file ⟨"out/../o.c"⟩ ∧ plan.files = [⟨⟨"a.c"⟩, ⟨"a.c"⟩⟩])
      | .error _ => false) = true := by decide +kernel
  cases hplan : StripRequest.plan
      { inputs := [⟨"a.c"⟩], output := some ⟨"out/../o.c"⟩ } workplace {} with
  | error problem =>
    rw [hplan] at hfacts
    cases hfacts
  | ok plan =>
    rw [hplan] at hfacts
    obtain ⟨htarget, hfiles⟩ := of_decide_eq_true hfacts
    obtain ⟨hrun, hsteps⟩ := (strip_keeps _ workplace {}).2 rfl plan hplan fun _ file _ => by
      rw [htarget]
      exact direct_through
    refine ⟨plan, rfl, hfiles, hrun, ?_, ?_⟩
    · exact hsteps (by simp [htarget]) _ (hfiles ▸ .refl _)
    · exact (strip_keeps { inputs := [] } workplace {}).1 (.noInputs rfl)

/-- A run that may not write over `a.c` does. -/
theorem not_keeps_strip : ¬ workplace.Keeps
    (strip { inputs := [⟨"a.c"⟩], output := some ⟨"new/../a.c"⟩ } workplace {}).1 := by
  intro h
  have hkept := h.entries ["a.c"] (.file "int a; // x\n".toUTF8) (by decide +kernel)
  have hnow : (strip { inputs := [⟨"a.c"⟩], output := some ⟨"new/../a.c"⟩ } workplace {}).1.look?
      ["a.c"] = some (.file "int a;\n".toUTF8) := by decide +kernel
  rw [hnow] at hkept
  exact absurd hkept (by decide +kernel)

end Gloss.Command
