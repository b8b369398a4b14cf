import Gloss.Command.Strip
import Mathlib.Data.List.Forall2
/-!
# Plans of strip runs

What stands when a plan does (`Planned`), and what stands against one (`Refused`):
a run that is refused does nothing to the disk (`strip_of_refused`).
-/

namespace Gloss.Command

variable {r : StripRequest} {d : Disk} {s : Settings} {plan : StripPlan} {problem : Problem}

/-- A computation that succeeds does so in both its steps. -/
theorem exists_of_bind {ε α β : Type} {x : Except ε α} {f : α → Except ε β} {b : β}
    (h : x >>= f = .ok b) : ∃ a, x = .ok a ∧ f a = .ok b := by
  cases x with
  | error => cases h
  | ok a => exact ⟨a, rfl, h⟩

/-- A computation goes on from a step that succeeds. -/
theorem bind_of_ok {ε α β : Type} {x : Except ε α} {a : α} (h : x = .ok a) (f : α → Except ε β) :
    x >>= f = f a := by
  rw [h]
  rfl

theorem forall₂_of_mapM {ε α β : Type} {f : α → Except ε β} {xs : List α} {ys : List β}
    (h : xs.mapM f = .ok ys) : List.Forall₂ (fun x y => f x = .ok y) xs ys := by
  induction xs generalizing ys with
  | nil =>
    cases h
    exact .nil
  | cons x xs ih =>
    rw [List.mapM_cons] at h
    obtain ⟨y, hy, h⟩ := exists_of_bind h
    obtain ⟨ys, hys, h⟩ := exists_of_bind h
    cases h
    exact .cons hy (ih hys)

/-! ## Shared destinations -/

theorem sharedPath?_eq_none_iff {seen ps : List Path} : sharedPath? seen ps = none ↔
    (ps.map Path.steps).Nodup ∧ ∀ p ∈ ps, ∀ q ∈ seen, q.steps ≠ p.steps := by
  induction ps generalizing seen with
  | nil => simp [sharedPath?]
  | cons p ps ih =>
    rw [sharedPath?]
    split
    · rename_i hseen
      refine ⟨nofun, fun h => ?_⟩
      obtain ⟨q, hq, hsame⟩ := List.any_eq_true.1 hseen
      exact absurd (by simpa using hsame) (h.2 p (by simp) q hq)
    · rename_i hseen
      have hnew : ∀ q ∈ seen, q.steps ≠ p.steps := by simpa using hseen
      rw [ih, List.map_cons, List.nodup_cons]
      constructor
      · rintro ⟨hnodup, hapart⟩
        refine ⟨⟨?_, hnodup⟩, ?_⟩
        · rintro hmem
          obtain ⟨q, hq, hsame⟩ := List.mem_map.1 hmem
          exact hapart q hq p (by simp) hsame.symm
        · intro q hq
          rcases List.mem_cons.1 hq with rfl | hq
          · exact hnew
          · exact fun x hx => hapart q hq x (by simp [hx])
      · rintro ⟨⟨hmem, hnodup⟩, hapart⟩
        refine ⟨hnodup, fun q hq x hx => ?_⟩
        rcases List.mem_cons.1 hx with rfl | hx
        · exact fun hsame => hmem (List.mem_map.2 ⟨q, hq, hsame.symm⟩)
        · exact hapart q (by simp [hq]) x hx

/-! ## A plan that stands -/

/-- What a plan is made from. -/
structure Planned (r : StripRequest) (d : Disk) (s : Settings) (plan : StripPlan) : Prop where
  policy : r.policyUnder s = .ok plan.policy
  registry : Registry.ofSettings s r.language = .ok plan.registry
  files : collect d plan.registry r.inputs = .ok plan.files
  target : r.target d = .ok plan.target
  apart : (plan.files.map fun file => (plan.target.destination file).steps).Nodup
  force : plan.force = r.force

theorem planned_of_plan (h : r.plan d s = .ok plan) : Planned r d s plan := by
  unfold StripRequest.plan at h
  obtain ⟨policy, hpolicy, h⟩ := exists_of_bind h
  obtain ⟨registry, hregistry, h⟩ := exists_of_bind h
  obtain ⟨files, hfiles, h⟩ := exists_of_bind h
  obtain ⟨target, htarget, h⟩ := exists_of_bind h
  split at h
  · cases h
  · rename_i hshared
    cases h
    have hapart := (sharedPath?_eq_none_iff.1 hshared).1
    rw [List.map_map] at hapart
    exact ⟨hpolicy, hregistry, hfiles, htarget, hapart, rfl⟩

theorem plan_of_planned (h : Planned r d s plan) : r.plan d s = .ok plan := by
  obtain ⟨hpolicy, hregistry, hfiles, htarget, hapart, hforce⟩ := h
  have hshared : sharedPath? [] (plan.files.map plan.target.destination) = none :=
    sharedPath?_eq_none_iff.2 ⟨by rwa [List.map_map], fun _ _ _ hq => (List.not_mem_nil hq).elim⟩
  unfold StripRequest.plan
  rw [bind_of_ok hpolicy, bind_of_ok hregistry, bind_of_ok hfiles, bind_of_ok htarget]
  split
  · rename_i hsome
    rw [hshared] at hsome
    cases hsome
  · rw [← hforce]
    rfl

/-- Files are written over their sources only if that is forced. -/
theorem force_of_inPlace (h : r.target d = .ok .inPlace) : r.force = true := by
  unfold StripRequest.target at h
  extract_lets single at h
  cases hout : r.output with
  | some path =>
    rw [hout] at h
    dsimp only at h
    split at h <;> cases h
  | none =>
    rw [hout] at h
    dsimp only at h
    split at h
    · cases h
    · split at h
      · assumption
      · cases h

theorem collect_eq_ok_iff {g : Registry} {inputs : List Path} {files : List InputFile} :
    collect d g inputs = .ok files ↔
      inputs ≠ [] ∧ ∃ groups, inputs.mapM (filesOf d g) = .ok groups ∧ files = groups.flatten := by
  rw [collect]
  split
  · rename_i hnil
    exact ⟨nofun, fun h => absurd hnil h.1⟩
  · rename_i hne
    cases inputs.mapM (filesOf d g) with
    | error => exact ⟨nofun, fun h => nomatch h.2.choose_spec.1⟩
    | ok groups =>
      constructor
      · rintro ⟨⟩
        exact ⟨hne, groups, rfl, rfl⟩
      · rintro ⟨-, _, ⟨⟩, rfl⟩
        rfl

/-- The files of a run are those of its inputs. -/
theorem exists_of_collect {g : Registry} {inputs : List Path} {files : List InputFile}
    (h : collect d g inputs = .ok files) : ∃ groups,
      List.Forall₂ (fun input group => filesOf d g input = .ok group) inputs groups ∧
      files = groups.flatten := by
  obtain ⟨-, groups, hgroups, hfiles⟩ := collect_eq_ok_iff.1 h
  exact ⟨groups, forall₂_of_mapM hgroups, hfiles⟩

/-! ## What stands against a plan -/

/-- A run is refused before the first file is read. -/
inductive Refused (r : StripRequest) (d : Disk) (s : Settings) : Prop
  | policy {name : String} : r.policy = some name → Policy.ofName? name = none → Refused r d s
  | language {name : String} : r.language = some name →
      (∀ g, Registry.ofSettings s none = .ok g → g.number? name = none) → Refused r d s
  | noInputs : r.inputs = [] → Refused r d s
  | inputMissing {input : Path} : input ∈ r.inputs → d.node? input = none → Refused r d s
  | outputNeeded : r.output = none → r.force = false →
      (∀ input, r.inputs = [input] → d.isFile input = false) → Refused r d s
  | sameOutput {g : Registry} {files : List InputFile} {target : Target} :
      Registry.ofSettings s r.language = .ok g → collect d g r.inputs = .ok files →
      r.target d = .ok target → ¬ (files.map fun file => (target.destination file).steps).Nodup →
      Refused r d s

theorem number?_of_ofSettings {s : Settings} {name : String} {g : Registry}
    (h : Registry.ofSettings s (some name) = .ok g) :
    ∃ g', Registry.ofSettings s none = .ok g' ∧ g'.number? name ≠ none := by
  unfold Registry.ofSettings at h
  obtain ⟨known, hknown, h⟩ := exists_of_bind h
  obtain ⟨forced, hforced, h⟩ := exists_of_bind h
  obtain ⟨fallback, hfallback, h⟩ := exists_of_bind h
  refine ⟨{ known with forced := none, fallback }, ?_, ?_⟩
  · unfold Registry.ofSettings
    rw [hknown]
    show s.defaultLanguage.mapM known.require >>= _ = _
    rw [hfallback]
    rfl
  · intro hnone
    have hrequire : known.require name = .error (.unknownLanguage name) := by
      rw [Registry.require, show known.number? name = none from hnone]
    rw [Option.mapM_some, hrequire] at hforced
    cases hforced

/-- Every input of a run that goes on is there. -/
theorem node?_of_collect {g : Registry} {inputs : List Path} {files : List InputFile}
    (h : collect d g inputs = .ok files) {input : Path} (hmem : input ∈ inputs) :
    d.node? input ≠ none := by
  obtain ⟨groups, hgroups, -⟩ := exists_of_collect h
  obtain ⟨i, hi, rfl⟩ := List.getElem_of_mem hmem
  have hlength := hgroups.length_eq
  have hfiles := hgroups.get hi (hlength ▸ hi)
  intro hnone
  rw [List.get_eq_getElem, filesOf, hnone] at hfiles
  cases hfiles

/-- A run that is refused fails and leaves the disk as it was. -/
theorem strip_of_refused (h : Refused r d s) : ∃ problem, strip r d s = (d, .failed problem) := by
  cases hplan : r.plan d s with
  | error problem => exact ⟨problem, by rw [strip, hplan]⟩
  | ok plan =>
    exfalso
    have hp := planned_of_plan hplan
    cases h with
    | policy hname hnone =>
      have hpolicy := hp.policy
      rw [StripRequest.policyUnder, hname] at hpolicy
      simp only [hnone] at hpolicy
      cases hpolicy
    | language hname hunknown =>
      have hregistry := hp.registry
      rw [hname] at hregistry
      obtain ⟨g, hg, hnumber⟩ := number?_of_ofSettings hregistry
      exact hnumber (hunknown g hg)
    | noInputs hnil =>
      have hfiles := hp.files
      rw [collect, if_pos hnil] at hfiles
      cases hfiles
    | inputMissing hmem hnone => exact node?_of_collect hp.files hmem hnone
    | outputNeeded hout hforce hsingle =>
      have htarget := hp.target
      unfold StripRequest.target at htarget
      extract_lets single at htarget
      have hfile : single = false := by
        unfold single
        split
        · exact hsingle _ ‹_›
        · rfl
      rw [hout, hfile, hforce] at htarget
      cases htarget
    | sameOutput hg hfiles htarget hshared =>
      cases hp.registry.symm.trans hg
      cases hp.files.symm.trans hfiles
      cases hp.target.symm.trans htarget
      exact hshared hp.apart

end Gloss.Command
