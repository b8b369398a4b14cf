import Gloss.Proofs.Descent
import Gloss.Proofs.Destination
import Gloss.Proofs.Shape
/-!
# Writing over a file

A path that leads to a file is a plain one, with directories above it that are there
(`FileAt.plain`, `FileAt.ensureParent`). So a file can be written to by the path it was
read by, and then nothing else changes (`FileAt.write`). Two paths with the same steps
do not lead to different files (`eq_of_steps`).
-/

namespace Gloss

namespace Disk

variable {d e : Disk} {p q : Path} {loc loc' : Location} {n n' : Nat} {m : Move} {ms : List Move}
  {bytes old : ByteArray}

theorem Leads.dir_of_cons (h : d.Leads n loc (m :: ms) n' loc') : d.look? loc = some .dir := by
  cases h with
  | idle hdir | up hdir | down hdir | link hdir => exact hdir

/-- Where a last move that is idle leads is a directory. -/
theorem Leads.dir_of_idle (h : d.Leads n loc (ms ++ [m]) n' loc') (hm : m = .stay ∨ m = .slash) :
    d.look? loc' = some .dir := by
  obtain ⟨k, mid, -, hlast⟩ := leads_append.1 h
  have hdir := hlast.dir_of_cons
  cases hlast with
  | idle _ _ hnil =>
    cases hnil
    exact hdir
  | _ => simp at hm

/-- A way that does not end at a directory can be taken to write a file. -/
theorem Leads.walk_file (h : d.Leads n loc ms n' loc') (hfile : d.look? loc' ≠ some .dir) :
    d.walk .file n loc ms = .ok (.found loc') := by
  have hslash : ∀ {k : Nat} {mid : Location} {front : List Move},
      d.Leads k mid (front ++ [.slash]) n' loc' → False :=
    fun hleads => hfile (hleads.dir_of_idle (.inr rfl))
  induction h with
  | here => exact walk_nil
  | idle hdir hm _ ih => rw [walk_idle hdir hm, ih hfile hslash]
  | up hdir _ ih => rw [walk_up hdir, ih hfile hslash]
  | @down _ _ _ _ _ x ms hdir hsize hx hlink hrest ih =>
    have hms : ¬ (Goal.file = .file ∧ ms = [.slash]) := by
      rintro ⟨-, rfl⟩
      exact hslash (List.nil_append [Move.slash] ▸ hrest)
    rw [walk_down hdir, if_neg hms, if_neg (Nat.not_lt.2 hsize), hx]
    cases x with
    | link target => exact absurd rfl (hlink target)
    | _ => exact ih hfile hslash
  | @link _ _ _ _ _ _ ms hdir hsize hx htarget hrest ih =>
    have hms : ¬ (Goal.file = .file ∧ ms = [.slash]) := by
      rintro ⟨-, rfl⟩
      exact hslash hrest
    rw [walk_down hdir, if_neg hms, if_neg (Nat.not_lt.2 hsize), hx]
    dsimp only
    rw [if_neg (by simp), follow, if_neg htarget, ih hfile hslash]

/-! ## Paths that lead to a file -/

/-- A file is at the location that the path leads to. -/
structure FileAt (d : Disk) (p : Path) (loc : Location) (bytes : ByteArray) : Prop where
  found : d.find p = .ok (.found loc)
  file : d.look? loc = some (.file bytes)

theorem read_eq_ok_iff : d.read p = .ok bytes ↔ ∃ loc, d.FileAt p loc bytes := by
  constructor
  · intro h
    cases hplace : d.find p with
    | error => rw [read, hplace] at h; cases h
    | ok place =>
      cases place with
      | missing => rw [read, hplace] at h; cases h
      | found loc =>
        rw [read_found hplace] at h
        split at h
        · rename_i hfile
          cases h
          exact ⟨loc, hplace, hfile⟩
        · cases h
        · cases h
  · rintro ⟨loc, hplace, hfile⟩
    rw [read_found hplace, hfile]

namespace FileAt

theorem fault? (h : d.FileAt p loc bytes) : p.fault? = none := by
  cases hf : p.fault? with
  | none => rfl
  | some fault =>
    have hfound := h.found
    rw [find_of_fault hf] at hfound
    cases hfound

theorem route (h : d.FileAt p loc bytes) : ∃ n, d.Leads maxLinks (d.start p) p.route n loc := by
  have hwalk := walk_of_find h.found
  rw [if_neg (by decide)] at hwalk
  exact leads_iff.1 hwalk

theorem endsInSlash (h : d.FileAt p loc bytes) : p.endsInSlash = false := by
  rw [Bool.eq_false_iff]
  intro hslash
  obtain ⟨n, hleads⟩ := h.route
  rw [Path.route, if_pos hslash] at hleads
  have hdir := hleads.dir_of_idle (.inr rfl)
  rw [h.file] at hdir
  cases hdir

theorem leads (h : d.FileAt p loc bytes) : ∃ n, d.Leads maxLinks (d.start p) p.moves n loc := by
  have hroute := h.route
  rwa [Path.route, h.endsInSlash, if_neg (by decide), List.append_nil] at hroute

/-- The path to a file is written as far as the name of the file and no further. -/
theorem plain (h : d.FileAt p loc bytes) : p.Plain := by
  refine ⟨?_, h.endsInSlash, ?_⟩
  · intro htext
    have hfault := h.fault?
    unfold Path.fault? at hfault
    split at hfault <;> cases hfault
  · intro ms hms
    obtain ⟨n, hleads⟩ := h.leads
    rw [hms] at hleads
    have hdir := hleads.dir_of_idle (.inl rfl)
    rw [h.file] at hdir
    cases hdir

theorem fixed (h : d.FileAt p loc bytes) : d.Fixed p := by
  refine ⟨h.plain, ?_⟩
  rw [leads_iff.2 h.leads]
  exact settled_found

/-- Right above a file is a directory. -/
theorem isDir_above (h : d.FileAt p loc bytes) (hq : p.Above q) : d.isDir q = true := by
  obtain ⟨n, hleads⟩ := h.leads
  obtain ⟨idle, m, idle', hmoves, hidle, -⟩ := hq.moves
  rw [hmoves, leads_append] at hleads
  obtain ⟨k, mid, hfront, hback⟩ := hleads
  obtain ⟨k', mid', hmid, hstay⟩ := leads_append.1 hfront
  obtain ⟨rfl, rfl⟩ := hstay.of_idle hidle
  have hwalk : d.walk .node maxLinks (d.start q) q.moves = .ok (.found mid) := by
    rw [start_above d hq]
    exact leads_iff.2 ⟨_, hmid⟩
  refine isDir_of_find ?_ hback.dir_of_cons
  rw [find_of_walk (fault?_above h.fault? hq) hq.plain, hwalk]

/-- The directories above a file are there. -/
theorem ensureParent (h : d.FileAt p loc bytes) : d.ensureParent p = (d, .ok ()) := by
  obtain ⟨hnil, -⟩ | ⟨q, hq, hpq⟩ := p.above_eq
  · rw [Disk.ensureParent, hnil, ensureDirs]
  obtain ⟨fault, hfault, hmade⟩ := (h.fixed.above hpq).makeDir
  have hmake := hmade d (.refl d)
  have hne : d.makeDir q ≠ .error .notFound := by
    rw [hmake]
    exact fun heq => hfault (Except.error.inj heq)
  rw [Disk.ensureParent, hq, ensureDirs_of_ne hne, ensureDir, hmake]
  simp [h.isDir_above hpq]

/-- Writing by the path puts the file where it was found. -/
theorem write (h : d.FileAt p loc old) (bytes : ByteArray) :
    d.write p bytes = .ok (d.put loc (.file bytes)) := by
  obtain ⟨n, hleads⟩ := h.leads
  have hfile : d.look? loc ≠ some .dir := by
    rw [h.file]
    intro heq
    cases heq
  have hfind : d.find p .file = .ok (.found loc) := by
    rw [find_of_walk h.fault? h.plain, hleads.walk_file hfile]
  have htarget : d.target p = .ok loc := by
    rw [target, hfind]
    dsimp only
    rw [get?_of_look? h.file]
  rw [Disk.write, htarget]
  rfl

/-- The path leads to the same place on a disk with the same shape. -/
theorem of_shape (h : d.FileAt p loc old) (hshape : e.shape = d.shape)
    (hfile : e.look? loc = some (.file bytes)) : e.FileAt p loc bytes :=
  ⟨by rw [← find_shape, hshape, find_shape, h.found], hfile⟩

end FileAt
end Disk

/-! ## Paths with the same steps -/

namespace Path

variable {p q : Path}

/-- The move that a step comes to, if it is not where the path starts. -/
def Step.move? : Step → Option Move
  | .up => some .up
  | .name s => some (.down s)
  | _ => none

theorem step?_eq (part : String) :
    (step? part).bind Step.move? = (Move.ofPart? part).filter (· ≠ .stay) := by
  unfold step? Move.ofPart?
  by_cases hempty : part = ""
  · simp [hempty]
  by_cases hdot : part = "."
  · simp [hdot, Option.filter]
  by_cases hdots : part = ".."
  · simp [hdots, Step.move?, Option.filter]
  · simp [hempty, hdot, hdots, Step.move?, Option.filter]

/-- The steps of a path are its moves but for the idle ones. -/
theorem filter_moves (p : Path) : p.moves.filter (· ≠ .stay) = p.steps.filterMap Step.move? := by
  have hparts : ∀ parts : List String, (parts.filterMap Move.ofPart?).filter (· ≠ .stay) =
      (parts.filterMap step?).filterMap Step.move? := by
    intro parts
    rw [List.filterMap_filterMap, List.filter_filterMap]
    congr 1
    funext part
    exact (step?_eq part).symm
  have hfront : ∀ more : List Step, ∀ front ∈ [[], [Step.root], [Step.here]],
      (front ++ more).filterMap Step.move? = more.filterMap Step.move? := by
    simp [Step.move?]
  rw [moves, hparts, steps, hfront]
  split
  · simp
  split <;> simp

theorem isAbsolute_iff_root (p : Path) : p.isAbsolute = true ↔ p.steps.head? = some .root := by
  have hroot : ∀ parts : List String, Step.root ∉ parts.filterMap step? := by
    intro parts hmem
    obtain ⟨part, -, hstep⟩ := List.mem_filterMap.1 hmem
    unfold step? at hstep
    split at hstep
    · cases hstep
    split at hstep <;> cases hstep
  rw [steps]
  by_cases habs : p.isAbsolute = true
  · simp [habs]
  rw [if_neg habs]
  refine ⟨fun h => absurd h habs, fun hhead => ?_⟩
  split at hhead
  · cases hhead
  · rw [List.nil_append] at hhead
    exact absurd (List.mem_of_head? hhead) (hroot _)

end Path

namespace Disk

variable {d : Disk} {p q : Path} {a b loc loc' : Location} {n n' : Nat} {ms : List Move}
  {x y : ByteArray}

theorem Leads.filter (h : d.Leads n loc ms n' loc') :
    d.Leads n loc (ms.filter (· ≠ .stay)) n' loc' := by
  induction ms generalizing n loc with
  | nil => exact h
  | cons m ms ih =>
    obtain ⟨k, mid, hfirst, hrest⟩ := leads_append.1 (show d.Leads n loc ([m] ++ ms) n' loc' from h)
    by_cases hm : m = .stay
    · obtain ⟨rfl, rfl⟩ := hfirst.of_idle (by simpa using hm)
      rw [List.filter_cons_of_neg (by simpa using hm)]
      exact ih hrest
    · rw [List.filter_cons_of_pos (by simpa using hm)]
      exact leads_append.2 ⟨k, mid, hfirst, ih hrest⟩

/-- Two paths with the same steps do not lead to different files. -/
theorem FileAt.eq_of_steps (hp : d.FileAt p a x) (hq : d.FileAt q b y) (h : p.steps = q.steps) :
    a = b := by
  obtain ⟨n, hleads⟩ := hp.leads
  obtain ⟨k, hleads'⟩ := hq.leads
  have hmoves : p.moves.filter (· ≠ .stay) = q.moves.filter (· ≠ .stay) := by
    rw [Path.filter_moves, Path.filter_moves, h]
  have hstart : d.start p = d.start q := by
    have habs : p.isAbsolute = q.isAbsolute := by
      rw [Bool.eq_iff_iff, Path.isAbsolute_iff_root, Path.isAbsolute_iff_root, h]
    rw [start, habs, start]
  have hboth := hleads.filter
  rw [hmoves, hstart] at hboth
  exact (hleads'.filter.unique hboth).2

end Disk
end Gloss
