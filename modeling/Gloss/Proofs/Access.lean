import Gloss.Proofs.Path
/-!
# Making directories and files

What the operations on a disk come to, said by entries. All that make something
put it where nothing is, but for writing to a file that is there, so what stands
stays (`ensureDirs_keeps`, `write_keeps`).
-/

namespace Gloss

/-- What is wrong with the text of a path, wherever it leads. -/
def Path.fault? (p : Path) : Option Fault :=
  if p.text.toList.contains '\x00' then some .endInside
  else if p.text = "" then some .notFound
  else if !p.fits then some .nameTooLong
  else none

namespace Disk

variable {d e : Disk} {p q : Path} {goal : Goal} {fault : Fault} {loc dir : Location}
  {name : String} {bytes : ByteArray}

/-! ## Finding -/

theorem find_of_fault (h : p.fault? = some fault) : d.find p goal = .error fault := by
  unfold Path.fault? at h
  unfold find
  split at h
  · rw [if_pos ‹_›]
    cases h
    rfl
  rw [if_neg ‹_›]
  split at h
  · rw [if_pos ‹_›]
    cases h
    rfl
  rw [if_neg ‹_›]
  split at h
  · rw [if_pos ‹_›]
    cases h
    rfl
  · cases h

theorem find_of_sound (h : p.fault? = none) : d.find p goal =
    d.walk goal maxLinks (d.start p) (if goal = .entry then p.moves else p.route) := by
  unfold Path.fault? at h
  unfold find
  split at h
  · cases h
  rw [if_neg ‹_›]
  split at h
  · cases h
  rw [if_neg ‹_›]
  split at h
  · cases h
  rw [if_neg ‹_›]
  rfl

/-- A place that was found can be walked to. -/
theorem walk_of_find {place : Place} (h : d.find p goal = .ok place) :
    d.walk goal maxLinks (d.start p) (if goal = .entry then p.moves else p.route) = .ok place := by
  cases hf : p.fault? with
  | none => rwa [find_of_sound hf] at h
  | some fault => rw [find_of_fault hf] at h; cases h

/-- The path leads somewhere, whatever is wrong with its text. -/
def Found (d : Disk) (p : Path) : Prop :=
  ∃ n loc, d.Leads maxLinks (d.start p) p.moves n loc

theorem Keeps.start (hk : d.Keeps e) (p : Path) : e.start p = d.start p := by
  rw [Disk.start, hk.here, Disk.start]

theorem Found.keeps (hk : d.Keeps e) (h : d.Found p) : e.Found p := by
  obtain ⟨n, loc, h⟩ := h
  refine ⟨n, loc, ?_⟩
  rw [hk.start]
  exact h.keeps hk

theorem found_of_find (h : d.find p = .ok (.found loc)) : d.Found p := by
  obtain ⟨n, hleads⟩ := leads_iff.1 (walk_of_find h)
  rw [if_neg nofun, Path.route, leads_append] at hleads
  obtain ⟨k, mid, hmid, -⟩ := hleads
  exact ⟨k, mid, hmid⟩

theorem found_of_isDir (h : d.isDir p = true) : d.Found p := by
  unfold isDir node? at h
  split at h
  · rename_i loc hfind
    exact found_of_find hfind
  · cases h

/-! ## Directories -/

/-- A directory is made under a free name, where the moves before the last lead. -/
theorem exists_of_makeDir (h : d.makeDir p = .ok e) :
    ∃ front n dir name, p.moves = front ++ [.down name] ∧
      d.Leads maxLinks (d.start p) front n dir ∧ name.utf8ByteSize ≤ maxName ∧
      d.look? dir = some .dir ∧ d.look? (dir ++ [name]) = none ∧
      e = d.put (dir ++ [name]) .empty := by
  unfold makeDir at h
  split at h
  · cases h
  · cases h
  · rename_i dir name hfind
    have hwalk := walk_of_find hfind
    rw [if_pos rfl] at hwalk
    obtain ⟨front, n, hmoves, hfront, hsize⟩ := leads_of_missing hwalk
    obtain ⟨hdir, hnone⟩ := walk_missing hwalk
    cases h
    exact ⟨front, n, dir, name, hmoves, hfront, hsize, hdir, hnone, rfl⟩

theorem get?_empty (x : String) (xs : Location) : Node.empty.get? (x :: xs) = none := rfl

theorem get?_file (x : String) (xs : Location) : (Node.file bytes).get? (x :: xs) = none := rfl

theorem makeDir_keeps (h : d.makeDir p = .ok e) : d.Keeps e := by
  obtain ⟨_, _, _, _, _, _, _, hdir, hnone, rfl⟩ := exists_of_makeDir h
  exact keeps_put get?_empty hdir hnone

theorem ensureDir_keeps (d : Disk) (p : Path) : d.Keeps (d.ensureDir p).1 := by
  unfold ensureDir
  split
  · exact makeDir_keeps ‹_›
  · exact Keeps.refl d

theorem ensureDirs_keeps (d : Disk) (ps : List Path) : d.Keeps (d.ensureDirs ps).1 := by
  induction ps with
  | nil => exact Keeps.refl d
  | cons p ps ih =>
    unfold ensureDirs
    split
    · split
      · rename_i e hrest
        rw [hrest] at ih
        exact ih.trans (ensureDir_keeps e p)
      · rename_i e fault hrest
        rw [hrest] at ih
        exact ih
    · exact ensureDir_keeps d p

/-- The path leads to a directory without entries. -/
def Fresh (d : Disk) (p : Path) : Prop :=
  ∃ n loc, d.Leads maxLinks (d.start p) p.moves n loc ∧ ∀ name, d.look? (loc ++ [name]) = none

/-- Where a directory is made nothing was found, and then it is fresh. -/
theorem fresh_of_makeDir (h : d.makeDir p = .ok e) : ¬ d.Found p ∧ e.Fresh p := by
  obtain ⟨front, n, dir, name, hmoves, hfront, hsize, hdir, hnone, rfl⟩ := exists_of_makeDir h
  have hk := keeps_put get?_empty hdir hnone
  have hentry := look?_put get?_empty hdir hnone
  constructor
  · rintro ⟨k, loc, hleads⟩
    rw [hmoves, leads_append] at hleads
    obtain ⟨k', mid, hmid, hlast⟩ := hleads
    obtain ⟨rfl, rfl⟩ := hfront.unique hmid
    cases hlast with
    | idle _ hm => simp at hm
    | down _ _ hx => rw [hnone] at hx; cases hx
    | link _ _ hx => rw [hnone] at hx; cases hx
  · refine ⟨n, dir ++ [name], ?_, fun x => ?_⟩
    · have hmade : (d.put (dir ++ [name]) .empty).look? (dir ++ [name]) = some .dir := by
        rw [hentry, if_pos rfl]
        rfl
      rw [hmoves, leads_append, hk.start]
      exact ⟨n, dir, hfront.keeps hk, .down (hk.entries _ _ hdir) hsize hmade nofun .here⟩
    · rw [hentry, if_neg (by simp)]
      exact look?_below_none hnone [x]

/-- Wherever a path goes up, it does so from what is there. -/
def Direct (d : Disk) (p : Path) : Prop :=
  ∀ front back, p.moves = front ++ .up :: back →
    ∃ loc, d.walk .node maxLinks (d.start p) front = .ok (.found loc)

theorem Direct.keeps (hk : d.Keeps e) (h : d.Direct p) : e.Direct p := by
  intro front back hmoves
  obtain ⟨loc, hloc⟩ := h front back hmoves
  refine ⟨loc, ?_⟩
  rw [hk.start, walk_keeps hk (hloc ▸ settled_found), hloc]

theorem start_above (d : Disk) (h : p.Above q) : d.start q = d.start p := by
  rw [start, h.isAbsolute, start]

theorem Direct.above (h : d.Direct p) (hq : p.Above q) : d.Direct q := by
  obtain ⟨idle, m, idle', hmoves, -⟩ := hq.moves
  intro front back hfront
  rw [start_above d hq]
  refine h front (back ++ idle ++ m :: idle') ?_
  rw [hmoves, hfront]
  simp

/-- A path leads nowhere if right above it is a fresh directory: in it is nothing
yet, and the path does not go up from it. -/
theorem not_found_of_fresh (hp : d.Direct p) (hq : p.Above q) (hnew : ¬ d.Found q)
    (hfresh : e.Fresh q) : ¬ e.Found p := by
  obtain ⟨idle, m, idle', hmoves, hidle, hstay, hslash, -⟩ := hq.moves
  obtain ⟨n, loc, hleads, hempty⟩ := hfresh
  rintro ⟨n', loc', hp'⟩
  rw [hmoves, leads_append] at hp'
  obtain ⟨k, mid, hbefore, hlast⟩ := hp'
  obtain ⟨k', mid', hq', hwait⟩ := leads_append.1 hbefore
  rw [start_above e hq] at hleads
  obtain ⟨rfl, rfl⟩ := hleads.unique hq'
  obtain ⟨rfl, rfl⟩ := hwait.of_idle hidle
  cases hlast with
  | idle _ hm => exact hm.elim hstay hslash
  | up =>
    -- the way up starts where nothing was before
    obtain ⟨loc, hloc⟩ := hp (q.moves ++ idle) idle' hmoves
    obtain ⟨n, hloc⟩ := leads_iff.1 hloc
    obtain ⟨k, mid, hq, -⟩ := leads_append.1 hloc
    exact hnew ⟨k, mid, by rwa [start_above d ‹_›]⟩
  | down _ _ hx => rw [hempty] at hx; cases hx
  | link _ _ hx => rw [hempty] at hx; cases hx

theorem ensureDir_ok (h : d.ensureDir p = (e, .ok ())) :
    d.makeDir p = .ok e ∨ e = d ∧ d.isDir p = true := by
  unfold ensureDir at h
  split at h
  · rename_i hmake
    cases h
    exact .inl hmake
  · split at h
    · rename_i hdir
      cases h
      exact .inr ⟨rfl, hdir⟩
    · cases h

/-- What came of directories that all are there now. -/
theorem ensureDirs_ok {ps : List Path} (h : d.ensureDirs (p :: ps) = (e, .ok ())) :
    e = d ∨ ∃ d', (d' = d ∨ d.ensureDirs ps = (d', .ok ())) ∧
      (d'.makeDir p = .ok e ∨ e = d' ∧ d'.isDir p = true) := by
  unfold ensureDirs at h
  split at h
  · split at h
    · rename_i d' hrest
      exact .inr ⟨d', .inr hrest, ensureDir_ok h⟩
    · cases h
  · exact .inr ⟨d, .inl rfl, ensureDir_ok h⟩

/-- With the directories above a path there, either nothing was made, or the path
leads to what was made last. -/
theorem ensureDirs_above (hp : d.Direct p) (h : d.ensureDirs (p :: p.above) = (e, .ok ())) :
    e = d ∨ (¬ d.Found p ∧ e.Fresh p) := by
  induction habove : p.above generalizing p e with
  | nil =>
    rw [habove] at h
    obtain rfl | ⟨d', hd', hmake | ⟨rfl, -⟩⟩ := ensureDirs_ok h
    · exact .inl rfl
    · obtain rfl : d' = d := hd'.elim id fun hnil => (Prod.mk.inj hnil).1.symm
      exact .inr (fresh_of_makeDir hmake)
    · exact .inl (hd'.elim id fun hnil => (Prod.mk.inj hnil).1.symm)
  | cons _ _ ih =>
    obtain ⟨hnil, -⟩ | ⟨q, hq, hpq⟩ := p.above_eq
    · rw [hnil] at habove
      cases habove
    rw [hq] at h habove
    have htail := (List.cons.inj habove).2
    obtain rfl | ⟨d', hd', hlast⟩ := ensureDirs_ok h
    · exact .inl rfl
    have hbefore : d' = d ∨ (¬ d.Found q ∧ d'.Fresh q) :=
      hd'.elim .inl fun hrest => ih (hp.above hpq) hrest htail
    have hk : d.Keeps d' := by
      rcases hd' with rfl | hrest
      · exact Keeps.refl _
      · have := ensureDirs_keeps d (q :: q.above)
        rwa [hrest] at this
    obtain hmake | ⟨rfl, hdir⟩ := hlast
    · obtain ⟨hnew, hfresh⟩ := fresh_of_makeDir hmake
      exact .inr ⟨fun hfound => hnew (hfound.keeps hk), hfresh⟩
    · refine .inl (hbefore.resolve_right ?_)
      rintro ⟨hnew, hfresh⟩
      exact not_found_of_fresh hp hpq hnew hfresh (found_of_isDir hdir)

/-! ## Files -/

theorem read_found (h : d.find p = .ok (.found loc)) :
    d.read p = match d.look? loc with
      | some (.file bytes) => .ok bytes
      | some _ => .error .isADirectory
      | none => .error .notFound := by
  rw [read, h, look?]
  dsimp only
  cases d.root.get? loc with
  | none => rfl
  | some node => cases node <;> rfl

/-- What is read depends on where the path leads and on what is there. -/
theorem read_congr (hfind : e.find p = d.find p)
    (hlook : ∀ loc, d.find p = .ok (.found loc) → e.look? loc = d.look? loc) :
    e.read p = d.read p := by
  cases hplace : d.find p with
  | error => rw [read, read, hfind, hplace]
  | ok place =>
    cases place with
    | missing => rw [read, read, hfind, hplace]
    | found loc => rw [read_found (hfind.trans hplace), read_found hplace, hlook loc hplace]

theorem found_of_walk_file (h : d.walk .file maxLinks (d.start p) p.route = .ok (.found loc)) :
    d.Found p ∧ d.walk .node maxLinks (d.start p) p.route = .ok (.found loc) := by
  have hnode : d.walk .node maxLinks (d.start p) p.route = .ok (.found loc) := by
    rcases walk_file d maxLinks (d.start p) p.route with hdir | hsame
    · rw [hdir] at h
      cases h
    · rwa [hsame] at h
  obtain ⟨n, hleads⟩ := leads_iff.1 hnode
  rw [Path.route, leads_append] at hleads
  obtain ⟨k, mid, hmid, -⟩ := hleads
  exact ⟨⟨k, mid, hmid⟩, hnode⟩

/-- Writing to a path makes a file, unless it leads to one. -/
theorem write_cases (h : d.write p bytes = .ok e) :
    (∃ dir name, d.look? dir = some .dir ∧ d.look? (dir ++ [name]) = none ∧
      e = d.put (dir ++ [name]) (.file bytes)) ∨ (d.Found p ∧ d.holds p = true) := by
  unfold write at h
  cases ht : d.target p with
  | error fault => rw [ht] at h; cases h
  | ok loc =>
    rw [ht] at h
    cases h
    unfold target at ht
    split at ht
    · cases ht
    · rename_i dir name hfind
      cases ht
      obtain ⟨hdir, hnone⟩ := walk_missing (walk_of_find hfind)
      exact .inl ⟨dir, name, hdir, hnone, rfl⟩
    · rename_i loc' hfind
      split at ht
      · rename_i old hold
        cases ht
        have hwalk := walk_of_find hfind
        rw [if_neg nofun] at hwalk
        obtain ⟨hfound, hnode⟩ := found_of_walk_file hwalk
        refine .inr ⟨hfound, ?_⟩
        have hsound : p.fault? = none := by
          cases hf : p.fault? with
          | none => rfl
          | some fault => rw [find_of_fault hf] at hfind; cases hfind
        rw [holds, node?, find_of_sound hsound, if_neg nofun, hnode]
        simp [hold]
      · cases ht

/-- Once the directories above a path are there, writing to it changes nothing that
stood before, unless something was at the path. -/
theorem write_keeps (hp : d.Direct p) (hfree : d.holds p = false)
    (habove : d.ensureParent p = (e, .ok ())) {f : Disk} (h : e.write p bytes = .ok f) :
    d.Keeps f := by
  have hk : d.Keeps e := by
    have := ensureDirs_keeps d p.above
    rwa [show d.ensureDirs p.above = (e, .ok ()) from habove] at this
  obtain ⟨dir, name, hdir, hnone, rfl⟩ | ⟨hfound, hholds⟩ := write_cases h
  · exact hk.trans (keeps_put get?_file hdir hnone)
  · have hsame : e = d := by
      unfold ensureParent at habove
      obtain ⟨hnil, -⟩ | ⟨q, hq, hpq⟩ := p.above_eq
      · rw [hnil] at habove
        exact (Prod.mk.inj habove).1.symm
      · rw [hq] at habove
        refine (ensureDirs_above (hp.above hpq) habove).resolve_right ?_
        rintro ⟨hnew, hfresh⟩
        exact not_found_of_fresh hp hpq hnew hfresh hfound
    rw [hsame, hfree] at hholds
    cases hholds

end Disk
end Gloss
