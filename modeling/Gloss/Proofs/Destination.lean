import Gloss.Proofs.Collected
import Gloss.Proofs.Descent
/-!
# Destinations

Where no way is broken, a path either leads to something settled, or it descends from a
directory to a place that is vacant (`settled_or_vacant`). Where the one leads to no node,
writing to it fails, always for the same reason (`Fixed.write`). On the way to the other
the same directories come to be there (`ensureParent_descends`) and then the same file
(`write_descends`), whatever directories others have made on the way.
-/

namespace Gloss.Disk

variable {d e : Disk} {p q : Path} {dir loc : Location} {names rest : List String}
  {name : String} {n : Nat} {ms : List Move} {fault : Fault}

/-- No link on the way to the path leads to what is not there, but may yet be made. -/
def Unbroken (d : Disk) (p : Path) : Prop :=
  ∀ front name back n dir target, p.moves = front ++ .down name :: back →
    d.Leads maxLinks (d.start p) front n dir → d.look? (dir ++ [name]) = some (.link target) →
    Settled (d.walk .node maxLinks (d.start p) (front ++ [.down name]))

/-- Nothing is at the location yet, nor at the first of the names by which the path
descends to it. -/
def Vacant (d : Disk) (p : Path) (loc : Location) : Prop :=
  ∃ dir name rest, loc = dir ++ name :: rest ∧ d.Descends p dir (name :: rest) ∧
    d.look? dir = some .dir ∧ short name = true ∧ d.look? (dir ++ [name]) = none

/-- A single move is left open only where it goes down to what is free, or to a link. -/
theorem exists_down {x : Entry} (hx : d.look? loc = some x)
    (h : ¬ Settled (d.walk .node n loc [m])) :
    ∃ name, m = .down name ∧ d.look? loc = some .dir ∧ short name = true ∧
      ∀ y, d.look? (loc ++ [name]) = some y → ∃ target, y = .link target := by
  by_cases hdir : x = .dir
  · subst hdir
    cases m with
    | stay | slash =>
      rw [walk_idle hx (by simp), walk_nil] at h
      exact absurd settled_found h
    | up =>
      rw [walk_up hx, walk_nil] at h
      exact absurd settled_found h
    | down name =>
      rw [walk_down hx, if_neg (by simp)] at h
      split at h
      · exact (h (settled_error_iff.2 nofun)).elim
      rename_i hsize
      refine ⟨name, rfl, hx, decide_eq_true (Nat.not_lt.1 hsize), fun y hy => ?_⟩
      cases y with
      | link target => exact ⟨target, rfl⟩
      | _ =>
        rw [hy] at h
        simp at h
  · rw [walk_not_dir hx hdir] at h
    exact (h (settled_error_iff.2 nofun)).elim

/-- A way that is left open comes to a directory where the next name is free. -/
theorem exists_gap {start : Location} (hroot : d.look? [] = some .dir)
    (hstart : d.look? start = some .dir)
    (hlinks : ∀ front name back k dir target, ms = front ++ .down name :: back →
      d.Leads n start front k dir → d.look? (dir ++ [name]) = some (.link target) →
      Settled (d.walk .node n start (front ++ [.down name])))
    (h : ¬ Settled (d.walk .node n start ms)) :
    ∃ front name back k dir, ms = front ++ .down name :: back ∧ d.Leads n start front k dir ∧
      d.look? dir = some .dir ∧ short name = true ∧ d.look? (dir ++ [name]) = none := by
  induction ms using List.reverseRecOn with
  | nil =>
    rw [walk_nil] at h
    exact absurd settled_found h
  | append_singleton ms m ih =>
    by_cases hms : Settled (d.walk .node n start ms)
    · -- the way goes on to the last move, so this is where it stops
      cases hwalk : d.walk .node n start ms with
      | error fault =>
        rw [hwalk] at hms
        rw [((walks_iff.1 hwalk).append_error).eq] at h
        exact absurd hms h
      | ok place =>
        cases place with
        | missing =>
          rw [hwalk] at hms
          exact absurd hms not_settled_missing
        | found mid =>
          obtain ⟨k, hleads⟩ := leads_iff.1 hwalk
          obtain ⟨x, hx⟩ := hleads.look? hroot hstart
          have hlast := h
          rw [hleads.walk_append (.inl rfl)] at hlast
          obtain ⟨name, rfl, hdir, hshort, hlink⟩ := exists_down hx hlast
          cases hy : d.look? (mid ++ [name]) with
          | none => exact ⟨ms, name, [], k, mid, rfl, hleads, hdir, hshort, hy⟩
          | some y =>
            obtain ⟨target, rfl⟩ := hlink y hy
            exact absurd (hlinks ms name [] k mid target rfl hleads hy) h
    · obtain ⟨front, name, back, k, dir, rfl, hgap⟩ := ih
        (fun front name back k dir target hsplit =>
          hlinks front name (back ++ [m]) k dir target (by rw [hsplit]; simp)) hms
      exact ⟨front, name, back ++ [m], k, dir, by simp, hgap⟩

/-- A path that is not settled descends to a vacant place. -/
theorem settled_or_vacant (hd : d.Tidy) (hp : d.Direct p) (hlinks : d.Unbroken p) :
    Settled (d.walk .node maxLinks (d.start p) p.moves) ∨ ∃ loc, d.Vacant p loc := by
  by_cases h : Settled (d.walk .node maxLinks (d.start p) p.moves)
  · exact .inl h
  obtain ⟨front, name, back, k, dir, hmoves, hfront, hdir, hshort, hnone⟩ :=
    exists_gap hd.root (hd.start p) hlinks h
  have hup : .up ∉ back := by
    intro hmem
    obtain ⟨before, after, rfl⟩ := List.append_of_mem hmem
    obtain ⟨loc, hloc⟩ := hp (front ++ .down name :: before) after (by rw [hmoves]; simp)
    obtain ⟨_, hleads⟩ := leads_iff.1 hloc
    obtain ⟨_, mid, hmid, hrest⟩ := leads_append.1 hleads
    obtain ⟨rfl, rfl⟩ := hfront.unique hmid
    cases hrest with
    | idle _ hm => simp at hm
    | down _ _ hx => rw [hnone] at hx; cases hx
    | link _ _ hx => rw [hnone] at hx; cases hx
  have hslash : .slash ∉ back := fun hmem => p.slash_notMem_moves (by rw [hmoves]; simp [hmem])
  obtain ⟨rest, hback⟩ := Down.exists_of_moves hup hslash
  exact .inr ⟨_, dir, name, rest, rfl, ⟨front, _, k, hmoves, hfront, .down hback⟩, hdir, hshort,
    hnone⟩

/-! ## Settled paths -/

/-- A plain path that leads to something settled. -/
structure Fixed (d : Disk) (p : Path) : Prop where
  plain : p.Plain
  settled : Settled (d.walk .node maxLinks (d.start p) p.moves)

theorem Fixed.firm (h : d.Fixed p) (goal : Goal) : Settled (d.find p goal) := by
  cases hf : p.fault? with
  | none =>
    rw [find_of_walk hf h.plain]
    exact settled_of_node goal h.settled
  | some fault =>
    rw [find_of_fault hf]
    exact settled_error_iff.2 (fault?_ne_notFound h.plain.text hf)

theorem Fixed.find (h : d.Fixed p) (hk : d.Keeps e) (goal : Goal) :
    e.find p goal = d.find p goal := by
  have hfirm := h.firm goal
  cases hf : p.fault? with
  | none =>
    rw [find_of_walk hf h.plain] at hfirm ⊢
    rw [find_of_walk hf h.plain, hk.start, walk_keeps hk hfirm]
  | some fault => rw [find_of_fault hf, find_of_fault hf]

theorem Fixed.above (h : d.Fixed p) (hq : p.Above q) : d.Fixed q := by
  obtain ⟨idle, m, idle', hmoves, -⟩ := hq.moves
  refine ⟨hq.plain, ?_⟩
  rw [start_above d hq]
  have hsettled := h.settled
  rw [hmoves, List.append_assoc] at hsettled
  exact settled_of_append hsettled

theorem Fixed.holds (hd : d.Tidy) (h : d.Fixed p) (hk : d.Keeps e) :
    e.holds p = true ↔ ∃ loc, d.find p = .ok (.found loc) := by
  unfold Disk.holds node?
  rw [h.find hk]
  cases hfind : d.find p with
  | error => simp
  | ok place =>
    cases place with
    | missing => simp
    | found loc =>
      obtain ⟨x, y, -, hy, -⟩ := hd.nodes_of_find hk hfind
      simp [hy]

theorem Fixed.isDir (hd : d.Tidy) (h : d.Fixed p) (hk : d.Keeps e) : e.isDir p = d.isDir p := by
  unfold Disk.isDir node?
  rw [h.find hk]
  cases hfind : d.find p with
  | error => rfl
  | ok place =>
    cases place with
    | missing => rfl
    | found loc =>
      obtain ⟨x, y, hx, hy, hsame⟩ := hd.nodes_of_find hk hfind
      simp only [hx, hy]
      cases x <;> cases y <;> cases hsame <;> rfl

/-- What a settled path leads to is not made, for it is there or cannot be. -/
theorem Fixed.makeDir (h : d.Fixed q) :
    ∃ fault, fault ≠ .notFound ∧ ∀ e, d.Keeps e → e.makeDir q = .error fault := by
  have hfirm := h.firm .entry
  cases hfind : d.find q .entry with
  | error fault =>
    rw [hfind, settled_error_iff] at hfirm
    exact ⟨fault, hfirm, fun e hk => by rw [Disk.makeDir, h.find hk, hfind]⟩
  | ok place =>
    cases place with
    | found loc => exact ⟨.exists, by decide, fun e hk => by rw [Disk.makeDir, h.find hk, hfind]⟩
    | missing =>
      rw [hfind] at hfirm
      exact absurd hfirm not_settled_missing

/-- Nothing is made above a settled path. -/
theorem Fixed.ensureParent (hd : d.Tidy) (h : d.Fixed p) :
    ∃ res, ∀ e, d.Keeps e → e.ensureParent p = (e, res) := by
  obtain ⟨hnil, -⟩ | ⟨q, hq, hpq⟩ := p.above_eq
  · exact ⟨.ok (), fun e _ => by rw [Disk.ensureParent, hnil, ensureDirs]⟩
  have hset := h.above hpq
  obtain ⟨fault, hfault, hmake⟩ := hset.makeDir
  refine ⟨if d.isDir q then .ok () else .error fault, fun e hk => ?_⟩
  have hne : e.makeDir q ≠ .error .notFound := by
    rw [hmake e hk]
    exact fun heq => hfault (Except.error.inj heq)
  rw [Disk.ensureParent, hq, ensureDirs_of_ne hne, ensureDir, hmake e hk, hset.isDir hd hk]

theorem Fixed.write (h : d.Fixed p) (hnone : ∀ loc, d.find p ≠ .ok (.found loc)) :
    ∃ fault, ∀ e, d.Keeps e → ∀ bytes, e.write p bytes = .error fault := by
  have hfirm := h.firm .file
  cases hfind : d.find p .file with
  | error fault =>
    refine ⟨fault, fun e hk bytes => ?_⟩
    rw [Disk.write, target, h.find hk, hfind]
    rfl
  | ok place =>
    cases place with
    | missing =>
      rw [hfind] at hfirm
      exact absurd hfirm not_settled_missing
    | found loc =>
      have hwalk := walk_of_find hfind
      rw [if_neg nofun] at hwalk
      have hnode := (found_of_walk_file hwalk).2
      cases hf : p.fault? with
      | none =>
        refine absurd ?_ (hnone loc)
        rw [find_of_sound hf, if_neg nofun, hnode]
      | some fault =>
        rw [find_of_fault hf] at hfind
        cases hfind

/-! ## Vacant places -/

variable {init : List String} {last : String} {bytes : ByteArray}

/-- The second disk has more than the first, but on the way to the vacant place of the
path no more than directories. -/
structure Ready (d e : Disk) (p : Path) : Prop where
  keeps : d.Keeps e
  clear : ∀ loc, d.Vacant p loc → ∀ l, l <+: loc →
    e.look? l = d.look? l ∨ (l ≠ loc ∧ e.look? l = some .dir)

theorem Ready.refl (d : Disk) (p : Path) : d.Ready d p := ⟨.refl d, fun _ _ _ _ => .inl rfl⟩

theorem clear_of_none (hdir : d.look? dir = some .dir) (hnone : d.look? (dir ++ [name]) = none) :
    d.Clear dir (name :: rest) := by
  rintro l hl
  cases l with
  | nil => exact .inr (by rwa [List.append_nil])
  | cons x l =>
    obtain ⟨rfl, -⟩ := List.cons_prefix_cons.1 hl
    rw [List.append_cons]
    exact .inl (look?_below_none hnone l)

/-- A vacant place, by the directory the path leads to and the names it descends by:
what is said here of the disk is so of all that are ready. -/
theorem Vacant.exists_init (h : d.Vacant p loc) : ∃ dir init last, loc = dir ++ (init ++ [last]) ∧
    d.Descends p dir (init ++ [last]) ∧ d.look? dir = some .dir ∧
    ∀ e, d.Ready e p → e.Clear dir (init ++ [last]) ∧ e.look? loc = none := by
  have hv := h
  obtain ⟨dir, name, rest, rfl, hdown, hdir, hshort, hnone⟩ := h
  obtain ⟨init, last, hnames⟩ := (List.eq_nil_or_concat (name :: rest)).resolve_left nofun
  rw [List.concat_eq_append] at hnames
  refine ⟨dir, init, last, by rw [hnames], hnames ▸ hdown, hdir,
    fun e hready => ⟨fun l hl => ?_, ?_⟩⟩
  · rw [← hnames] at hl
    rcases hready.clear _ hv _ ((List.prefix_append_right_inj dir).2 hl) with hsame | ⟨-, hmade⟩
    · rw [hsame]
      exact clear_of_none hdir hnone l hl
    · exact .inr hmade
  · rcases hready.clear _ hv _ (List.prefix_refl _) with hsame | ⟨hne, -⟩
    · rw [hsame, List.append_cons]
      exact look?_below_none hnone rest
    · exact absurd rfl hne

/-- Nothing is at the end of a way down that is clear. -/
theorem holds_descends (hp : p.Plain) (h : d.Descends p dir names) (hdir : d.look? dir = some .dir)
    (hclear : d.Clear dir names) (hnone : d.look? (dir ++ names) = none) : d.holds p = false := by
  have hfind : ∀ loc, d.find p ≠ .ok (.found loc) := by
    intro loc
    cases hf : p.fault? with
    | some fault => rw [find_of_fault hf]; nofun
    | none =>
      rcases all_or_first hdir hclear with ⟨-, hthere⟩ | ⟨front, x, back, rfl, hfront, hto, hgap⟩
      · rw [hnone] at hthere
        cases hthere
      have hfirst := h.advance (List.all_eq_true.1 hfront) hto
      by_cases hx : short x = true
      · have hfree : d.look? (dir ++ front ++ [x]) = none := by
          rw [List.append_assoc]
          exact hgap hx
        by_cases hback : back = []
        · subst hback
          rw [hfirst.find_free hf hp hto hx hfree]
          nofun
        · rw [hfirst.find_gone hf hp hto hx hfree hback]
          nofun
      · rw [hfirst.find_long hf hp hto (by simpa using hx)]
        nofun
  unfold holds node?
  split
  · exact absurd ‹_› (hfind _)
  · rfl

/-- The directories above a path that descends are made alike on all disks with clear
ways. -/
theorem ensureParent_descends (h : d.Descends p dir (init ++ [last]))
    (hdir : d.look? dir = some .dir) :
    ∃ res reach, reach <+: init ∧ (res = .ok () → reach = init ∧ init.all short = true) ∧
      ∀ e, d.Keeps e → e.Clear dir init →
        ∃ f, e.ensureParent p = (f, res) ∧ e.Adds (upTo (dir ++ reach)) f := by
  have hself : ∀ e, d.Keeps e → e.Adds (upTo (dir ++ [])) e := fun e hk =>
    adds_upTo_self (by simpa using hk.entries _ _ hdir)
  obtain ⟨hnil, hcount⟩ | ⟨q, hq, hpq⟩ := p.above_eq
  · have hlength := h.length_le
    have hinit : init = [] := by
      rw [List.length_append, List.length_singleton] at hlength
      exact List.length_eq_zero_iff.1 (by omega)
    subst hinit
    refine ⟨.ok (), [], List.prefix_refl _, fun _ => ⟨rfl, rfl⟩, fun e hk _ => ⟨e, ?_, hself e hk⟩⟩
    rw [ensureParent, hnil, ensureDirs]
  cases hf : q.fault? with
  | some fault =>
    refine ⟨.error fault, [], List.nil_prefix, fun hok => ?_, fun e hk _ => ⟨e, ?_, hself e hk⟩⟩
    · cases hok
    have hne : e.makeDir q ≠ .error .notFound := by
      rw [makeDir_of_error (find_of_fault hf)]
      exact fun heq => fault?_ne_notFound hpq.plain.text hf (Except.error.inj heq)
    rw [ensureParent, hq, ensureDirs_of_ne hne]
    exact ensureDir_of_error (find_of_fault hf) (find_of_fault hf)
  | none =>
    refine ⟨outcome init, init.takeWhile short, List.takeWhile_prefix _, fun hok => ?_,
      fun e hk hclear => ?_⟩
    · have hall : init.all short = true := by
        unfold outcome at hok
        split at hok
        · assumption
        · cases hok
      exact ⟨takeWhile_of_all hall, hall⟩
    · obtain ⟨f, hmade, hadds⟩ := ensureDirs_descends hf hpq.plain ((h.keeps hk).above hpq)
        (hk.entries _ _ hdir) hclear
      exact ⟨f, by rw [ensureParent, hq, hmade], hadds⟩

/-- The directories made for a destination are above it. -/
theorem above_of_upTo {reach l : Location} {x : Entry} (hreach : reach <+: init)
    (hx : upTo (dir ++ reach) l = some x) :
    x = .dir ∧ l <+: dir ++ (init ++ [last]) ∧ l ≠ dir ++ (init ++ [last]) := by
  unfold upTo at hx
  split at hx
  · rename_i hl
    cases hx
    have hinit : l <+: dir ++ init := hl.trans ((List.prefix_append_right_inj dir).2 hreach)
    rw [← List.append_assoc]
    refine ⟨rfl, hinit.trans (List.prefix_append ..), ?_⟩
    rintro rfl
    exact absurd hinit.length_le (by simp)
  · cases hx

/-- Once the directories above are made, the way down ends at a free name in the last of
them. -/
theorem descends_last {f : Disk} (h : e.Descends p dir (init ++ [last]))
    (hshort : init.all short = true) (hclear : e.Clear dir (init ++ [last]))
    (hnone : e.look? (dir ++ (init ++ [last])) = none) (hadds : e.Adds (upTo (dir ++ init)) f) :
    f.Descends p (dir ++ init) [last] ∧ f.look? (dir ++ init) = some .dir ∧
      f.look? (dir ++ init ++ [last]) = none := by
  have hthere := hadds.look?_upTo (hclear init (List.prefix_append ..))
  refine ⟨(h.keeps hadds.keeps).advance (List.all_eq_true.1 hshort) hthere, hthere, ?_⟩
  rw [List.append_assoc, hadds.entries, hnone, Option.none_or]
  cases hu : upTo (dir ++ init) (dir ++ (init ++ [last])) with
  | none => rfl
  | some x => exact absurd rfl (above_of_upTo (List.prefix_refl init) hu).2.2

/-- Writing to a free name in a directory that is there. -/
theorem write_descends (hp : p.Plain) (bytes : ByteArray) (last : String) :
    (∃ fault, ∀ (d : Disk) (dir : Location), d.Descends p dir [last] → d.look? dir = some .dir →
      d.look? (dir ++ [last]) = none → d.write p bytes = .error fault) ∨
    ∀ (d : Disk) (dir : Location), d.Descends p dir [last] → d.look? dir = some .dir →
      d.look? (dir ++ [last]) = none →
        d.write p bytes = .ok (d.put (dir ++ [last]) (.file bytes)) := by
  cases hf : p.fault? with
  | some fault =>
    refine .inl ⟨fault, fun d dir _ _ _ => ?_⟩
    rw [Disk.write, target, find_of_fault hf]
    rfl
  | none =>
    by_cases hlast : short last = true
    · refine .inr fun d dir h hdir hnone => ?_
      rw [Disk.write, target, h.find_free hf hp hdir hlast hnone]
      rfl
    · refine .inl ⟨.nameTooLong, fun d dir h hdir _ => ?_⟩
      rw [Disk.write, target, h.find_long hf hp hdir (by simpa using hlast)]
      rfl

end Gloss.Disk
