import Gloss.Proofs.Access
import Mathlib.Data.List.Induction
/-!
# Ways down

A path descends from a directory if it leads there and then down by names. What is
made along such a path depends on the names alone: the directories above it, as far
as no name is too long (`ensureDirs_descends`). Which of them are there already, and
so who makes which, does not show.
-/

namespace Gloss

/-- The moves go down by the names, and nowhere else. -/
inductive Down : List Move → List String → Prop
  | nil : Down [] []
  | stay {ms : List Move} {names : List String} : Down ms names → Down (.stay :: ms) names
  | down {ms : List Move} {names : List String} {name : String} :
      Down ms names → Down (.down name :: ms) (name :: names)

namespace Down

variable {ms : List Move} {names rest : List String} {name : String}

theorem exists_split (h : Down ms (names ++ rest)) :
    ∃ front back, ms = front ++ back ∧ Down front names ∧ Down back rest := by
  generalize hall : names ++ rest = all at h
  induction h generalizing names with
  | nil =>
    obtain ⟨rfl, rfl⟩ := List.append_eq_nil_iff.1 hall
    exact ⟨[], [], rfl, .nil, .nil⟩
  | stay _ ih =>
    obtain ⟨front, back, rfl, hfront, hback⟩ := ih hall
    exact ⟨.stay :: front, back, rfl, .stay hfront, hback⟩
  | down h ih =>
    rcases List.append_eq_cons_iff.1 hall with ⟨rfl, rfl⟩ | ⟨names, rfl, rfl⟩
    · exact ⟨[], _, rfl, .nil, .down h⟩
    · obtain ⟨front, back, rfl, hfront, hback⟩ := ih rfl
      exact ⟨.down _ :: front, back, rfl, .down hfront, hback⟩

theorem stay_of_nil (h : Down ms []) : ∀ m ∈ ms, m = .stay := by
  generalize hnil : [] = names at h
  induction h with
  | nil => exact nofun
  | stay _ ih => simpa using ih hnil
  | down => cases hnil

theorem exists_first (h : Down ms (name :: rest)) :
    ∃ idle back, ms = idle ++ .down name :: back ∧ (∀ m ∈ idle, m = .stay) ∧ Down back rest := by
  generalize hall : name :: rest = all at h
  induction h with
  | nil => cases hall
  | stay _ ih =>
    obtain ⟨idle, back, rfl, hidle, hback⟩ := ih hall
    exact ⟨.stay :: idle, back, rfl, by simpa using hidle, hback⟩
  | down h =>
    cases hall
    exact ⟨[], _, rfl, nofun, h⟩

/-- Moves that do not go up and ask for no directory go down. -/
theorem exists_of_moves (hup : .up ∉ ms) (hslash : .slash ∉ ms) : ∃ names, Down ms names := by
  induction ms with
  | nil => exact ⟨[], .nil⟩
  | cons m ms ih =>
    obtain ⟨names, h⟩ := ih (fun hm => hup (by simp [hm])) (fun hm => hslash (by simp [hm]))
    cases m with
    | stay => exact ⟨names, .stay h⟩
    | down name => exact ⟨name :: names, .down h⟩
    | up => simp at hup
    | slash => simp at hslash

theorem of_stay (h : ∀ m ∈ ms, m = .stay) : Down ms [] := by
  induction ms with
  | nil => exact .nil
  | cons m ms ih =>
    rw [List.forall_mem_cons] at h
    rw [h.1]
    exact .stay (ih h.2)

theorem append {back : List Move} (h : Down ms names) (hback : Down back rest) :
    Down (ms ++ back) (names ++ rest) := by
  induction h with
  | nil => exact hback
  | stay _ ih => exact .stay ih
  | down _ ih => exact .down ih

theorem nil_of_stay (h : Down ms names) (hms : ∀ m ∈ ms, m = .stay) : names = [] := by
  induction h with
  | nil => rfl
  | stay _ ih => exact ih (List.forall_mem_cons.1 hms).2
  | down => exact absurd (List.forall_mem_cons.1 hms).1 nofun

theorem of_append_stay {idle : List Move} (hidle : ∀ m ∈ idle, m = .stay)
    (h : Down (ms ++ idle) names) : Down ms names := by
  induction ms generalizing names with
  | nil =>
    rw [h.nil_of_stay hidle]
    exact .nil
  | cons m ms ih =>
    cases h with
    | stay h => exact .stay (ih h)
    | down h => exact .down (ih h)

/-- As many moves count as there are names. -/
theorem length_filter (h : Down ms names) : (ms.filter (· ≠ .stay)).length = names.length := by
  induction h with
  | nil => rfl
  | stay _ ih => simpa using ih
  | down _ ih => simpa using ih

end Down

/-- Moves fall apart at the last that counts in one way only. -/
theorem eq_of_append_stay {front front' idle idle' : List Move} {m m' : Move}
    (h : front ++ m :: idle = front' ++ m' :: idle') (hidle : ∀ x ∈ idle, x = .stay)
    (hidle' : ∀ x ∈ idle', x = .stay) (hm : m ≠ .stay) (hm' : m' ≠ .stay) : front = front' := by
  rcases List.append_eq_append_iff.1 h with ⟨more, rfl, hmore⟩ | ⟨more, rfl, hmore⟩
  · rcases more with _ | ⟨x, more⟩
    · exact (List.append_nil _).symm
    · exact absurd (hidle m' (by simp [(List.cons.inj hmore).2])) hm'
  · rcases more with _ | ⟨x, more⟩
    · exact List.append_nil _
    · exact absurd (hidle' m (by simp [(List.cons.inj hmore).2])) hm

namespace Disk

variable {d e f : Disk} {p q : Path} {dir loc loc' : Location} {names rest : List String}
  {name : String} {n : Nat} {ms : List Move} {goal : Goal} {new : Location → Option Entry}

/-- A name is not too long. -/
def short (name : String) : Bool := name.utf8ByteSize ≤ maxName

theorem Leads.of_down (h : Down ms names) (hshort : ∀ name ∈ names, short name = true)
    (hdir : d.look? (loc ++ names) = some .dir) : d.Leads n loc ms n (loc ++ names) := by
  induction h generalizing loc with
  | nil =>
    rw [List.append_nil]
    exact .here
  | @stay ms names _ ih =>
    have hloc : d.look? loc = some .dir := by
      cases names with
      | nil => rwa [List.append_nil] at hdir
      | cons => exact look?_dir_of_below hdir
    exact .idle hloc (.inl rfl) (ih hshort hdir)
  | @down ms names name _ ih =>
    have hloc := look?_dir_of_below hdir
    rw [List.append_cons] at hdir ⊢
    have hname : d.look? (loc ++ [name]) = some .dir := by
      cases names with
      | nil => rwa [List.append_nil] at hdir
      | cons => exact look?_dir_of_below hdir
    have hsize : short name = true := hshort name (by simp)
    exact .down hloc (of_decide_eq_true hsize) hname nofun
      (ih (fun x hx => hshort x (by simp [hx])) hdir)

/-! ## Paths that descend -/

/-- The path leads to the directory, and from there down by the names. -/
def Descends (d : Disk) (p : Path) (dir : Location) (names : List String) : Prop :=
  ∃ front back n, p.moves = front ++ back ∧ d.Leads maxLinks (d.start p) front n dir ∧
    Down back names

theorem Descends.keeps (hk : d.Keeps e) (h : d.Descends p dir names) : e.Descends p dir names := by
  obtain ⟨front, back, n, hmoves, hfront, hback⟩ := h
  refine ⟨front, back, n, hmoves, ?_, hback⟩
  rw [hk.start]
  exact hfront.keeps hk

/-- Where the names are directories already, the path descends from the last. -/
theorem Descends.advance (h : d.Descends p dir (names ++ rest))
    (hshort : ∀ name ∈ names, short name = true) (hdir : d.look? (dir ++ names) = some .dir) :
    d.Descends p (dir ++ names) rest := by
  obtain ⟨front, back, n, hmoves, hfront, hback⟩ := h
  obtain ⟨passed, back, rfl, hpassed, hback⟩ := hback.exists_split
  refine ⟨front ++ passed, back, n, by rw [hmoves, List.append_assoc], ?_, hback⟩
  exact leads_append.2 ⟨n, dir, hfront, .of_down hpassed hshort hdir⟩

theorem Descends.exists_first (h : d.Descends p dir (name :: rest))
    (hdir : d.look? dir = some .dir) :
    ∃ front back n, p.moves = front ++ .down name :: back ∧
      d.Leads maxLinks (d.start p) front n dir ∧ Down back rest := by
  obtain ⟨front, back, n, hmoves, hfront, hback⟩ := h
  obtain ⟨idle, back, rfl, hidle, hback⟩ := hback.exists_first
  refine ⟨front ++ idle, back, n, by rw [hmoves, List.append_assoc], ?_, hback⟩
  exact leads_append.2 ⟨n, dir, hfront, .of_stay hidle hdir⟩

/-- A path has as many moves that count as names it descends by. -/
theorem Descends.length_le (h : d.Descends p dir names) :
    names.length ≤ (p.moves.filter (· ≠ .stay)).length := by
  obtain ⟨front, back, n, hmoves, -, hback⟩ := h
  rw [hmoves, List.filter_append, List.length_append, hback.length_filter]
  exact Nat.le_add_left ..

/-- The path right above one that descends by several names descends by all but the
last. -/
theorem Descends.above (h : d.Descends p dir (names ++ [name])) (hq : p.Above q) :
    d.Descends q dir names := by
  obtain ⟨front, back, n, hmoves, hfront, hback⟩ := h
  obtain ⟨before, last, rfl, hbefore, hlast⟩ := hback.exists_split
  obtain ⟨wait, rest, rfl, hwait, hrest⟩ := hlast.exists_first
  obtain ⟨idle, m, idle', hq', hidle, hstay, -, hidle'⟩ := hq.moves
  have hcut : q.moves ++ idle = front ++ (before ++ wait) := by
    have hsame : q.moves ++ idle ++ m :: idle' =
        front ++ (before ++ wait) ++ .down name :: rest := by
      rw [← hq', hmoves]
      simp only [List.append_assoc]
    exact eq_of_append_stay hsame hidle' hrest.stay_of_nil hstay nofun
  have hdown : Down (before ++ wait) names := by
    have := hbefore.append (Down.of_stay hwait)
    rwa [List.append_nil] at this
  rw [← start_above d hq] at hfront
  rcases List.append_eq_append_iff.1 hcut with ⟨more, rfl, hmore⟩ | ⟨more, hmore, hsame⟩
  · -- the path above ends where the way down begins
    have hall : ∀ x ∈ more ++ (before ++ wait), x = .stay := hmore ▸ hidle
    obtain ⟨k, mid, hleads, hmid⟩ := leads_append.1 hfront
    obtain ⟨-, rfl⟩ := hmid.of_idle fun x hx => hall x (List.mem_append_left _ hx)
    rw [hdown.nil_of_stay fun x hx => hall x (List.mem_append_right _ hx)]
    exact ⟨q.moves, [], k, (List.append_nil _).symm, hleads, .nil⟩
  · exact ⟨front, more, n, hmore, hfront, .of_append_stay hidle (hsame ▸ hdown)⟩

/-! ## What is found on the way -/

section Find

variable (hfault : p.fault? = none) (hp : p.Plain)
include hfault hp

theorem find_of_walk (goal : Goal) : d.find p goal = d.walk goal maxLinks (d.start p) p.moves := by
  have hroute : p.route = p.moves := by
    rw [Path.route, hp.endsInSlash]
    exact List.append_nil _
  rw [find_of_sound hfault, hroute, ite_self]

theorem Descends.find_nil (h : d.Descends p dir []) (hdir : d.look? dir = some .dir) :
    d.find p = .ok (.found dir) ∧ ∃ loc, d.find p .entry = .ok (.found loc) := by
  obtain ⟨front, back, n, hmoves, hfront, hback⟩ := h
  have hnode : d.walk .node maxLinks (d.start p) p.moves = .ok (.found dir) := by
    rw [hmoves, leads_iff]
    exact ⟨n, leads_append.2 ⟨n, dir, hfront, .of_stay hback.stay_of_nil hdir⟩⟩
  rw [find_of_walk hfault hp, find_of_walk hfault hp, hnode]
  refine ⟨rfl, ?_⟩
  rcases walk_entry d maxLinks (d.start p) p.moves with hfound | hsame
  · exact hfound
  · exact ⟨dir, hsame.trans hnode⟩

theorem Descends.exists_walk (h : d.Descends p dir (name :: rest))
    (hdir : d.look? dir = some .dir) :
    ∃ back n, Down back rest ∧ (rest = [] → back = []) ∧
      ∀ goal, d.find p goal = d.walk goal n dir (.down name :: back) := by
  obtain ⟨front, back, n, hmoves, hfront, hback⟩ := h.exists_first hdir
  refine ⟨back, n, hback, ?_, fun goal => ?_⟩
  · rintro rfl
    rcases List.eq_nil_or_concat back with hnil | ⟨init, last, rfl⟩
    · exact hnil
    · rw [List.concat_eq_append] at hmoves hback
      rw [hback.stay_of_nil last (by simp)] at hmoves
      have hnil := hp.ends (front ++ .down name :: init) (by rw [hmoves]; simp)
      simp at hnil
  · rw [find_of_walk hfault hp, hmoves]
    exact hfront.walk_append (.inr ⟨by simp, fun _ => by simp⟩)

theorem Descends.find_long (h : d.Descends p dir (name :: rest)) (hdir : d.look? dir = some .dir)
    (hlong : short name = false) (goal : Goal) : d.find p goal = .error .nameTooLong := by
  obtain ⟨back, n, hback, -, hfind⟩ := h.exists_walk hfault hp hdir
  have hfile : ¬ (goal = .file ∧ back = [.slash]) := by
    rintro ⟨-, rfl⟩
    cases hback
  have hsize : maxName < name.utf8ByteSize := by simpa [short] using hlong
  rw [hfind, walk_down hdir, if_neg hfile, if_pos hsize]

theorem Descends.find_gone (h : d.Descends p dir (name :: rest)) (hdir : d.look? dir = some .dir)
    (hshort : short name = true) (hnone : d.look? (dir ++ [name]) = none) (hrest : rest ≠ [])
    (goal : Goal) : d.find p goal = .error .notFound := by
  obtain ⟨back, n, hback, -, hfind⟩ := h.exists_walk hfault hp hdir
  have hfile : ¬ (goal = .file ∧ back = [.slash]) := by
    rintro ⟨-, rfl⟩
    cases hback
  have hne : back ≠ [] := by
    rintro rfl
    cases hback
    exact hrest rfl
  have hsize : ¬ maxName < name.utf8ByteSize := Nat.not_lt.2 (of_decide_eq_true hshort)
  rw [hfind, walk_down hdir, if_neg hfile, if_neg hsize, hnone]
  exact if_neg hne

theorem Descends.find_free (h : d.Descends p dir [name]) (hdir : d.look? dir = some .dir)
    (hshort : short name = true) (hnone : d.look? (dir ++ [name]) = none) (goal : Goal) :
    d.find p goal = .ok (.missing dir name) := by
  obtain ⟨back, n, -, hnil, hfind⟩ := h.exists_walk hfault hp hdir
  rw [hfind, hnil rfl]
  exact (Walks.missing hdir (of_decide_eq_true hshort) hnone).eq

end Find

/-! ## What is added -/

/-- The second disk has what the first has, and where that has nothing what is new. -/
structure Adds (d : Disk) (new : Location → Option Entry) (e : Disk) : Prop where
  here : e.here = d.here
  entries : ∀ loc, e.look? loc = (d.look? loc).or (new loc)

/-- All directories down to a location. -/
def upTo (loc : Location) : Location → Option Entry := fun other =>
  if other <+: loc then some .dir else none

theorem Adds.keeps (h : d.Adds new e) : d.Keeps e :=
  ⟨h.here, fun loc x hx => by rw [h.entries, hx]; rfl⟩

theorem Adds.trans {more : Location → Option Entry} (h : d.Adds new e) (h' : e.Adds more f) :
    d.Adds (fun loc => (new loc).or (more loc)) f :=
  ⟨h'.here.trans h.here, fun loc => by rw [h'.entries, h.entries, Option.or_assoc]⟩

theorem Adds.nothing (d : Disk) : d.Adds (fun _ => none) d := ⟨rfl, fun _ => (Option.or_none).symm⟩

theorem look?_of_isPrefix (h : d.look? loc = some .dir) (hp : loc' <+: loc) :
    d.look? loc' = some .dir := by
  obtain ⟨below, rfl⟩ := hp
  cases below with
  | nil => rwa [List.append_nil] at h
  | cons => exact look?_dir_of_below h

theorem adds_upTo_self (h : d.look? loc = some .dir) : d.Adds (upTo loc) d := by
  refine ⟨rfl, fun other => ?_⟩
  unfold upTo
  split
  · rw [look?_of_isPrefix h ‹_›]
    rfl
  · exact Option.or_none.symm

theorem adds_put {new : Node} (hnew : ∀ x xs, new.get? (x :: xs) = none)
    (hdir : d.look? dir = some .dir) (hnone : d.look? (dir ++ [name]) = none) :
    d.Adds (fun loc => if loc = dir ++ [name] then some new.entry else none)
      (d.put (dir ++ [name]) new) := by
  refine ⟨rfl, fun loc => ?_⟩
  rw [look?_put hnew hdir hnone]
  split
  · subst loc
    rw [hnone]
    rfl
  · exact Option.or_none.symm

theorem adds_makeDir (hdir : d.look? dir = some .dir) (hnone : d.look? (dir ++ [name]) = none) :
    d.Adds (upTo (dir ++ [name])) (d.put (dir ++ [name]) .empty) := by
  refine ⟨rfl, fun loc => ?_⟩
  rw [(adds_put get?_empty hdir hnone).entries, upTo]
  by_cases hloc : loc <+: dir ++ [name]
  · rw [if_pos hloc]
    rcases List.prefix_concat_iff.1 hloc with rfl | hprefix
    · rw [if_pos rfl]
      rfl
    · rw [look?_of_isPrefix hdir hprefix]
      rfl
  · rw [if_neg hloc, if_neg]
    rintro rfl
    exact hloc (List.prefix_refl _)

theorem Adds.trans_upTo (h : d.Adds (upTo loc) e) (h' : e.Adds (upTo loc') f) (hp : loc <+: loc') :
    d.Adds (upTo loc') f := by
  refine ⟨h'.here.trans h.here, fun other => ?_⟩
  rw [h'.entries, h.entries, Option.or_assoc]
  congr 1
  unfold upTo
  by_cases hother : other <+: loc
  · rw [if_pos hother, if_pos (hother.trans hp)]
    rfl
  · rw [if_neg hother]
    rfl

/-! ## What is made -/

/-- Directories by these names can be made, and this is what becomes of it. -/
def outcome (names : List String) : Except Fault Unit :=
  if names.all short then .ok () else .error .nameTooLong

/-- Along the names there is nothing yet, or directories only. -/
def Clear (d : Disk) (dir : Location) (names : List String) : Prop :=
  ∀ l, l <+: names → d.look? (dir ++ l) = none ∨ d.look? (dir ++ l) = some .dir

theorem Clear.advance (h : d.Clear dir (names ++ rest)) : d.Clear (dir ++ names) rest := by
  intro l hl
  rw [List.append_assoc]
  exact h _ ((List.prefix_append_right_inj names).2 hl)

theorem Clear.adds (h : d.Clear dir names) (hadds : d.Adds (upTo loc) e) : e.Clear dir names := by
  intro l hl
  rw [hadds.entries, upTo]
  rcases h l hl with hnone | hdir
  · rw [hnone, Option.none_or]
    split
    · exact .inr rfl
    · exact .inl rfl
  · rw [hdir]
    exact .inr rfl

theorem Adds.look?_upTo (h : d.Adds (upTo loc) e)
    (hloc : d.look? loc = none ∨ d.look? loc = some .dir) : e.look? loc = some .dir := by
  rw [h.entries, upTo, if_pos (List.prefix_refl _)]
  rcases hloc with hnone | hdir
  · rw [hnone]
    rfl
  · rw [hdir]
    rfl

theorem isDir_of_find (h : d.find p = .ok (.found loc)) (hloc : d.look? loc = some .dir) :
    d.isDir p = true := by
  obtain ⟨es, hes⟩ := look?_eq_dir_iff.1 hloc
  rw [isDir, node?, h]
  simp [hes, Node.isDir]

theorem isDir_of_error {fault : Fault} (h : d.find p = .error fault) : d.isDir p = false := by
  rw [isDir, node?, h]
  rfl

theorem makeDir_of_error {fault : Fault} (h : d.find p .entry = .error fault) :
    d.makeDir p = .error fault := by
  rw [makeDir, h]

theorem ensureDirs_of_ne {ps : List Path} (h : d.makeDir p ≠ .error .notFound) :
    d.ensureDirs (p :: ps) = d.ensureDir p := by
  unfold ensureDirs
  split
  · exact absurd ‹_› h
  · rfl

theorem ensureDir_of_error {fault fault' : Fault} (h : d.find p .entry = .error fault)
    (h' : d.find p = .error fault') : d.ensureDir p = (d, .error fault) := by
  rw [ensureDir, makeDir_of_error h]
  simp [isDir_of_error h']

/-- Along names that are directories or free, something is in the way only if a name
is too long or missing: there is a first such. -/
theorem all_or_first (hdir : d.look? dir = some .dir) (hclear : d.Clear dir names) :
    (names.all short = true ∧ d.look? (dir ++ names) = some .dir) ∨
      ∃ front name back, names = front ++ name :: back ∧ front.all short = true ∧
        d.look? (dir ++ front) = some .dir ∧
        (short name = true → d.look? (dir ++ (front ++ [name])) = none) := by
  induction names using List.reverseRecOn with
  | nil => exact .inl ⟨rfl, by rwa [List.append_nil]⟩
  | append_singleton names name ih =>
    rcases ih fun l hl => hclear l (hl.trans (List.prefix_append ..)) with
      ⟨hshort, hnames⟩ | ⟨front, x, back, rfl, hfront⟩
    · by_cases hname : short name = true ∧ d.look? (dir ++ (names ++ [name])) = some .dir
      · exact .inl ⟨by simp [hshort, hname.1], hname.2⟩
      · refine .inr ⟨names, name, [], rfl, hshort, hnames, fun hx => ?_⟩
        exact (hclear _ (List.prefix_refl _)).resolve_right fun h => hname ⟨hx, h⟩
    · exact .inr ⟨front, x, back ++ [name], by simp, hfront⟩

/-- A directory in one that is there. -/
theorem ensureDir_descends (hfault : q.fault? = none) (hq : q.Plain) (h : d.Descends q dir [name])
    (hdir : d.look? dir = some .dir) (hclear : d.Clear dir [name]) :
    d.makeDir q ≠ .error .notFound ∧
      ∃ e, d.ensureDir q = (e, outcome [name]) ∧
        d.Adds (upTo (dir ++ [name].takeWhile short)) e := by
  by_cases hshort : short name = true
  · have htake : [name].takeWhile short = [name] := by simp [hshort]
    have hout : outcome [name] = .ok () := by simp [outcome, hshort]
    rw [htake, hout]
    rcases hclear [name] (List.prefix_refl _) with hnone | hmade
    · have hmake : d.makeDir q = .ok (d.put (dir ++ [name]) .empty) := by
        rw [makeDir, h.find_free hfault hq hdir hshort hnone]
      refine ⟨by rw [hmake]; nofun, _, ?_, adds_makeDir hdir hnone⟩
      rw [ensureDir, hmake]
    · have hone : d.Descends q dir ([name] ++ []) := h
      have hto := hone.advance (by simpa using hshort) hmade
      obtain ⟨hnode, loc, hentry⟩ := hto.find_nil hfault hq hmade
      have hmake : d.makeDir q = .error .exists := by rw [makeDir, hentry]
      refine ⟨by rw [hmake]; nofun, d, ?_, adds_upTo_self hmade⟩
      rw [ensureDir, hmake]
      simp [isDir_of_find hnode hmade]
  · have hlong : short name = false := by simpa using hshort
    have hfind := h.find_long hfault hq hdir hlong
    have hout : outcome [name] = .error .nameTooLong := by simp [outcome, hlong]
    have htake : [name].takeWhile short = [] := by simp [hlong]
    rw [htake, hout, List.append_nil]
    refine ⟨by rw [makeDir_of_error (hfind _)]; nofun, d, ?_, adds_upTo_self hdir⟩
    exact ensureDir_of_error (hfind _) (hfind _)

theorem fault?_above (h : p.fault? = none) (hq : p.Above q) : q.fault? = none := by
  obtain ⟨rest, hrest⟩ := hq.written
  have htext : p.text = q.text ++ String.ofList rest := by
    rw [← String.toList_inj, String.toList_append, String.toList_ofList, hrest]
  unfold Path.fault? at h ⊢
  split at h
  · cases h
  rename_i hend
  split at h
  · cases h
  split at h
  · cases h
  rename_i hfits
  have hend' : ¬ q.text.toList.contains '\x00' = true := by
    rw [← hrest] at hend
    simp_all
  have hfits' : q.fits = true := by
    simp only [Path.fits, htext, String.utf8ByteSize_append] at hfits ⊢
    simp at hfits ⊢
    omega
  rw [if_neg hend', if_neg hq.plain.text, hfits']
  rfl

theorem outcome_concat (names : List String) (name : String) :
    outcome (names ++ [name]) = if names.all short then outcome [name] else outcome names := by
  unfold outcome
  by_cases h : names.all short = true <;> simp [h]

theorem takeWhile_of_all (h : names.all short = true) : names.takeWhile short = names := by
  have hnil : (names ++ []).takeWhile short = names ++ [].takeWhile short :=
    List.takeWhile_append_of_pos (List.all_eq_true.1 h)
  simpa using hnil

theorem takeWhile_concat (names : List String) (name : String) : (names ++ [name]).takeWhile short =
    if names.all short then names ++ [name].takeWhile short else names.takeWhile short := by
  induction names with
  | nil => simp
  | cons x names ih =>
    by_cases hx : short x = true
    · rw [List.cons_append, List.takeWhile_cons_of_pos hx, List.takeWhile_cons_of_pos hx, ih,
        List.all_cons, hx, Bool.true_and]
      split <;> rfl
    · simp [hx]

theorem ensureDirs_of_made {ps : List Path} (h : d.makeDir p = .error .notFound)
    (hrest : d.ensureDirs ps = (e, .ok ())) : d.ensureDirs (p :: ps) = e.ensureDir p := by
  simp only [ensureDirs, h, hrest]

theorem ensureDirs_of_unmade {ps : List Path} {fault : Fault} (h : d.makeDir p = .error .notFound)
    (hrest : d.ensureDirs ps = (e, .error fault)) : d.ensureDirs (p :: ps) = (e, .error fault) := by
  simp only [ensureDirs, h, hrest]

/-- Once the directories above are made, the last is, if they all could be. -/
theorem ensureDirs_last {qs : List Path} (hfault : q.fault? = none) (hq : q.Plain)
    (h : d.Descends q dir (names ++ [name])) (hclear : d.Clear dir (names ++ [name]))
    (hmake : d.makeDir q = .error .notFound) (hmade : d.ensureDirs qs = (e, outcome names))
    (hadds : d.Adds (upTo (dir ++ names.takeWhile short)) e) :
    ∃ f, d.ensureDirs (q :: qs) = (f, outcome (names ++ [name])) ∧
      d.Adds (upTo (dir ++ (names ++ [name]).takeWhile short)) f := by
  rw [outcome_concat, takeWhile_concat]
  by_cases hshort : names.all short = true
  · have hout : outcome names = .ok () := by rw [outcome, if_pos hshort]
    rw [hout] at hmade
    rw [takeWhile_of_all hshort] at hadds
    have hnames := hadds.look?_upTo (hclear names (List.prefix_append ..))
    have hlast := (h.keeps hadds.keeps).advance (List.all_eq_true.1 hshort) hnames
    obtain ⟨-, f, hmade', hadds'⟩ :=
      ensureDir_descends hfault hq hlast hnames (hclear.adds hadds).advance
    rw [if_pos hshort, if_pos hshort]
    refine ⟨f, (ensureDirs_of_made hmake hmade).trans hmade', ?_⟩
    rw [← List.append_assoc]
    exact hadds.trans_upTo hadds' (List.prefix_append ..)
  · have hout : outcome names = .error .nameTooLong := by rw [outcome, if_neg hshort]
    rw [hout] at hmade
    rw [if_neg hshort, if_neg hshort, hout]
    exact ⟨e, ensureDirs_of_unmade hmake hmade, hadds⟩

theorem ensureDirs_long {qs : List Path} (hfault : q.fault? = none) (hq : q.Plain)
    (h : d.Descends q dir (name :: rest)) (hdir : d.look? dir = some .dir)
    (hlong : short name = false) : d.ensureDirs (q :: qs) = (d, .error .nameTooLong) := by
  have hfind := h.find_long hfault hq hdir hlong
  rw [ensureDirs_of_ne (by rw [makeDir_of_error (hfind _)]; nofun)]
  exact ensureDir_of_error (hfind _) (hfind _)

/-- The directories a path names are made as far as no name is too long. What it comes to
does not depend on which of them are there. -/
theorem ensureDirs_descends (hfault : q.fault? = none) (hq : q.Plain) (h : d.Descends q dir names)
    (hdir : d.look? dir = some .dir) (hclear : d.Clear dir names) :
    ∃ e, d.ensureDirs (q :: q.above) = (e, outcome names) ∧
      d.Adds (upTo (dir ++ names.takeWhile short)) e := by
  induction names using List.reverseRecOn generalizing q with
  | nil =>
    obtain ⟨hnode, loc, hentry⟩ := h.find_nil hfault hq hdir
    have hmake : d.makeDir q = .error .exists := by rw [makeDir, hentry]
    refine ⟨d, ?_, adds_upTo_self (by simpa using hdir)⟩
    rw [ensureDirs_of_ne (by rw [hmake]; nofun), ensureDir, hmake]
    simp [isDir_of_find hnode hdir, outcome]
  | append_singleton names name ih =>
    have hclear' : d.Clear dir names := fun l hl => hclear l (hl.trans (List.prefix_append ..))
    rcases all_or_first hdir hclear' with ⟨hshort, hnames⟩ |
      ⟨front, x, back, hsplit, hfront, hto, hgap⟩
    · have hlast := h.advance (List.all_eq_true.1 hshort) hnames
      obtain ⟨hne, e, hmade, hadds⟩ :=
        ensureDir_descends hfault hq hlast hnames hclear.advance
      refine ⟨e, ?_, ?_⟩
      · rw [ensureDirs_of_ne hne, hmade, outcome_concat, if_pos hshort]
      · rwa [takeWhile_concat, if_pos hshort, ← List.append_assoc]
    have hfirst : d.Descends q (dir ++ front) (x :: (back ++ [name])) := by
      refine Descends.advance ?_ (List.all_eq_true.1 hfront) hto
      rw [hsplit] at h
      simpa using h
    by_cases hx : short x = true
    · -- the way stops at a free name, so the directories above are made first
      have hnone : d.look? (dir ++ front ++ [x]) = none := by
        rw [List.append_assoc]
        exact hgap hx
      have hmake := makeDir_of_error (hfirst.find_gone hfault hq hto hx hnone (by simp) .entry)
      obtain ⟨-, hcount⟩ | ⟨q', hq', habove⟩ := q.above_eq
      · have hlength := hfirst.length_le
        rw [List.length_cons, List.length_append, List.length_singleton] at hlength
        omega
      obtain ⟨e, hmade, hadds⟩ := ih (fault?_above hfault habove) habove.plain (h.above habove)
        hclear'
      rw [hq']
      exact ensureDirs_last hfault hq h hclear hmake hmade hadds
    · -- a name that is too long is met first
      have hlong : short x = false := by simpa using hx
      have hshort : names.all short = false := by rw [hsplit]; simp [hlong]
      have hout : outcome (names ++ [name]) = .error .nameTooLong := by
        rw [outcome]
        simp [hshort]
      have htake : (names ++ [name]).takeWhile short = front := by
        rw [hsplit, List.append_assoc, List.takeWhile_append_of_pos (List.all_eq_true.1 hfront)]
        simp [hlong]
      rw [hout, htake]
      exact ⟨d, ensureDirs_long hfault hq hfirst hto hlong, adds_upTo_self hto⟩

end Disk
end Gloss
