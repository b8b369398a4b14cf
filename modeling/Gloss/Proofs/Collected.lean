import Gloss.Proofs.Plan
import Gloss.Proofs.Shape
/-!
# Collected files

The files of a run were found where their paths lead, without a link below an
input. So whatever else is made meanwhile, reading one gives the same
(`Command.strip_of_collected`).
-/

namespace Gloss

/-- In a directory each name stands once, and it is a proper one. -/
structure Disk.Tidy (d : Disk) : Prop where
  here : d.look? d.here = some .dir
  names : ∀ loc entries, d.root.get? loc = some (.dir entries) →
    (entries.map Prod.fst).Nodup ∧ ∀ e ∈ entries, Proper e.1

/-! ## The files below a directory -/

namespace Node

variable {keep : String → Bool} {entries : List (String × Node)} {names : Location}

theorem lookup_of_mem (hnodup : (entries.map Prod.fst).Nodup) {name : String} {n : Node}
    (h : (name, n) ∈ entries) : entries.lookup name = some n := by
  induction entries with
  | nil => cases h
  | cons e entries ih =>
    obtain ⟨key, other⟩ := e
    rw [List.map_cons, List.nodup_cons] at hnodup
    rw [lookup_cons]
    rcases List.mem_cons.1 h with heq | hrest
    · cases heq
      exact if_pos rfl
    · have hne : name ≠ key := by
        rintro rfl
        exact hnodup.1 (List.mem_map.2 ⟨_, hrest, rfl⟩)
      rw [if_neg hne, ih hnodup.2 hrest]

theorem mem_filesBelow (h : names ∈ (dir entries).filesBelow keep) :
    ∃ name n below, (name, n) ∈ entries ∧ names = name :: below ∧
      ((∃ bytes, n = .file bytes ∧ below = [] ∧ keep name = true) ∨
        ∃ inner, n = .dir inner ∧ below ∈ (dir inner).filesBelow keep) := by
  rw [filesBelow_eq] at h
  obtain ⟨⟨name, below⟩, hmem, hnames⟩ := List.mem_flatMap.1 h
  obtain ⟨rest, hrest, rfl⟩ := List.mem_map.1 hnames
  rw [List.mem_mergeSort] at hmem
  obtain ⟨⟨key, n⟩, he, heq⟩ := List.mem_map.1 hmem
  obtain ⟨rfl, rfl⟩ := Prod.mk.inj heq
  refine ⟨key, n, rest, he, rfl, ?_⟩
  cases n with
  | file bytes =>
    refine .inl ⟨bytes, rfl, ?_⟩
    dsimp only [found] at hrest
    split at hrest
    · exact ⟨List.mem_singleton.1 hrest, ‹_›⟩
    · cases hrest
  | link target => simp [found, filesBelow] at hrest
  | dir inner => exact .inr ⟨inner, rfl, hrest⟩

/-- In a directory of files there is nothing below these. -/
theorem get?_flat (hflat : ∀ e ∈ entries, ∃ bytes, e.2 = .file bytes) {loc : Location} {n : Node}
    (h : (dir entries).get? loc = some n) :
    (loc = [] ∧ n = dir entries) ∨ ∃ name, loc = [name] ∧ (name, n) ∈ entries := by
  rcases loc with _ | ⟨name, rest⟩
  · rw [get?_nil, Option.some.injEq] at h
    exact .inl ⟨rfl, h.symm⟩
  rw [get?_dir_cons] at h
  obtain ⟨inner, hinner, hrest⟩ := Option.bind_eq_some_iff.1 h
  obtain ⟨front, back, rfl, -⟩ := List.lookup_eq_some_iff.1 hinner
  obtain ⟨bytes, rfl⟩ := hflat (name, inner) (by simp)
  rcases rest with _ | ⟨next, rest⟩
  · rw [get?_nil, Option.some.injEq] at hrest
    exact .inr ⟨name, rfl, by simp [hrest]⟩
  · cases hrest

theorem filesBelow_dir (keep : String → Bool) (name : String) (inner : List (String × Node)) :
    (dir [(name, .dir inner)]).filesBelow keep =
      ((dir inner).filesBelow keep).map (name :: ·) := by
  rw [filesBelow_eq]
  simp [found]

theorem filesBelow_file (keep : String → Bool) (name : String) (bytes : ByteArray) :
    (dir [(name, .file bytes)]).filesBelow keep = if keep name then [[name]] else [] := by
  rw [filesBelow_eq]
  split <;> simp [found, *]

theorem dirsBelow_dir (name : String) (inner : List (String × Node)) :
    (dir [(name, .dir inner)]).dirsBelow =
      [name] :: (dir inner).dirsBelow.map (name :: ·) := by
  rw [dirsBelow_eq]
  simp [opened]

theorem dirsBelow_file (name : String) (bytes : ByteArray) :
    (dir [(name, .file bytes)]).dirsBelow = [] := by
  rw [dirsBelow_eq]
  simp [opened]

end Node

namespace Disk

variable {d e : Disk} {loc : Location} {names : Location} {keep : String → Bool}
  {entries : List (String × Node)} {p : Path} {n : Nat}

theorem tidy_flat (hflat : ∀ e ∈ entries, ∃ bytes, e.2 = .file bytes)
    (hnodup : (entries.map Prod.fst).Nodup) (hproper : ∀ name ∈ entries.map Prod.fst, Proper name) :
    Tidy ⟨.dir entries, []⟩ := by
  refine ⟨rfl, fun loc inner h => ?_⟩
  rcases Node.get?_flat hflat h with ⟨-, heq⟩ | ⟨name, -, hmem⟩
  · cases heq
    exact ⟨hnodup, fun e he => hproper e.1 (List.mem_map_of_mem he)⟩
  · obtain ⟨bytes, hfile⟩ := hflat _ hmem
    cases hfile

/-- What is found below a directory is a file there, under proper names. -/
theorem Tidy.filesBelow (hd : d.Tidy) (hloc : d.root.get? loc = some (.dir entries))
    (h : names ∈ (Node.dir entries).filesBelow keep) :
    (∃ bytes, d.look? (loc ++ names) = some (.file bytes)) ∧ names ≠ [] ∧
      ∀ name ∈ names, Proper name := by
  induction names generalizing loc entries with
  | nil =>
    obtain ⟨_, _, _, _, hnil, -⟩ := Node.mem_filesBelow h
    cases hnil
  | cons name names ih =>
    obtain ⟨key, n, below, hmem, heq, hn⟩ := Node.mem_filesBelow h
    obtain ⟨rfl, rfl⟩ := List.cons.inj heq
    obtain ⟨hnodup, hproper⟩ := hd.names loc entries hloc
    have hget : d.root.get? (loc ++ [name]) = some n := by
      rw [Node.get?_append, hloc]
      simp [Node.lookup_of_mem hnodup hmem]
    rw [List.append_cons]
    rcases hn with ⟨bytes, rfl, rfl, -⟩ | ⟨inner, rfl, hbelow⟩
    · refine ⟨⟨bytes, ?_⟩, List.cons_ne_nil _ _, by simpa using hproper _ hmem⟩
      rw [List.append_nil, look?, hget]
      rfl
    · obtain ⟨hfile, -, hall⟩ := ih hget hbelow
      exact ⟨hfile, List.cons_ne_nil _ _, by simpa using ⟨hproper _ hmem, hall⟩⟩

/-! ## Settled paths -/

/-- Names on the way to a file lead there, unless one is too long. -/
theorem settled_down {x : Entry} (hx : d.look? (loc ++ names) = some x) (hlink : ∀ t, x ≠ .link t) :
    Settled (d.walk .node n loc (names.map .down)) := by
  induction names generalizing loc with
  | nil =>
    rw [List.map_nil, walk_nil]
    exact settled_found
  | cons name names ih =>
    rw [List.map_cons, walk_down (look?_dir_of_below hx), if_neg (by simp)]
    rw [List.append_cons] at hx
    split
    · exact settled_error_iff.2 nofun
    · obtain ⟨y, hy, hdown⟩ : ∃ y, d.look? (loc ++ [name]) = some y ∧ ∀ t, y ≠ .link t := by
        rcases names with _ | ⟨next, names⟩
        · exact ⟨x, by simpa using hx, hlink⟩
        · exact ⟨.dir, look?_dir_of_below hx, nofun⟩
      rw [hy]
      cases y with
      | link t => exact absurd rfl (hdown t)
      | _ => exact ih hx

theorem fault?_ne_notFound (h : p.text ≠ "") {fault : Fault} (hfault : p.fault? = some fault) :
    fault ≠ .notFound := by
  rintro rfl
  unfold Path.fault? at hfault
  split at hfault
  · cases hfault
  split at hfault <;> cases hfault

/-- It is settled what the path leads to. -/
def Firm (d : Disk) (p : Path) : Prop := Settled (d.find p)

theorem firm_of_walk (htext : p.text ≠ "")
    (h : Settled (d.walk .node maxLinks (d.start p) p.route)) : d.Firm p := by
  unfold Firm
  cases hf : p.fault? with
  | none => rwa [find_of_sound hf]
  | some fault =>
    rw [find_of_fault hf]
    exact settled_error_iff.2 (fault?_ne_notFound htext hf)

theorem Firm.find (h : d.Firm p) (hk : d.Keeps e) : e.find p = d.find p := by
  unfold Firm at h
  cases hf : p.fault? with
  | none =>
    rw [find_of_sound hf] at h ⊢
    rw [find_of_sound hf, hk.start, walk_keeps hk h]
  | some fault => rw [find_of_fault hf, find_of_fault hf]

theorem Tidy.root (hd : d.Tidy) : d.look? [] = some .dir := by
  have hhere := hd.here
  cases h : d.here with
  | nil => rwa [h] at hhere
  | cons name rest =>
    rw [h] at hhere
    rw [← List.nil_append (name :: rest)] at hhere
    exact look?_dir_of_below hhere

theorem Tidy.start (hd : d.Tidy) (p : Path) : d.look? (d.start p) = some .dir := by
  unfold Disk.start
  split
  · exact hd.root
  · exact hd.here

/-- What is found is there, and still is when more is on the disk. -/
theorem Tidy.nodes_of_find (hd : d.Tidy) (hk : d.Keeps e) (h : d.find p = .ok (.found loc)) :
    ∃ x y, d.root.get? loc = some x ∧ e.root.get? loc = some y ∧ y.entry = x.entry := by
  obtain ⟨k, hleads⟩ := leads_iff.1 (walk_of_find h)
  obtain ⟨entry, hentry⟩ := hleads.look? hd.root (hd.start p)
  obtain ⟨x, hx, rfl⟩ := Option.map_eq_some_iff.1 hentry
  obtain ⟨y, hy, hsame⟩ := Option.map_eq_some_iff.1 (hk.entries loc _ hentry)
  exact ⟨x, y, hx, hy, hsame⟩

/-- The file at a settled path has the same bytes when more is on the disk. -/
theorem Firm.readSource (hd : d.Tidy) (h : d.Firm p) (hk : d.Keeps e) :
    Gloss.readSource e p = Gloss.readSource d p := by
  have hread : e.read p = d.read p := by
    apply read_congr (h.find hk)
    intro loc hfind
    obtain ⟨x, y, hx, hy, hsame⟩ := hd.nodes_of_find hk hfind
    rw [look?, look?, hx, hy, Option.map_some, Option.map_some, hsame]
  rw [Gloss.readSource, Gloss.readSource, readText, readText, hread]

end Disk

/-! ## Collected files -/

namespace Path

variable {p : Path} {names : List String}

theorem join_name {name : String} (h : Proper name) :
    (p.join name).moves = p.moves ++ [.down name] ∧
    (p.join name).endsInSlash = false ∧ (p.join name).isAbsolute = p.isAbsolute := by
  have hall : ∀ x ∈ [name], Proper x := by simpa using h
  have hmoves := moves_intercalate (List.cons_ne_nil name []) hall
  have hslash := endsInSlash_join p (List.cons_ne_nil name []) hall
  have habs := isAbsolute_join p (List.cons_ne_nil name []) hall
  rw [String.intercalate_singleton] at hmoves hslash habs
  exact ⟨by rw [moves_join, hmoves]; rfl, hslash, habs⟩

theorem text_join_ne {below : String} (h : below ≠ "") : (p.join below).text ≠ "" := by
  unfold join
  split <;> simp [h]

theorem moves_below (hproper : ∀ name ∈ names, Proper name) :
    (p.below names).moves = p.moves ++ names.map .down ∧
      (p.below names).isAbsolute = p.isAbsolute := by
  induction names generalizing p with
  | nil => exact ⟨(List.append_nil _).symm, rfl⟩
  | cons name names ih =>
    obtain ⟨hmoves, -, habs⟩ := join_name (p := p) (hproper name (by simp))
    obtain ⟨hrest, hrestabs⟩ := ih (p := p.join name) fun x hx => hproper x (by simp [hx])
    refine ⟨?_, hrestabs.trans habs⟩
    exact hrest.trans (by rw [hmoves, List.map_cons, List.append_assoc]; rfl)

theorem below_ends (hnames : names ≠ []) (hproper : ∀ name ∈ names, Proper name) :
    (p.below names).endsInSlash = false ∧ (p.below names).text ≠ "" := by
  obtain ⟨front, last, rfl⟩ := (List.eq_nil_or_concat names).resolve_left hnames
  rw [List.concat_eq_append] at hproper ⊢
  have hlast := hproper last (by simp)
  rw [below, List.foldl_append]
  exact ⟨(join_name hlast).2.1, text_join_ne hlast.not_empty⟩

theorem proper_of_fileName? {name : String} (h : p.fileName? = some name) : Proper name := by
  unfold fileName? at h
  split at h
  · rename_i s hlast
    cases h
    have hmem := List.mem_of_getLast? hlast
    rw [steps] at hmem
    rcases List.mem_append.1 hmem with hfront | hpart
    · split at hfront
      · simp at hfront
      · split at hfront <;> simp at hfront
    · obtain ⟨part, hmem, hstep⟩ := List.mem_filterMap.1 hpart
      unfold step? at hstep
      split at hstep
      · cases hstep
      · rename_i hblank
        rw [not_or] at hblank
        split at hstep
        · cases hstep
        · rename_i hdots
          cases hstep
          exact ⟨no_slash_of_mem_parts hmem, hblank.1, hblank.2, hdots⟩
  · cases h

end Path

/-- A file that was found leads to itself for good, and is put below its destination
under proper names. -/
structure Disk.Collected (d : Disk) (file : InputFile) : Prop where
  firm : d.Firm file.path
  relative : ∃ names, file.relative = ⟨"/".intercalate names⟩ ∧ names ≠ [] ∧
    ∀ name ∈ names, Proper name

namespace Disk

variable {d e : Disk} {g : Registry} {input : Path} {inputs : List Path} {file : InputFile}
  {files : List InputFile}

theorem firm_below {loc : Location} {names : List String} {bytes : ByteArray} (hnames : names ≠ [])
    (hproper : ∀ name ∈ names, Proper name) (hinput : d.find input = .ok (.found loc))
    (hfile : d.look? (loc ++ names) = some (.file bytes)) : d.Firm (input.below names) := by
  obtain ⟨hmoves, habs⟩ := Path.moves_below (p := input) hproper
  obtain ⟨hslash, htext⟩ := Path.below_ends (p := input) hnames hproper
  have hstart : d.start (input.below names) = d.start input := by
    rw [Disk.start, habs, Disk.start]
  refine firm_of_walk htext ?_
  obtain ⟨n, hleads⟩ := leads_iff.1 (walk_of_find hinput)
  rw [if_neg (by decide), Path.route, leads_append] at hleads
  obtain ⟨k, mid, hmid, hend⟩ := hleads
  have hmid' : mid = loc := by
    split at hend
    · cases hend with
      | idle _ _ hnil => cases hnil; rfl
    · cases hend; rfl
  rw [Path.route, hslash, hmoves, if_neg (by decide), List.append_nil, hstart,
    hmid.walk_append (.inl rfl), hmid']
  apply settled_down hfile
  intro target hlink
  cases hlink

theorem collected_of_filesOf (hd : d.Tidy) (h : filesOf d g input = .ok files)
    (hmem : file ∈ files) : d.Collected file := by
  unfold filesOf at h
  split at h
  · rename_i hnode
    split at h
    · rename_i name hname
      cases h
      cases List.mem_singleton.1 hmem
      refine ⟨?_, [name], ?_, nofun, by simpa using Path.proper_of_fileName? hname⟩
      · unfold node? at hnode
        split at hnode
        · rename_i hfind
          show Settled (d.find input)
          rw [hfind]
          exact settled_found
        · cases hnode
      · rw [String.intercalate_singleton]
    · cases h
  · rename_i entries hnode
    extract_lets tree at h
    split at h
    · cases h
      obtain ⟨names, hnames, rfl⟩ := List.mem_map.1 hmem
      unfold node? at hnode
      split at hnode
      · rename_i loc hfind
        obtain ⟨⟨bytes, hfile⟩, hne, hproper⟩ := hd.filesBelow hnode hnames
        exact ⟨firm_below hne hproper hfind hfile, names, rfl, hne, hproper⟩
      · cases hnode
    · cases h
  · cases h

theorem collected_of_collect (hd : d.Tidy) (h : collect d g inputs = .ok files)
    (hmem : file ∈ files) : d.Collected file := by
  obtain ⟨groups, hgroups, rfl⟩ := Command.exists_of_collect h
  obtain ⟨group, hgroup, hfile⟩ := List.mem_flatten.1 hmem
  obtain ⟨i, hi, rfl⟩ := List.getElem_of_mem hgroup
  have hfiles := hgroups.get (hgroups.length_eq ▸ hi) hi
  exact collected_of_filesOf hd hfiles hfile

end Disk

/-- What a file is without its comments does not depend on what else is made. -/
theorem Command.strip_of_collected {plan : StripPlan} {d e : Disk} {file : InputFile} (hd : d.Tidy)
    (h : d.Collected file) (hk : d.Keeps e) : plan.strip e file = plan.strip d file := by
  rw [StripPlan.strip, StripPlan.strip, openSource, openSource, h.firm.readSource hd hk]

end Gloss
