import Gloss.Proofs.Below
import Gloss.Proofs.Report
import Gloss.Proofs.Resolution
import Mathlib.Data.List.Nodup
/-!
# Directories as inputs

A directory stands for the files below it whose extension is claimed, each once and in
the order of the names on the way to it (`Disk.Listing`), if the system takes the paths of
all directories that are read (`Disk.Within`). If one is too long nothing is collected.

The path of a file is that of the input with the names behind it, so files with different
names have different destinations, and no run with one directory is refused because two
of its files had the same.
-/

namespace Gloss

/-! ## What a directory stands for -/

/-- The file that names lead to below an input. -/
def InputFile.below (input : Path) (names : Location) : InputFile :=
  ⟨input.join ("/".intercalate names), ⟨"/".intercalate names⟩⟩

/-- The last of the names says whether the extension is claimed. -/
theorem claims_below (g : Registry) (input : Path) {names : Location} (hnames : names ≠ [])
    (hproper : ∀ name ∈ names, Proper name) :
    g.claims (InputFile.below input names).path =
      names.getLast?.any fun name => g.claims ⟨name⟩ := by
  have hpath : (InputFile.below input names).path = input.below names :=
    (Path.below_eq_join hnames hproper).symm
  obtain ⟨front, last, rfl⟩ := (List.eq_nil_or_concat names).resolve_left hnames
  rw [List.concat_eq_append] at hproper hpath ⊢
  rw [hpath, List.getLast?_concat, Option.any_some, Registry.claims, Registry.claimant?, Path.below,
    List.foldl_append, List.foldl_cons, List.foldl_nil, Path.extension?_join (hproper last (by simp))]
  rfl

namespace Disk

variable {d : Disk} {g : Registry} {input : Path} {loc names : Location}
  {entries : List (String × Node)} {files : List InputFile}

/-- The system takes the path of every directory below the input. -/
def Within (d : Disk) (input : Path) (loc : Location) : Prop :=
  ∀ names, names ≠ [] → d.look? (loc ++ names) = some .dir →
    (input.join ("/".intercalate names)).fits = true

/-- What is found below a directory are the ways to its files with a claimed extension,
through directories and without a link, in the order of their names. -/
structure Listing (d : Disk) (g : Registry) (input : Path) (loc : Location)
    (found : List Location) : Prop where
  sorted : found.Pairwise (· < ·)
  mem_iff : ∀ names, names ∈ found ↔ (∃ bytes, d.look? (loc ++ names) = some (.file bytes)) ∧
    g.claims (InputFile.below input names).path = true

/-- Names that lead anywhere are proper. -/
theorem Tidy.proper_below (hd : d.Tidy) {x : Entry} (h : d.look? (loc ++ names) = some x) :
    ∀ name ∈ names, Proper name := by
  induction names generalizing loc with
  | nil => nofun
  | cons name names ih =>
    obtain ⟨entries, hentries⟩ := look?_eq_dir_iff.1 (look?_dir_of_below h)
    rw [List.forall_mem_cons]
    rw [List.append_cons] at h
    refine ⟨?_, ih h⟩
    cases hlookup : entries.lookup name with
    | none =>
      have hnone : d.look? (loc ++ [name]) = none := by
        rw [look?_below hentries, hlookup]
        rfl
      rw [look?_below_none hnone] at h
      cases h
    | some n =>
      obtain ⟨front, back, hmem, -⟩ := List.lookup_eq_some_iff.1 hlookup
      exact (hd.names loc entries hentries).2 (name, n) (by simp [hmem])

theorem look?_append (hdir : d.root.get? loc = some (.dir entries)) (names : Location) :
    d.look? (loc ++ names) = ((Node.dir entries).get? names).map Node.entry := by
  rw [look?, Node.get?_append, hdir]
  rfl

theorem look?_append_file_iff (hdir : d.root.get? loc = some (.dir entries)) {bytes : ByteArray} :
    d.look? (loc ++ names) = some (.file bytes) ↔
      (Node.dir entries).get? names = some (.file bytes) := by
  rw [look?_append hdir]
  cases (Node.dir entries).get? names with
  | none => simp
  | some n => cases n <;> simp [Node.entry]

theorem look?_append_dir_iff (hdir : d.root.get? loc = some (.dir entries)) :
    d.look? (loc ++ names) = some .dir ↔
      ∃ inner, (Node.dir entries).get? names = some (.dir inner) := by
  rw [look?_append hdir]
  cases (Node.dir entries).get? names with
  | none => simp
  | some n => cases n <;> simp [Node.entry]

/-- What is found below a directory is what is listed. -/
theorem Tidy.listing (hd : d.Tidy) (hdir : d.root.get? loc = some (.dir entries)) (g : Registry)
    (input : Path) :
    d.Listing g input loc ((Node.dir entries).filesBelow fun name => g.claims ⟨name⟩) := by
  refine ⟨Node.pairwise_filesBelow (hd.neat hdir), fun names => ?_⟩
  rw [Node.mem_filesBelow_iff (hd.neat hdir), Node.Asked]
  simp only [← look?_append_file_iff hdir]
  -- names that lead to a file are proper ones, so the last decides about its path
  refine and_congr_right ?_
  rintro ⟨bytes, hbytes⟩
  have hne : names ≠ [] := by
    rintro rfl
    rw [look?_append hdir] at hbytes
    cases hbytes
  rw [claims_below g input hne (hd.proper_below hbytes)]

theorem node?_of_find (hfind : d.find input = .ok (.found loc)) :
    d.node? input = d.root.get? loc := by
  rw [node?, hfind]

/-- The directories that are read are those below the input. -/
theorem Tidy.within_iff (hd : d.Tidy) (hdir : d.root.get? loc = some (.dir entries)) (input : Path) :
    ((Node.dir entries).dirsBelow.all fun names => (input.below names).fits) = true ↔
      d.Within input loc := by
  have hread : ∀ names, names ∈ (Node.dir entries).dirsBelow ↔
      names ≠ [] ∧ d.look? (loc ++ names) = some .dir := by
    intro names
    rw [Node.mem_dirsBelow_iff (hd.neat hdir), look?_append_dir_iff hdir]
  rw [List.all_eq_true, Within]
  constructor
  · intro h names hne hnames
    rw [← Path.below_eq_join hne (hd.proper_below hnames)]
    exact h names ((hread names).2 ⟨hne, hnames⟩)
  · intro h names hmem
    obtain ⟨hne, hnames⟩ := (hread names).1 hmem
    rw [Path.below_eq_join hne (hd.proper_below hnames)]
    exact h names hne hnames

theorem filesOf_within (hd : d.Tidy) (hfind : d.find input = .ok (.found loc))
    (hdir : d.root.get? loc = some (.dir entries)) (hwithin : d.Within input loc) (g : Registry) :
    filesOf d g input = .ok
      (((Node.dir entries).filesBelow fun name => g.claims ⟨name⟩).map (InputFile.below input)) := by
  rw [filesOf, node?_of_find hfind, hdir]
  dsimp only
  rw [if_pos ((hd.within_iff hdir input).2 hwithin)]
  refine congrArg Except.ok (List.map_congr_left fun names hnames => ?_)
  obtain ⟨-, hne, hproper⟩ := hd.filesBelow hdir hnames
  rw [Path.below_eq_join hne hproper, InputFile.below]

theorem filesOf_not_within (hd : d.Tidy) (hfind : d.find input = .ok (.found loc))
    (hdir : d.root.get? loc = some (.dir entries)) (hwithin : ¬ d.Within input loc) (g : Registry) :
    filesOf d g input = .error (.system .nameTooLong) := by
  rw [filesOf, node?_of_find hfind, hdir]
  dsimp only
  rw [if_neg (mt (hd.within_iff hdir input).1 hwithin)]

theorem collect_single (d : Disk) (g : Registry) (input : Path) :
    collect d g [input] = filesOf d g input := by
  rw [collect, if_neg (List.cons_ne_nil _ _), List.mapM_cons]
  cases filesOf d g input with
  | error => rfl
  | ok files => exact congrArg Except.ok (List.append_nil files)

/-- What is listed is collected. -/
theorem Tidy.collect_within (hd : d.Tidy) (hfind : d.find input = .ok (.found loc))
    (hdir : d.look? loc = some .dir) (hwithin : d.Within input loc) (g : Registry) :
    ∃ found, d.Listing g input loc found ∧
      collect d g [input] = .ok (found.map (InputFile.below input)) := by
  obtain ⟨entries, hentries⟩ := look?_eq_dir_iff.1 hdir
  exact ⟨_, hd.listing hentries g input,
    (collect_single d g input).trans (filesOf_within hd hfind hentries hwithin g)⟩

theorem Tidy.collect_not_within (hd : d.Tidy) (hfind : d.find input = .ok (.found loc))
    (hdir : d.look? loc = some .dir) (hwithin : ¬ d.Within input loc) (g : Registry) :
    collect d g [input] = .error (.system .nameTooLong) := by
  obtain ⟨entries, hentries⟩ := look?_eq_dir_iff.1 hdir
  rw [collect_single, filesOf_not_within hd hfind hentries hwithin g]

end Disk

/-! ## Destinations -/

namespace Command

variable {d : Disk} {g : Registry} {r : StripRequest} {s : Settings} {input : Path} {loc : Location}
  {found : List Location} {files : List InputFile} {target : Target}

/-- A run with one directory writes into a directory or over its sources. -/
theorem target_of_directory (hinputs : r.inputs = [input]) (hdir : d.isFile input = false)
    (h : r.target d = .ok target) : target = .inPlace ∨ ∃ out, target = .directory out := by
  unfold StripRequest.target at h
  rw [hinputs] at h
  simp only [hdir, Bool.false_and, Bool.false_eq_true, if_false] at h
  cases hout : r.output with
  | some out =>
    rw [hout] at h
    exact .inr ⟨out, (Except.ok.inj h).symm⟩
  | none =>
    rw [hout] at h
    dsimp only at h
    split at h
    · exact .inl (Except.ok.inj h).symm
    · cases h

/-- Different names lead to different destinations. -/
theorem destinations_nodup (hd : d.Tidy) (hlist : d.Listing g input loc found)
    (hdir : d.look? loc = some .dir)
    (htarget : target = .inPlace ∨ ∃ out, target = .directory out) :
    ((found.map (InputFile.below input)).map fun file => (target.destination file).steps).Nodup := by
  -- every destination is the path of one directory with the names behind it
  obtain ⟨base, hbase⟩ : ∃ base : Path, ∀ names,
      target.destination (InputFile.below input names) = base.join ("/".intercalate names) := by
    rcases htarget with rfl | ⟨out, rfl⟩
    · exact ⟨input, fun _ => rfl⟩
    · exact ⟨out, fun _ => rfl⟩
  have hsteps : (found.map (InputFile.below input)).map (fun file => (target.destination file).steps) =
      found.map fun names => base.steps ++ names.map .name := by
    rw [List.map_map]
    refine List.map_congr_left fun names hnames => ?_
    obtain ⟨⟨bytes, hfile⟩, -⟩ := (hlist.mem_iff names).1 hnames
    have hne : names ≠ [] := by
      rintro rfl
      rw [List.append_nil, hdir] at hfile
      cases hfile
    rw [Function.comp_apply, hbase, Path.steps_join hne (hd.proper_below hfile)]
  have hnodup : found.Nodup := by
    refine hlist.sorted.imp ?_
    rintro names _ hlt rfl
    exact List.lt_irrefl _ hlt
  -- names behind the same path are its last steps, and steps tell the names
  have hinjective : Function.Injective fun names : Location => base.steps ++ names.map .name := by
    intro names names' h
    refine List.map_injective_iff.2 (fun a b hab => ?_) (List.append_cancel_left h)
    exact Path.Step.name.inj hab
  rw [hsteps]
  exact List.Nodup.map hinjective hnodup

/-- The files of one directory have different destinations. -/
theorem destinations_apart (hd : d.Tidy) (hfind : d.find input = .ok (.found loc))
    (hdir : d.look? loc = some .dir) (hinputs : r.inputs = [input])
    (hfiles : collect d g [input] = .ok files) (htarget : r.target d = .ok target) :
    (files.map fun file => (target.destination file).steps).Nodup := by
  obtain ⟨entries, hentries⟩ := Disk.look?_eq_dir_iff.1 hdir
  have hfile : d.isFile input = false := by
    rw [Disk.isFile, Disk.node?_of_find hfind, hentries]
    rfl
  have htarget := target_of_directory hinputs hfile htarget
  by_cases hwithin : d.Within input loc
  · obtain ⟨found, hlist, hfound⟩ := hd.collect_within hfind hdir hwithin g
    rw [hfound] at hfiles
    cases hfiles
    exact destinations_nodup hd hlist hdir htarget
  · rw [hd.collect_not_within hfind hdir hwithin g] at hfiles
    cases hfiles

/-! ## No shared destination -/

theorem bind_ne_error {ε α β : Type} {x : Except ε α} {f : α → Except ε β} {e : ε}
    (hx : x ≠ .error e) (hf : ∀ a, x = .ok a → f a ≠ .error e) : x >>= f ≠ .error e := by
  cases x with
  | error e' => exact fun h => hx (by rw [Except.error.inj h])
  | ok a => exact hf a rfl

theorem foldlM_ne_error {ε α β : Type} {f : β → α → Except ε β} {e : ε}
    (hf : ∀ b a, f b a ≠ .error e) (xs : List α) (init : β) : xs.foldlM f init ≠ .error e := by
  induction xs generalizing init with
  | nil => nofun
  | cons x xs ih =>
    rw [List.foldlM_cons]
    exact bind_ne_error (hf init x) fun b _ => ih b

theorem require_ne_sameOutput (g : Registry) (name : Option String) (p : Path) :
    name.mapM g.require ≠ .error (.sameOutput p) := by
  intro h
  cases name with
  | none => cases h
  | some name =>
    rw [Option.mapM_some, Registry.require] at h
    split at h <;> cases h

theorem ofSettings_ne_sameOutput (s : Settings) (forced : Option String) (p : Path) :
    Registry.ofSettings s forced ≠ .error (.sameOutput p) := by
  unfold Registry.ofSettings
  refine bind_ne_error (foldlM_ne_error (fun g x => ?_) _ _) fun g _ =>
    bind_ne_error (require_ne_sameOutput g forced p) fun _ _ =>
      bind_ne_error (require_ne_sameOutput g _ p) fun _ _ => nofun
  refine bind_ne_error ?_ fun _ _ => nofun
  rw [CustomLanguage.rules]
  split <;> nofun

theorem policyUnder_ne_sameOutput (r : StripRequest) (s : Settings) (p : Path) :
    r.policyUnder s ≠ .error (.sameOutput p) := by
  unfold StripRequest.policyUnder
  split
  · nofun
  · split <;> nofun

theorem target_ne_sameOutput (r : StripRequest) (d : Disk) (p : Path) :
    r.target d ≠ .error (.sameOutput p) := by
  unfold StripRequest.target
  extract_lets single
  split
  · nofun
  · repeat' split
    all_goals nofun

theorem plan_ne_sameOutput (hd : d.Tidy) (hfind : d.find input = .ok (.found loc))
    (hdir : d.look? loc = some .dir) (hinputs : r.inputs = [input]) (s : Settings) (p : Path) :
    r.plan d s ≠ .error (.sameOutput p) := by
  -- what comes before the destinations are compared fails for other reasons
  unfold StripRequest.plan
  refine bind_ne_error (policyUnder_ne_sameOutput r s p) fun policy _ =>
    bind_ne_error (ofSettings_ne_sameOutput s r.language p) fun g _ =>
      bind_ne_error ?_ fun files hfiles => bind_ne_error (target_ne_sameOutput r d p) fun target ht => ?_
  · rw [hinputs]
    by_cases hwithin : d.Within input loc
    · obtain ⟨found, -, hfound⟩ := hd.collect_within hfind hdir hwithin g
      rw [hfound]
      nofun
    · rw [hd.collect_not_within hfind hdir hwithin g]
      nofun
  · rw [hinputs] at hfiles
    have hapart := destinations_apart hd hfind hdir hinputs hfiles ht
    rw [sharedPath?_eq_none_iff.2 ⟨by rwa [List.map_map], fun _ _ _ hq => (List.not_mem_nil hq).elim⟩]
    nofun

end Command

/-! ## Main result -/

/-- If the system takes the paths of the directories below it, a directory stands for the
files below it with a claimed extension. If not, nothing is collected. No two files of a
directory have one destination, so no run with one directory is refused for that. And
what inputs stand for does not depend on other inputs. -/
theorem collect_directory (d : Disk) (g : Registry) :
    (∀ input loc, d.Tidy → d.find input = .ok (.found loc) → d.look? loc = some .dir →
      (d.Within input loc → ∃ found, d.Listing g input loc found ∧
        collect d g [input] = .ok (found.map (InputFile.below input))) ∧
      (¬ d.Within input loc → collect d g [input] = .error (.system .nameTooLong)) ∧
      ∀ r : Command.StripRequest, r.inputs = [input] →
        (∀ files target, collect d g [input] = .ok files → r.target d = .ok target →
          (files.map fun file => (target.destination file).steps).Nodup) ∧
        ∀ s p, r.plan d s ≠ .error (.sameOutput p)) ∧
    ∀ a b fa fb, collect d g a = .ok fa → collect d g b = .ok fb →
      collect d g (a ++ b) = .ok (fa ++ fb) := by
  refine ⟨fun input loc hd hfind hdir => ⟨?_, ?_, fun r hinputs => ⟨?_, ?_⟩⟩, ?_⟩
  · exact fun hwithin => hd.collect_within hfind hdir hwithin g
  · exact fun hwithin => hd.collect_not_within hfind hdir hwithin g
  · exact fun files target hfiles => Command.destinations_apart hd hfind hdir hinputs hfiles
  · exact fun s p => Command.plan_ne_sameOutput hd hfind hdir hinputs s p
  · exact fun a b fa fb => collect_append

/-- A file and a directory next to each other by name, a link, and a file of no
language. -/
def library : Disk :=
  ⟨.dir [("lib", .dir [("b.c", .file .empty), ("l.c", .link ⟨"b.c"⟩),
    ("b", .dir [("x.c", .file .empty)]), ("n.txt", .file .empty)])], []⟩

theorem tidy_library : library.Tidy := by
  have hinner : Node.Neat (.dir [("x.c", .file .empty)]) :=
    Node.neat_dir (by decide) (by decide) (by simp)
  have hlib : Node.Neat (.dir [("b.c", .file .empty), ("l.c", .link ⟨"b.c"⟩),
      ("b", .dir [("x.c", .file .empty)]), ("n.txt", .file .empty)]) :=
    Node.neat_dir (by decide) (by decide) (by simp [hinner])
  exact ⟨rfl, Node.neat_dir (by decide) (by decide) (by simp [hlib])⟩

theorem within_library : library.Within ⟨"lib"⟩ ["lib"] := by
  have hdirs : (Node.dir [("b.c", .file .empty), ("l.c", .link ⟨"b.c"⟩),
      ("b", .dir [("x.c", .file .empty)]), ("n.txt", .file .empty)]).dirsBelow = [["b"]] := by
    rw [Node.dirsBelow_eq]
    simp [Node.opened, Node.dirsBelow_file]
  refine (tidy_library.within_iff rfl ⟨"lib"⟩).1 ?_
  rw [hdirs]
  decide

theorem collect_directory_library : ∃ g found, Registry.ofSettings {} none = .ok g ∧
    library.Within ⟨"lib"⟩ ["lib"] ∧ library.Listing g ⟨"lib"⟩ ["lib"] found ∧
    ["b", "x.c"] ∈ found ∧ ["b.c"] ∈ found ∧ ["l.c"] ∉ found ∧ ["n.txt"] ∉ found ∧
    collect library g [⟨"lib"⟩] = .ok (found.map (InputFile.below ⟨"lib"⟩)) ∧
    collect library g ([⟨"lib"⟩] ++ [⟨"lib"⟩]) =
      .ok (found.map (InputFile.below ⟨"lib"⟩) ++ found.map (InputFile.below ⟨"lib"⟩)) ∧
    ∀ s p, Command.StripRequest.plan { inputs := [⟨"lib"⟩], output := some ⟨"out"⟩ } library s ≠
      .error (.sameOutput p) := by
  obtain ⟨g, hg⟩ : ∃ g, Registry.ofSettings {} none = .ok g := ⟨_, rfl⟩
  obtain ⟨hdirectory, happend⟩ := collect_directory library g
  obtain ⟨hfound, -, hrun⟩ := hdirectory ⟨"lib"⟩ ["lib"] tidy_library rfl rfl
  obtain ⟨found, hlist, hcollect⟩ := hfound within_library
  have hx : g.claims (InputFile.below ⟨"lib"⟩ ["b", "x.c"]).path = true := by
    cases hg
    decide +kernel
  have hb : g.claims (InputFile.below ⟨"lib"⟩ ["b.c"]).path = true := by
    cases hg
    decide +kernel
  have hn : g.claims (InputFile.below ⟨"lib"⟩ ["n.txt"]).path = false := by
    cases hg
    decide +kernel
  refine ⟨g, found, hg, within_library, hlist, ?_, ?_, ?_, ?_, hcollect,
    happend _ _ _ _ hcollect hcollect, (hrun _ rfl).2⟩
  · exact (hlist.mem_iff _).2 ⟨⟨_, rfl⟩, hx⟩
  · exact (hlist.mem_iff _).2 ⟨⟨_, rfl⟩, hb⟩
  · intro h
    obtain ⟨⟨bytes, hfile⟩, -⟩ := (hlist.mem_iff _).1 h
    cases hfile
  · intro h
    have hclaims := ((hlist.mem_iff _).1 h).2
    rw [hn] at hclaims
    cases hclaims

/-! ## Paths that are too long -/

/-- A name with so many slashes behind it. -/
def padded (n : Nat) : Path := ⟨String.ofList ('d' :: List.replicate n '/')⟩

theorem moves_padded (n : Nat) : (padded n).moves = [.down "d"] := by
  have hslashes : Path.cut (List.replicate n '/') = List.replicate (n + 1) [] := by
    induction n with
    | zero => rfl
    | succ n ih => rw [List.replicate_succ, Path.cut, if_pos rfl, ih, ← List.replicate_succ]
  have hcut : Path.cut ('d' :: List.replicate n '/') = ['d'] :: List.replicate n [] := by
    rw [Path.cut, if_neg (by decide), hslashes, List.replicate_succ]
  have hidle : (List.replicate n (String.ofList [])).filterMap Move.ofPart? = [] := by
    refine List.filterMap_eq_nil_iff.2 fun part hpart => ?_
    rw [List.eq_of_mem_replicate hpart]
    rfl
  rw [Path.moves, Path.parts, padded, String.toList_ofList, hcut, List.map_cons, List.map_replicate,
    List.filterMap_cons, hidle]
  rfl

theorem utf8ByteSize_padded (n : Nat) : (padded n).text.utf8ByteSize = n + 1 := by
  have hslashes : (String.ofList (List.replicate n '/')).utf8ByteSize = n := by
    induction n with
    | zero => rfl
    | succ n ih =>
      have hslash : '/'.utf8Size = 1 := rfl
      rw [List.replicate_succ, String.ofList_cons, String.utf8ByteSize_append,
        String.utf8ByteSize_singleton, ih, hslash, Nat.add_comm]
  have hname : 'd'.utf8Size = 1 := rfl
  rw [padded, String.ofList_cons, String.utf8ByteSize_append, String.utf8ByteSize_singleton, hslashes,
    hname, Nat.add_comm]

/-- Two directories with a file in the inner one. -/
def deep : Disk := ⟨.dir [("d", .dir [("e", .dir [("x.c", .file "int x;\n".toUTF8)])])], []⟩

theorem tidy_deep : deep.Tidy := by
  have hinner : Node.Neat (.dir [("x.c", .file "int x;\n".toUTF8)]) :=
    Node.neat_dir (by decide) (by decide) (by simp)
  have hmiddle : Node.Neat (.dir [("e", .dir [("x.c", .file "int x;\n".toUTF8)])]) :=
    Node.neat_dir (by decide) (by decide) (by simpa using hinner)
  exact ⟨rfl, Node.neat_dir (by decide) (by decide) (by simpa using hmiddle)⟩

theorem find_padded {n : Nat} (h : n + 2 ≤ 4095) :
    deep.find (padded (n + 1)) = .ok (.found ["d"]) := by
  have hsound : (padded (n + 1)).fault? = none := by
    have hinside : (padded (n + 1)).text.toList.contains '\x00' = false := by
      rw [padded, String.toList_ofList]
      simp
    have hempty : (padded (n + 1)).text ≠ "" := by simp [padded]
    have hfits : (padded (n + 1)).fits = true := by
      rw [Path.fits, utf8ByteSize_padded]
      exact decide_eq_true h
    rw [Path.fault?, hinside, if_neg (by decide), if_neg hempty, if_neg (by simp [hfits])]
  have hslash : (padded (n + 1)).endsInSlash = true := by
    rw [Path.endsInSlash, padded, String.toList_ofList, List.replicate_succ', ← List.cons_append,
      List.getLast?_concat]
    rfl
  have hstart : deep.start (padded (n + 1)) = [] := by
    unfold Disk.start
    split <;> rfl
  rw [Disk.find_of_sound hsound, Path.route, moves_padded, hslash, hstart]
  rfl

/-- With a path of the greatest length for the outer directory, that of the inner one is
too long, and the file in it is not collected. -/
theorem collect_padded : ∃ g, Registry.ofSettings {} none = .ok g ∧ deep.Tidy ∧
    deep.find (padded 4094) = .ok (.found ["d"]) ∧ deep.look? ["d"] = some .dir ∧
    deep.look? ["d", "e", "x.c"] = some (.file "int x;\n".toUTF8) ∧
    g.claims (InputFile.below (padded 4094) ["e", "x.c"]).path = true ∧
    collect deep g [padded 4094] = .error (.system .nameTooLong) := by
  obtain ⟨g, hg⟩ : ∃ g, Registry.ofSettings {} none = .ok g := ⟨_, rfl⟩
  have hfind := find_padded (n := 4093) (by decide)
  have hclaims : g.claims ⟨"x.c"⟩ = true := by
    cases hg
    decide +kernel
  have hlong : ¬ deep.Within (padded 4094) ["d"] := by
    intro h
    have hfits := h ["e"] (List.cons_ne_nil _ _) rfl
    have hlonger : 4095 < ((padded 4094).join "e").text.utf8ByteSize := by
      have hname : "e".utf8ByteSize = 1 := rfl
      unfold Path.join
      split <;> simp only [String.utf8ByteSize_append, utf8ByteSize_padded, hname] <;> omega
    rw [String.intercalate_singleton, Path.fits, decide_eq_true_eq] at hfits
    exact absurd hlonger (Nat.not_lt.2 hfits)
  refine ⟨g, hg, tidy_deep, hfind, rfl, rfl, ?_, tidy_deep.collect_not_within hfind rfl hlong g⟩
  rw [claims_below g _ (List.cons_ne_nil _ _) (by decide)]
  exact hclaims

end Gloss
