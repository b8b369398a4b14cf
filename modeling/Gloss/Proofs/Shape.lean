import Gloss.Proofs.Access
import Gloss.Inputs
/-!
# The shape of a disk

The shape of a disk is the disk with all its files empty. Where paths lead and which
files inputs stand for depends on the shape alone (`find_shape`, `collect_shape`), and
writing over a file keeps it (`shape_put`).
-/

namespace Gloss

namespace Node

/-- The tree with all files empty. -/
def shape : Node → Node
  | .file _ => .file .empty
  | .link target => .link target
  | .dir entries => .dir (entries.attach.map fun e => (e.1.1, shape e.1.2))
decreasing_by
  have := List.sizeOf_lt_of_mem e.2
  obtain ⟨⟨name, n⟩, he⟩ := e
  simp_all
  omega

variable {n root new old : Node} {entries : List (String × Node)} {name : String} {loc : Location}
  {keep : String → Bool}

@[simp] theorem shape_file (bytes : ByteArray) : (file bytes).shape = file .empty := by
  rw [shape]

@[simp] theorem shape_link (target : Path) : (link target).shape = link target := by
  rw [shape]

@[simp] theorem shape_dir (entries : List (String × Node)) :
    (dir entries).shape = dir (entries.map fun e => (e.1, e.2.shape)) := by
  have hmap : entries.attach.map ((fun e => (e.1, e.2.shape)) ∘ Subtype.val) =
      entries.map fun e => (e.1, e.2.shape) := by
    rw [← List.map_map, List.attach_map_subtype_val]
  rw [shape]
  exact congrArg dir hmap

/-- Induction over a tree: what holds of all nodes in a directory holds of it. -/
theorem byEntries {motive : Node → Prop} (file : ∀ bytes, motive (.file bytes))
    (link : ∀ target, motive (.link target))
    (dir : ∀ entries, (∀ e ∈ entries, motive e.2) → motive (.dir entries)) : ∀ n, motive n
  | .file bytes => file bytes
  | .link target => link target
  | .dir entries => dir entries fun e _ => byEntries file link dir e.2
decreasing_by
  have := List.sizeOf_lt_of_mem ‹e ∈ entries›
  obtain ⟨name, n⟩ := e
  simp_all
  omega

theorem lookup_shape (entries : List (String × Node)) (name : String) :
    (entries.map fun e => (e.1, e.2.shape)).lookup name = (entries.lookup name).map shape := by
  induction entries with
  | nil => rfl
  | cons e entries ih =>
    rw [List.map_cons, lookup_cons, lookup_cons, ih]
    split <;> rfl

theorem get?_shape (n : Node) (loc : Location) : n.shape.get? loc = (n.get? loc).map shape := by
  induction loc generalizing n with
  | nil => simp
  | cons name loc ih =>
    cases n with
    | dir entries =>
      rw [shape_dir, get?_dir_cons, get?_dir_cons, lookup_shape]
      cases entries.lookup name with
      | none => rfl
      | some inner => exact ih inner
    | file => simp [get?]
    | link => simp [get?]

/-! ## Writing over a file -/

theorem setEntry_shape (h : entries.lookup name = some old) (hshape : new.shape = old.shape) :
    (setEntry entries name new).map (fun e => (e.1, e.2.shape)) =
      entries.map fun e => (e.1, e.2.shape) := by
  induction entries with
  | nil => cases h
  | cons e entries ih =>
    obtain ⟨key, other⟩ := e
    rw [lookup_cons] at h
    rw [setEntry]
    by_cases hkey : name = key
    · rw [if_pos hkey, Option.some.injEq] at h
      rw [if_pos (by simpa using hkey), List.map_cons, List.map_cons, hkey, hshape, h]
    · rw [if_neg hkey] at h
      rw [if_neg (by simpa using hkey), List.map_cons, List.map_cons, ih h]

theorem setEntry_self (h : entries.lookup name = some n) : setEntry entries name n = entries := by
  induction entries with
  | nil => cases h
  | cons e entries ih =>
    obtain ⟨key, other⟩ := e
    rw [lookup_cons] at h
    rw [setEntry]
    by_cases hkey : name = key
    · rw [if_pos hkey, Option.some.injEq] at h
      rw [if_pos (by simpa using hkey), hkey, h]
    · rw [if_neg hkey] at h
      rw [if_neg (by simpa using hkey), ih h]

/-- Putting a node where one is goes down to it. -/
theorem put_cons {inner : Node} (h : entries.lookup name = some inner) :
    put new (name :: loc) (dir entries) = dir (setEntry entries name (put new loc inner)) := by
  cases loc with
  | nil => rfl
  | cons next loc => rw [put.eq_3 _ _ _ _ (by simp), h]

theorem shape_put_file (h : root.get? loc = some old) (hshape : new.shape = old.shape) :
    (put new loc root).shape = root.shape := by
  induction loc generalizing root with
  | nil =>
    rw [get?_nil, Option.some.injEq] at h
    rw [put, hshape, h]
  | cons name loc ih =>
    cases root with
    | dir entries =>
      obtain ⟨inner, hinner, hrest⟩ := Option.bind_eq_some_iff.1 h
      rw [put_cons hinner, shape_dir, shape_dir, setEntry_shape hinner (ih hrest)]
    | _ => cases h

/-- Putting a node back where it is changes nothing. -/
theorem put_self (h : root.get? loc = some n) : put n loc root = root := by
  induction loc generalizing root with
  | nil =>
    rw [get?_nil, Option.some.injEq] at h
    rw [put, h]
  | cons name loc ih =>
    cases root with
    | dir entries =>
      obtain ⟨inner, hinner, hrest⟩ := Option.bind_eq_some_iff.1 h
      rw [put_cons hinner, ih hrest, setEntry_self hinner]
    | _ => cases h

/-- What is put over a file is there, and all else is as it was. -/
theorem get?_put_over {bytes : ByteArray} (h : root.get? loc = some (.file bytes))
    (hnew : ∀ x xs, new.get? (x :: xs) = none) (loc' : Location) :
    ((put new loc root).get? loc').map entry =
      if loc' = loc then some new.entry else (root.get? loc').map entry := by
  induction loc generalizing root loc' with
  | nil =>
    rw [get?_nil, Option.some.injEq] at h
    rw [put, h]
    cases loc' with
    | nil => simp
    | cons x xs => simp [hnew, get?]
  | cons name loc ih =>
    cases root with
    | dir entries =>
      obtain ⟨inner, hinner, hrest⟩ := Option.bind_eq_some_iff.1 h
      rw [put_cons hinner]
      cases loc' with
      | nil => simp [entry]
      | cons x xs =>
        rw [get?_dir_cons, get?_dir_cons, lookup_setEntry]
        by_cases hx : x = name
        · subst hx
          simp [hinner, ih hrest xs]
        · simp [hx]
    | _ => cases h

/-! ## What is below -/

/-- The files that an entry of a directory stands for, below its name. -/
def found (keep : String → Bool) (name : String) : Node → List Location
  | .file _ => if keep name then [[]] else []
  | n => n.filesBelow keep

theorem filesBelow_eq (keep : String → Bool) (entries : List (String × Node)) :
    (dir entries).filesBelow keep =
      ((entries.map fun e => (e.1, e.2.found keep e.1)).mergeSort fun a b => a.1 ≤ b.1).flatMap
        fun x => x.2.map (x.1 :: ·) := by
  have hmap : entries.attach.map ((fun e => (e.1, e.2.found keep e.1)) ∘ Subtype.val) =
      entries.map fun e => (e.1, e.2.found keep e.1) := by
    rw [← List.map_map, List.attach_map_subtype_val]
  rw [filesBelow, ← hmap]
  congr 2
  refine List.map_congr_left fun e _ => ?_
  obtain ⟨⟨name, n⟩, he⟩ := e
  cases n with
  | link => simp [found, filesBelow]
  | _ => rfl

theorem filesBelow_shape (keep : String → Bool) (n : Node) :
    n.shape.filesBelow keep = n.filesBelow keep := by
  induction n using byEntries with
  | file => simp [filesBelow]
  | link => simp
  | dir entries ih =>
    rw [shape_dir, filesBelow_eq, filesBelow_eq, List.map_map]
    congr 2
    refine List.map_congr_left fun e he => ?_
    have hfound : e.2.shape.found keep e.1 = e.2.found keep e.1 := by
      have hbelow := ih e he
      cases hn : e.2 with
      | file => simp [found]
      | link => simp
      | dir =>
        rw [hn] at hbelow
        rw [shape_dir] at hbelow ⊢
        exact hbelow
    exact congrArg (Prod.mk e.1) hfound

/-- The directories that an entry of a directory stands for. -/
def opened (name : String) : Node → List Location
  | .dir entries => [name] :: (dir entries).dirsBelow.map (name :: ·)
  | _ => []

theorem dirsBelow_eq (entries : List (String × Node)) :
    (dir entries).dirsBelow = entries.flatMap fun e => e.2.opened e.1 := by
  have hmap : entries.attach.flatMap (fun e => e.1.2.opened e.1.1) =
      entries.flatMap fun e => e.2.opened e.1 := by
    conv_rhs => rw [← List.attach_map_subtype_val entries, List.flatMap_map]
  rw [dirsBelow, ← hmap]
  congr 1
  funext e
  obtain ⟨⟨name, n⟩, he⟩ := e
  cases n <;> rfl

theorem dirsBelow_shape (n : Node) : n.shape.dirsBelow = n.dirsBelow := by
  induction n using byEntries with
  | file => simp [dirsBelow]
  | link => simp
  | dir entries ih =>
    rw [shape_dir, dirsBelow_eq, dirsBelow_eq, List.flatMap_map]
    refine List.flatMap_congr fun e he => ?_
    have hbelow := ih e he
    cases hn : e.2 with
    | file => simp [opened]
    | link => simp
    | dir =>
      rw [hn, shape_dir] at hbelow
      rw [shape_dir, opened, hbelow, opened]

end Node

namespace Disk

/-- The disk with all files empty. -/
def shape (d : Disk) : Disk := { d with root := d.root.shape }

variable {d e : Disk} {g : Registry} {goal : Goal} {n : Nat} {loc : Location} {ms : List Move}
  {p : Path} {bytes : ByteArray}

/-! ## Where paths lead -/

theorem walkWith_shape {follow : Path → Location → List Move → Except Fault Place} :
    d.shape.walkWith goal follow loc ms = d.walkWith goal follow loc ms := by
  induction ms generalizing loc with
  | nil => rfl
  | cons m ms ih =>
    rw [walkWith, walkWith, shape, Node.get?_shape]
    cases d.root.get? loc with
    | none => rfl
    | some node =>
      cases node with
      | file => simp
      | link => simp
      | dir entries =>
        rw [Option.map_some, Node.shape_dir]
        cases m with
        | stay | slash | up => exact ih
        | down name =>
          dsimp only
          rw [Node.lookup_shape]
          split
          · rfl
          split
          · rfl
          cases entries.lookup name with
          | none => rfl
          | some inner =>
            cases inner with
            | link => simp
            | file =>
              rw [Option.map_some, Node.shape_file]
              exact ih
            | dir =>
              rw [Option.map_some, Node.shape_dir]
              exact ih

theorem walk_shape : d.shape.walk goal n loc ms = d.walk goal n loc ms := by
  induction n generalizing loc ms with
  | zero => exact walkWith_shape
  | succ n ih =>
    have hfollow : (fun target loc rest => if Path.text target = "" then .error .notFound
        else d.shape.walk goal n (if target.isAbsolute then [] else loc) (target.route ++ rest)) =
        fun target loc rest => if Path.text target = "" then .error .notFound
        else d.walk goal n (if target.isAbsolute then [] else loc) (target.route ++ rest) := by
      funext target loc rest
      rw [ih]
    rw [walk, hfollow]
    exact walkWith_shape

theorem find_shape : d.shape.find p goal = d.find p goal := by
  unfold find
  rw [walk_shape]
  rfl

theorem node?_shape : d.shape.node? p = (d.node? p).map Node.shape := by
  rw [node?, node?, find_shape]
  split
  · exact Node.get?_shape _ _
  · rfl

theorem isFile_shape : d.shape.isFile p = d.isFile p := by
  rw [isFile, isFile, node?_shape, Option.any_map]
  congr 1
  funext node
  cases node <;> simp [Node.isFile]

theorem isDir_shape : d.shape.isDir p = d.isDir p := by
  rw [isDir, isDir, node?_shape, Option.any_map]
  congr 1
  funext node
  cases node <;> simp [Node.isDir]

/-! ## Writing over a file -/

theorem get?_of_look? (h : d.look? loc = some (.file bytes)) :
    d.root.get? loc = some (.file bytes) := by
  obtain ⟨node, hnode, hentry⟩ := Option.map_eq_some_iff.1 h
  cases node <;> cases hentry
  exact hnode

theorem shape_put {old : ByteArray} (h : d.look? loc = some (.file old)) :
    (d.put loc (.file bytes)).shape = d.shape := by
  unfold shape put
  rw [Node.shape_put_file (get?_of_look? h) (by simp)]

theorem look?_put_over {old : ByteArray} (h : d.look? loc = some (.file old)) (loc' : Location) :
    (d.put loc (.file bytes)).look? loc' =
      if loc' = loc then some (.file bytes) else d.look? loc' :=
  Node.get?_put_over (get?_of_look? h) get?_file loc'

theorem put_same (h : d.look? loc = some (.file bytes)) : d.put loc (.file bytes) = d := by
  unfold put
  rw [Node.put_self (get?_of_look? h)]

end Disk

theorem filesOf_shape (d : Disk) (g : Registry) (input : Path) :
    filesOf d.shape g input = filesOf d g input := by
  rw [filesOf, filesOf, Disk.node?_shape]
  cases d.node? input with
  | none => rfl
  | some node =>
    cases node with
    | file => simp
    | link => simp
    | dir entries =>
      rw [Option.map_some, Node.shape_dir]
      dsimp only
      rw [← Node.shape_dir, Node.filesBelow_shape, Node.dirsBelow_shape]

theorem collect_shape (d : Disk) (g : Registry) (inputs : List Path) :
    collect d.shape g inputs = collect d g inputs := by
  rw [collect, collect, funext (filesOf_shape d g)]

end Gloss
