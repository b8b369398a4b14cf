import Gloss.Disk.Access
/-!
# What is where on a disk

`Disk.look?` tells what stands at a location, without what is below it. Two disks
are the same if they work in the same directory and have the same entries: the
order of names in a directory does not count. `look?_put` says what putting a
file or an empty directory at a free name comes to, and `Keeps` that all entries
of one disk are still on another. The rest of the theory sees disks only through
these.
-/

namespace Gloss

/-- What stands at a location, without what is below it. -/
inductive Entry where
  | file (bytes : ByteArray)
  | link (target : Path)
  | dir

/-- Files are told apart by their bytes. -/
instance : DecidableEq Entry
  | .file a, .file b =>
    decidable_of_iff (a.data = b.data) (by rw [Entry.file.injEq, ByteArray.ext_iff])
  | .link p, .link q => decidable_of_iff (p = q) (by rw [Entry.link.injEq])
  | .dir, .dir => .isTrue rfl
  | .file _, .link _ => .isFalse Entry.noConfusion
  | .file _, .dir => .isFalse Entry.noConfusion
  | .link _, .file _ => .isFalse Entry.noConfusion
  | .link _, .dir => .isFalse Entry.noConfusion
  | .dir, .file _ => .isFalse Entry.noConfusion
  | .dir, .link _ => .isFalse Entry.noConfusion

namespace Node

def entry : Node → Entry
  | .file bytes => .file bytes
  | .link target => .link target
  | .dir _ => .dir

@[simp] theorem get?_nil (n : Node) : n.get? [] = some n := by
  cases n <;> rfl

@[simp] theorem get?_dir_cons (entries : List (String × Node)) (name : String) (loc : Location) :
    (Node.dir entries).get? (name :: loc) = (entries.lookup name).bind (get? · loc) := rfl

theorem get?_cons_of_not_dir {n : Node} (h : n.entry ≠ .dir) (name : String) (loc : Location) :
    n.get? (name :: loc) = none := by
  cases n with
  | dir entries => exact absurd rfl h
  | _ => rfl

theorem get?_append (n : Node) (loc below : Location) :
    n.get? (loc ++ below) = (n.get? loc).bind (get? · below) := by
  induction loc generalizing n with
  | nil => simp
  | cons name loc ih =>
    by_cases h : n.entry = .dir
    · cases n with
      | dir entries =>
        rw [List.cons_append, get?_dir_cons, get?_dir_cons, Option.bind_assoc]
        congr 1
        funext inner
        exact ih inner
      | _ => cases h
    · rw [List.cons_append, get?_cons_of_not_dir h, get?_cons_of_not_dir h]
      rfl

theorem lookup_cons (key other : String) (n : Node) (entries : List (String × Node)) :
    ((key, n) :: entries).lookup other = if other = key then some n else entries.lookup other := by
  rw [List.lookup_cons]
  by_cases h : other = key
  · simp [h]
  · rw [if_neg h, beq_eq_false_iff_ne.2 h]

theorem lookup_setEntry (entries : List (String × Node)) (name other : String) (n : Node) :
    (setEntry entries name n).lookup other =
      if other = name then some n else entries.lookup other := by
  induction entries with
  | nil => rw [setEntry, lookup_cons]
  | cons e entries ih =>
    obtain ⟨key, old⟩ := e
    rw [setEntry]
    by_cases hkey : name = key
    · subst hkey
      rw [if_pos (by simp), lookup_cons, lookup_cons]
      by_cases h : other = name <;> simp [h]
    · rw [if_neg (by simpa using hkey), lookup_cons, lookup_cons, ih]
      by_cases h : other = key
      · subst h
        simp [Ne.symm hkey]
      · simp [h]

/-- What is put at a free name is there, and all else is as it was. -/
theorem get?_put {new : Node} (hnew : ∀ x xs, new.get? (x :: xs) = none) {dir : Location}
    {name : String} {root : Node} {entries : List (String × Node)}
    (hdir : root.get? dir = some (.dir entries)) (hname : entries.lookup name = none)
    (loc : Location) :
    ((put new (dir ++ [name]) root).get? loc).map entry =
      if loc = dir ++ [name] then some new.entry else (root.get? loc).map entry := by
  induction dir generalizing root loc with
  | nil =>
    rw [get?_nil, Option.some.injEq] at hdir
    subst hdir
    rw [List.nil_append, put]
    rcases loc with _ | ⟨x, xs⟩
    · simp [entry]
    · rw [get?_dir_cons, get?_dir_cons, lookup_setEntry]
      by_cases hx : x = name
      · subst hx
        rw [hname]
        rcases xs with _ | ⟨y, ys⟩ <;> simp [hnew]
      · simp [hx]
  | cons first dir ih =>
    cases root with
    | dir es =>
      obtain ⟨inner, hinner, hinside⟩ := Option.bind_eq_some_iff.1 hdir
      have hput : put new (first :: dir ++ [name]) (.dir es) =
          .dir (setEntry es first (put new (dir ++ [name]) inner)) := by
        rw [List.cons_append, put.eq_3, hinner]
        simp
      rw [hput]
      rcases loc with _ | ⟨x, xs⟩
      · simp [entry]
      · rw [get?_dir_cons, get?_dir_cons, lookup_setEntry]
        by_cases hx : x = first
        · subst hx
          simp [hinner, ih hinside xs]
        · simp [hx]
    | _ => cases hdir

end Node

namespace Disk

/-- What stands at a location. -/
def look? (d : Disk) (loc : Location) : Option Entry := (d.root.get? loc).map Node.entry

/-- The same entries, and the same directory to work in. -/
structure Same (d e : Disk) : Prop where
  here : e.here = d.here
  entries : ∀ loc, e.look? loc = d.look? loc

/-- Whatever stands on the first disk still does on the second. -/
structure Keeps (d e : Disk) : Prop where
  here : e.here = d.here
  entries : ∀ loc x, d.look? loc = some x → e.look? loc = some x

variable {d e f : Disk} {dir loc below : Location} {name : String} {x : Entry}

theorem Keeps.refl (d : Disk) : d.Keeps d := ⟨rfl, fun _ _ h => h⟩

theorem Keeps.trans (h : d.Keeps e) (h' : e.Keeps f) : d.Keeps f :=
  ⟨h'.here.trans h.here, fun loc x hx => h'.entries loc x (h.entries loc x hx)⟩

theorem look?_eq_dir_iff : d.look? loc = some .dir ↔ ∃ es, d.root.get? loc = some (.dir es) := by
  unfold look?
  constructor
  · intro h
    obtain ⟨n, hn, he⟩ := Option.map_eq_some_iff.1 h
    cases n with
    | dir es => exact ⟨es, hn⟩
    | _ => cases he
  · rintro ⟨es, hes⟩
    rw [hes]
    rfl

theorem look?_below {es : List (String × Node)} (h : d.root.get? loc = some (.dir es))
    (name : String) :
    d.look? (loc ++ [name]) = (es.lookup name).map Node.entry := by
  rw [look?, Node.get?_append, h]
  simp

/-- Only directories have anything below them. -/
theorem look?_dir_of_below (h : d.look? (loc ++ name :: below) = some x) :
    d.look? loc = some .dir := by
  unfold look? at h ⊢
  rw [Node.get?_append] at h
  cases hn : d.root.get? loc with
  | none => simp [hn] at h
  | some n =>
    cases n with
    | dir es => rfl
    | _ => simp [hn, Node.get?] at h

theorem look?_below_none (h : d.look? loc = none) (below : Location) :
    d.look? (loc ++ below) = none := by
  unfold look? at h ⊢
  rw [Node.get?_append, Option.map_eq_none_iff.1 h]
  rfl

/-- What is put at a free name is there, and all else is as it was. -/
theorem look?_put {new : Node} (hnew : ∀ x xs, new.get? (x :: xs) = none)
    (hdir : d.look? dir = some .dir) (hname : d.look? (dir ++ [name]) = none) (loc : Location) :
    (d.put (dir ++ [name]) new).look? loc =
      if loc = dir ++ [name] then some new.entry else d.look? loc := by
  obtain ⟨es, hes⟩ := look?_eq_dir_iff.1 hdir
  rw [look?_below hes, Option.map_eq_none_iff] at hname
  exact Node.get?_put hnew hes hname loc

theorem keeps_put {new : Node} (hnew : ∀ x xs, new.get? (x :: xs) = none)
    (hdir : d.look? dir = some .dir) (hname : d.look? (dir ++ [name]) = none) :
    d.Keeps (d.put (dir ++ [name]) new) := by
  refine ⟨rfl, fun loc x hx => ?_⟩
  rw [look?_put hnew hdir hname, if_neg, hx]
  rintro rfl
  rw [hname] at hx
  cases hx

end Disk
end Gloss
