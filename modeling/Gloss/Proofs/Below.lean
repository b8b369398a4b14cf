import Gloss.Proofs.Collected
/-!
# What is below a directory

The files below a directory are listed entry by entry, so what is found below an entry
starts with its name. In a tree where names stand once (`Node.Neat`) these are the files
that names lead to (`Node.mem_filesBelow_iff`), in the order of their names
(`Node.pairwise_filesBelow`). A path with names behind it has their steps behind its own
(`Path.steps_join`).
-/

namespace Gloss

instance : DecidablePred Proper := fun name =>
  decidable_of_iff ('/' ∉ name.toList ∧ name ≠ "" ∧ name ≠ "." ∧ name ≠ "..")
    ⟨fun ⟨hslash, hempty, hdot, hdots⟩ => ⟨hslash, hempty, hdot, hdots⟩,
      fun h => ⟨h.no_slash, h.not_empty, h.not_dot, h.not_dots⟩⟩

/-! ## The files below a directory -/

namespace Node

variable {keep : String → Bool} {entries : List (String × Node)} {name : String} {n : Node}
  {below names : Location}

/-- In every directory of the tree each name stands once, and it is a proper one. -/
def Neat (n : Node) : Prop :=
  ∀ loc entries, n.get? loc = some (.dir entries) →
    (entries.map Prod.fst).Nodup ∧ ∀ e ∈ entries, Proper e.1

theorem Neat.nodup (h : Neat (.dir entries)) : (entries.map Prod.fst).Nodup :=
  (h [] entries (get?_nil _)).1

/-- The first of the names is that of an entry, the others lead on from there. -/
theorem Neat.get?_cons_iff (h : Neat (.dir entries)) {x : Node} :
    (dir entries).get? (name :: below) = some x ↔
      ∃ n, (name, n) ∈ entries ∧ n.get? below = some x := by
  rw [get?_dir_cons, Option.bind_eq_some_iff]
  constructor
  · rintro ⟨n, hlookup, hn⟩
    obtain ⟨front, back, rfl, -⟩ := List.lookup_eq_some_iff.1 hlookup
    exact ⟨n, List.mem_append_right _ List.mem_cons_self, hn⟩
  · rintro ⟨n, he, hn⟩
    exact ⟨n, lookup_of_mem h.nodup he, hn⟩

theorem Neat.entry (h : Neat (.dir entries)) {e : String × Node} (he : e ∈ entries) :
    e.2.Neat := by
  intro loc inner hloc
  exact h (e.1 :: loc) inner (h.get?_cons_iff.2 ⟨e.2, he, hloc⟩)

@[simp] theorem neat_file (bytes : ByteArray) : Neat (.file bytes) := by
  rintro (_ | ⟨name, loc⟩) entries h <;> cases h

@[simp] theorem neat_link (target : Path) : Neat (.link target) := by
  rintro (_ | ⟨name, loc⟩) entries h <;> cases h

theorem neat_dir (hnodup : (entries.map Prod.fst).Nodup) (hproper : ∀ e ∈ entries, Proper e.1)
    (h : ∀ e ∈ entries, e.2.Neat) : Neat (.dir entries) := by
  intro loc inner hloc
  cases loc with
  | nil =>
    cases hloc
    exact ⟨hnodup, hproper⟩
  | cons name loc =>
    rw [get?_dir_cons] at hloc
    obtain ⟨n, hlookup, hn⟩ := Option.bind_eq_some_iff.1 hloc
    obtain ⟨front, back, hmem, -⟩ := List.lookup_eq_some_iff.1 hlookup
    exact h (name, n) (by simp [hmem]) loc inner hn

/-- What is below a directory is below one of its entries. -/
theorem mem_filesBelow_dir : names ∈ (dir entries).filesBelow keep ↔
    ∃ name n below, (name, n) ∈ entries ∧ below ∈ n.found keep name ∧ names = name :: below := by
  rw [filesBelow_eq, List.mem_flatMap]
  constructor
  · rintro ⟨⟨name, belows⟩, hx, hnames⟩
    rw [List.mem_mergeSort] at hx
    obtain ⟨⟨key, n⟩, he, heq⟩ := List.mem_map.1 hx
    obtain ⟨rfl, rfl⟩ := Prod.mk.inj heq
    obtain ⟨below, hbelow, rfl⟩ := List.mem_map.1 hnames
    exact ⟨key, n, below, he, hbelow, rfl⟩
  · rintro ⟨name, n, below, he, hbelow, rfl⟩
    refine ⟨(name, n.found keep name), ?_, List.mem_map_of_mem hbelow⟩
    rw [List.mem_mergeSort]
    exact List.mem_map.2 ⟨_, he, rfl⟩

/-- The names lead to a file, and the last of them is asked for. -/
def Asked (keep : String → Bool) (n : Node) (names : Location) : Prop :=
  (∃ bytes, n.get? names = some (.file bytes)) ∧ names.getLast?.any keep = true

theorem mem_found_iff (h : ∀ names, names ∈ n.filesBelow keep ↔ n.Asked keep names) :
    below ∈ n.found keep name ↔
      (∃ bytes, n.get? below = some (.file bytes)) ∧ (name :: below).getLast?.any keep = true := by
  cases n with
  | file bytes =>
    cases below with
    | nil => by_cases hk : keep name = true <;> simp [found, hk]
    | cons next below => by_cases hk : keep name = true <;> simp [found, get?, hk]
  | link target =>
    cases below <;> simp [found, filesBelow, get?]
  | dir inner =>
    have hinner : (dir inner).found keep name = (dir inner).filesBelow keep := rfl
    rw [hinner, h, Asked]
    cases below with
    | nil => simp
    | cons next below => rw [List.getLast?_cons_cons]

/-- The files below a directory are those that names lead to. -/
theorem mem_filesBelow_iff (h : n.Neat) : names ∈ n.filesBelow keep ↔ n.Asked keep names := by
  induction n using byEntries generalizing names with
  | file bytes => cases names <;> simp [filesBelow, Asked, get?]
  | link target => cases names <;> simp [filesBelow, Asked, get?]
  | dir entries ih =>
    rw [mem_filesBelow_dir]
    constructor
    · rintro ⟨name, n, below, he, hbelow, rfl⟩
      obtain ⟨⟨bytes, hfile⟩, hkeep⟩ := (mem_found_iff fun _ => ih _ he (h.entry he)).1 hbelow
      exact ⟨⟨bytes, h.get?_cons_iff.2 ⟨n, he, hfile⟩⟩, hkeep⟩
    · rintro ⟨⟨bytes, hfile⟩, hkeep⟩
      cases names with
      | nil => cases hkeep
      | cons name below =>
        obtain ⟨n, he, hfile⟩ := h.get?_cons_iff.1 hfile
        have hbelow := (mem_found_iff fun _ => ih _ he (h.entry he)).2 ⟨⟨bytes, hfile⟩, hkeep⟩
        exact ⟨name, n, below, he, hbelow, rfl⟩

theorem mem_opened_iff
    (h : ∀ names, names ∈ n.dirsBelow ↔ names ≠ [] ∧ ∃ inner, n.get? names = some (.dir inner)) :
    names ∈ n.opened name ↔
      ∃ below, names = name :: below ∧ ∃ inner, n.get? below = some (.dir inner) := by
  cases n with
  | file bytes =>
    simp only [opened, List.not_mem_nil, false_iff]
    rintro ⟨below, -, inner, hinner⟩
    cases below <;> cases hinner
  | link target =>
    simp only [opened, List.not_mem_nil, false_iff]
    rintro ⟨below, -, inner, hinner⟩
    cases below <;> cases hinner
  | dir entries =>
    rw [opened, List.mem_cons, List.mem_map]
    constructor
    · rintro (rfl | ⟨below, hbelow, rfl⟩)
      · exact ⟨[], rfl, entries, rfl⟩
      · exact ⟨below, rfl, ((h below).1 hbelow).2⟩
    · rintro ⟨below, rfl, hinner⟩
      by_cases hnil : below = []
      · exact .inl (by rw [hnil])
      · exact .inr ⟨below, (h below).2 ⟨hnil, hinner⟩, rfl⟩

/-- The directories below one are those that names lead to. -/
theorem mem_dirsBelow_iff (h : n.Neat) :
    names ∈ n.dirsBelow ↔ names ≠ [] ∧ ∃ inner, n.get? names = some (.dir inner) := by
  induction n using byEntries generalizing names with
  | file bytes => cases names <;> simp [dirsBelow, get?]
  | link target => cases names <;> simp [dirsBelow, get?]
  | dir entries ih =>
    rw [dirsBelow_eq, List.mem_flatMap]
    constructor
    · rintro ⟨⟨name, n⟩, he, hnames⟩
      obtain ⟨below, rfl, inner, hinner⟩ :=
        (mem_opened_iff fun _ => ih _ he (h.entry he)).1 hnames
      exact ⟨List.cons_ne_nil _ _, inner, h.get?_cons_iff.2 ⟨n, he, hinner⟩⟩
    · rintro ⟨hne, inner, hinner⟩
      obtain ⟨name, below, rfl⟩ := List.exists_cons_of_ne_nil hne
      obtain ⟨n, he, hinner⟩ := h.get?_cons_iff.1 hinner
      exact ⟨_, he, (mem_opened_iff fun _ => ih _ he (h.entry he)).2 ⟨below, rfl, inner, hinner⟩⟩

/-! ## Their order -/

/-- Entries come in the order of their names. -/
theorem pairwise_mergeSort {α : Type} {xs : List (String × α)} (h : (xs.map Prod.fst).Nodup) :
    (xs.mergeSort fun a b => a.1 ≤ b.1).Pairwise fun a b => a.1 < b.1 := by
  have hsorted : (xs.mergeSort fun a b => a.1 ≤ b.1).Pairwise
      fun a b => decide (a.1 ≤ b.1) = true := by
    refine List.pairwise_mergeSort (fun a b c hab hbc => ?_) (fun a b => ?_) xs
    · exact decide_eq_true (String.le_trans (of_decide_eq_true hab) (of_decide_eq_true hbc))
    · simpa using String.le_total a.1 b.1
  have hnodup : ((xs.mergeSort fun a b => a.1 ≤ b.1).map Prod.fst).Nodup :=
    (((List.mergeSort_perm xs _).map Prod.fst).nodup_iff).2 h
  rw [List.Nodup, List.pairwise_map] at hnodup
  exact (hsorted.and hnodup).imp fun ⟨hle, hne⟩ => Std.lt_of_le_of_ne (of_decide_eq_true hle) hne

theorem pairwise_filesBelow (h : n.Neat) : (n.filesBelow keep).Pairwise (· < ·) := by
  induction n using byEntries with
  | file bytes => simp [filesBelow]
  | link target => simp [filesBelow]
  | dir entries ih =>
    -- names with one entry in front compare by what is below it, others by their entries
    have hfound : ∀ e ∈ entries, (e.2.found keep e.1).Pairwise (· < ·) := by
      intro e he
      have hbelow := ih e he (h.entry he)
      cases hn : e.2 with
      | file bytes =>
        rw [found]
        split <;> simp
      | link target => simp [found, filesBelow]
      | dir inner => rwa [hn] at hbelow
    have hnames : ((entries.map fun e => (e.1, e.2.found keep e.1)).map Prod.fst).Nodup := by
      rw [List.map_map]
      exact h.nodup
    rw [filesBelow_eq, List.pairwise_flatMap]
    constructor
    · rintro ⟨name, belows⟩ hx
      rw [List.mem_mergeSort] at hx
      obtain ⟨e, he, heq⟩ := List.mem_map.1 hx
      cases heq
      rw [List.pairwise_map]
      exact (hfound e he).imp fun hlt => List.cons_lt_cons_iff.2 (.inr ⟨rfl, hlt⟩)
    · refine (pairwise_mergeSort hnames).imp fun hlt names hnames names' hnames' => ?_
      obtain ⟨below, -, rfl⟩ := List.mem_map.1 hnames
      obtain ⟨below', -, rfl⟩ := List.mem_map.1 hnames'
      exact List.cons_lt_cons_iff.2 (.inl hlt)

end Node

theorem Disk.Tidy.neat {d : Disk} (hd : d.Tidy) {loc : Location} {n : Node}
    (h : d.root.get? loc = some n) : n.Neat := by
  intro below entries hbelow
  refine hd.names (loc ++ below) entries ?_
  rw [Node.get?_append, h]
  exact hbelow

/-! ## Paths with names behind them -/

namespace Path

variable {p : Path} {names : List String}

/-- The names one by one or all at once. -/
theorem below_eq_join (hnames : names ≠ []) (hproper : ∀ name ∈ names, Proper name) :
    p.below names = p.join ("/".intercalate names) := by
  induction names generalizing p with
  | nil => exact absurd rfl hnames
  | cons name names ih =>
    rw [List.forall_mem_cons] at hproper
    by_cases hnil : names = []
    · rw [hnil, String.intercalate_singleton]
      rfl
    · have hmore : p.below (name :: names) = (p.join name).below names := rfl
      obtain ⟨-, hslash, -⟩ := join_name (p := p) hproper.1
      have htext : (p.join name).text ≠ "" := text_join_ne hproper.1.not_empty
      rw [hmore, ih hnil hproper.2, String.intercalate_cons_of_ne_nil hnil, join,
        if_neg (by simp [htext, hslash])]
      unfold join
      split <;> simp [String.append_assoc]

theorem steps_join (hnames : names ≠ []) (hproper : ∀ name ∈ names, Proper name) :
    (p.join ("/".intercalate names)).steps = p.steps ++ names.map .name := by
  obtain ⟨front, hjoin, hfront⟩ := exists_front p
  have hparts := parts_intercalate hnames fun name h => (hproper name h).no_slash
  have hsteps : names.filterMap step? = names.map .name := by
    rw [← List.filterMap_eq_map]
    refine List.filterMap_congr fun name hname => ?_
    have h := hproper name hname
    rw [step?, if_neg (by simp [h.not_empty, h.not_dot]), if_neg h.not_dots]
    rfl
  -- a proper name is no `.`, so the path starts with one only if the first one did
  have hdot : (front ++ names).head? = some "." ↔ p.parts.head? = some "." := by
    cases front with
    | nil =>
      obtain ⟨name, rest, rfl⟩ := List.exists_cons_of_ne_nil hnames
      have hname := (hproper name List.mem_cons_self).not_dot
      have hempty := hfront.resolve_left p.parts_ne_nil
      simp [hempty, hname]
    | cons first front => rcases hfront with h | h <;> simp [h]
  have hfilter : p.parts.filterMap step? = front.filterMap step? := by
    rcases hfront with h | h
    · rw [h]
    · rw [h, List.filterMap_append]
      exact List.append_nil _
  rw [steps, steps, hjoin, hparts, isAbsolute_join p hnames hproper, List.filterMap_append, hsteps,
    hfilter, List.append_assoc]
  simp only [hdot]

end Path

end Gloss
