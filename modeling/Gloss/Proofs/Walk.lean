import Gloss.Proofs.Tree
/-!
# Following a path

`Walks` has a case for each reason a walk has for its answer; it says all that
`walk` does (`walks_iff`), and what follows is by induction on it. `Leads` tells
how moves lead from one location to another, through every link on the way. It is
what a walk finds (`leads_iff`), it falls apart where a path does (`leads_append`),
and it stays true when more is put on the disk (`Leads.keeps`). An answer other
than that something is missing stays the same as well (`walk_keeps`).
-/

namespace Gloss.Disk

/-- Where a path starts. -/
def start (d : Disk) (p : Path) : Location := if p.isAbsolute then [] else d.here

/-- Where the text of a link leads from where it stands, and then the moves. -/
def follow (d : Disk) (goal : Goal) : Nat → Path → Location → List Move → Except Fault Place
  | 0, _, _, _ => .error .tooManyLinks
  | links + 1, target, loc, ms =>
    if target.text = "" then .error .notFound
    else d.walk goal links (if target.isAbsolute then [] else loc) (target.route ++ ms)

/-- The answer is not that something is missing. -/
def Settled (answer : Except Fault Place) : Prop :=
  answer ≠ .error .notFound ∧ ∀ dir name, answer ≠ .ok (.missing dir name)

variable {d e : Disk} {goal : Goal} {n n' : Nat} {loc loc' : Location} {m : Move}
  {ms more : List Move} {name : String}

/-! ## One move -/

theorem walk_eq (d : Disk) (goal : Goal) (n : Nat) :
    d.walk goal n = d.walkWith goal (d.follow goal n) := by
  cases n <;> rfl

@[simp] theorem walk_nil : d.walk goal n loc [] = .ok (.found loc) := by
  rw [walk_eq]
  rfl

theorem walk_none (h : d.look? loc = none) : d.walk goal n loc (m :: ms) = .error .notFound := by
  rw [look?, Option.map_eq_none_iff] at h
  rw [walk_eq, walkWith, h]

theorem walk_not_dir {x : Entry} (h : d.look? loc = some x) (hx : x ≠ .dir) :
    d.walk goal n loc (m :: ms) = .error .notADirectory := by
  obtain ⟨node, hnode, rfl⟩ := Option.map_eq_some_iff.1 h
  rw [walk_eq, walkWith, hnode]
  cases node with
  | dir es => exact absurd rfl hx
  | _ => rfl

theorem walk_idle (h : d.look? loc = some .dir) (hm : m = .stay ∨ m = .slash) :
    d.walk goal n loc (m :: ms) = d.walk goal n loc ms := by
  obtain ⟨es, hes⟩ := look?_eq_dir_iff.1 h
  rw [walk_eq, walkWith, hes]
  rcases hm with rfl | rfl <;> rfl

theorem walk_up (h : d.look? loc = some .dir) :
    d.walk goal n loc (.up :: ms) = d.walk goal n loc.dropLast ms := by
  obtain ⟨es, hes⟩ := look?_eq_dir_iff.1 h
  rw [walk_eq, walkWith, hes]

theorem walk_down (h : d.look? loc = some .dir) :
    d.walk goal n loc (.down name :: ms) =
      if goal = .file ∧ ms = [.slash] then .error .isADirectory
      else if maxName < name.utf8ByteSize then .error .nameTooLong
      else
        match d.look? (loc ++ [name]) with
        | none => if ms = [] then .ok (.missing loc name) else .error .notFound
        | some (.link target) =>
          if ms = [] ∧ goal = .entry then .ok (.found (loc ++ [name]))
          else d.follow goal n target loc ms
        | some _ => d.walk goal n (loc ++ [name]) ms := by
  obtain ⟨es, hes⟩ := look?_eq_dir_iff.1 h
  rw [look?_below hes, walk_eq, walkWith, hes]
  dsimp only
  cases es.lookup name with
  | none => rfl
  | some node => cases node <;> rfl

/-- Induction along a walk: the moves get fewer, or a link is used up. -/
theorem byWalk {motive : Nat → List Move → Prop} (nil : ∀ n, motive n [])
    (cons : ∀ n m ms, motive n ms → (∀ k target, n = k + 1 → motive k (Path.route target ++ ms)) →
      motive n (m :: ms)) : ∀ n ms, motive n ms
  | n, [] => nil n
  | 0, m :: ms => cons 0 m ms (byWalk nil cons 0 ms) nofun
  | k + 1, m :: ms => cons (k + 1) m ms (byWalk nil cons (k + 1) ms) fun k' target _ =>
      byWalk nil cons k' (target.route ++ ms)
termination_by n ms => (n, ms.length)

/-- What a walk answers, and why. -/
inductive Walks (d : Disk) (goal : Goal) : Nat → Location → List Move → Except Fault Place → Prop
  | here {n : Nat} {loc : Location} : Walks d goal n loc [] (.ok (.found loc))
  | nowhere {n : Nat} {loc : Location} {m : Move} {ms : List Move} :
      d.look? loc = none → Walks d goal n loc (m :: ms) (.error .notFound)
  | blocked {n : Nat} {loc : Location} {x : Entry} {m : Move} {ms : List Move} :
      d.look? loc = some x → x ≠ .dir → Walks d goal n loc (m :: ms) (.error .notADirectory)
  | idle {n : Nat} {loc : Location} {m : Move} {ms : List Move} {answer : Except Fault Place} :
      d.look? loc = some .dir → m = .stay ∨ m = .slash → Walks d goal n loc ms answer →
      Walks d goal n loc (m :: ms) answer
  | up {n : Nat} {loc : Location} {ms : List Move} {answer : Except Fault Place} :
      d.look? loc = some .dir → Walks d goal n loc.dropLast ms answer →
      Walks d goal n loc (.up :: ms) answer
  /-- A slash behind the name of a file to write. -/
  | slash {n : Nat} {loc : Location} {name : String} :
      d.look? loc = some .dir → goal = .file →
      Walks d goal n loc [.down name, .slash] (.error .isADirectory)
  | long {n : Nat} {loc : Location} {name : String} {ms : List Move} :
      d.look? loc = some .dir → ¬ (goal = .file ∧ ms = [.slash]) → maxName < name.utf8ByteSize →
      Walks d goal n loc (.down name :: ms) (.error .nameTooLong)
  | missing {n : Nat} {loc : Location} {name : String} :
      d.look? loc = some .dir → name.utf8ByteSize ≤ maxName → d.look? (loc ++ [name]) = none →
      Walks d goal n loc [.down name] (.ok (.missing loc name))
  | lost {n : Nat} {loc : Location} {name : String} {ms : List Move} :
      d.look? loc = some .dir → ¬ (goal = .file ∧ ms = [.slash]) → name.utf8ByteSize ≤ maxName →
      d.look? (loc ++ [name]) = none → ms ≠ [] →
      Walks d goal n loc (.down name :: ms) (.error .notFound)
  | down {n : Nat} {loc : Location} {name : String} {x : Entry} {ms : List Move}
      {answer : Except Fault Place} :
      d.look? loc = some .dir → ¬ (goal = .file ∧ ms = [.slash]) → name.utf8ByteSize ≤ maxName →
      d.look? (loc ++ [name]) = some x → (∀ target, x ≠ .link target) →
      Walks d goal n (loc ++ [name]) ms answer → Walks d goal n loc (.down name :: ms) answer
  /-- A link that is asked for itself. -/
  | name {n : Nat} {loc : Location} {name : String} {target : Path} :
      d.look? loc = some .dir → goal = .entry → name.utf8ByteSize ≤ maxName →
      d.look? (loc ++ [name]) = some (.link target) →
      Walks d goal n loc [.down name] (.ok (.found (loc ++ [name])))
  | loop {loc : Location} {name : String} {target : Path} {ms : List Move} :
      d.look? loc = some .dir → ¬ (goal = .file ∧ ms = [.slash]) → name.utf8ByteSize ≤ maxName →
      d.look? (loc ++ [name]) = some (.link target) → ¬ (ms = [] ∧ goal = .entry) →
      Walks d goal 0 loc (.down name :: ms) (.error .tooManyLinks)
  | blank {n : Nat} {loc : Location} {name : String} {target : Path} {ms : List Move} :
      d.look? loc = some .dir → ¬ (goal = .file ∧ ms = [.slash]) → name.utf8ByteSize ≤ maxName →
      d.look? (loc ++ [name]) = some (.link target) → ¬ (ms = [] ∧ goal = .entry) →
      target.text = "" → Walks d goal (n + 1) loc (.down name :: ms) (.error .notFound)
  | link {n : Nat} {loc : Location} {name : String} {target : Path} {ms : List Move}
      {answer : Except Fault Place} :
      d.look? loc = some .dir → ¬ (goal = .file ∧ ms = [.slash]) → name.utf8ByteSize ≤ maxName →
      d.look? (loc ++ [name]) = some (.link target) → ¬ (ms = [] ∧ goal = .entry) →
      target.text ≠ "" →
      Walks d goal n (if target.isAbsolute then [] else loc) (target.route ++ ms) answer →
      Walks d goal (n + 1) loc (.down name :: ms) answer

theorem Walks.eq {answer : Except Fault Place} (h : d.Walks goal n loc ms answer) :
    d.walk goal n loc ms = answer := by
  induction h with
  | here => exact walk_nil
  | nowhere h => exact walk_none h
  | blocked hx hne => exact walk_not_dir hx hne
  | idle hdir hm _ ih => rw [walk_idle hdir hm, ih]
  | up hdir _ ih => rw [walk_up hdir, ih]
  | slash hdir hgoal => rw [walk_down hdir, if_pos ⟨hgoal, rfl⟩]
  | long hdir hfile hsize => rw [walk_down hdir, if_neg hfile, if_pos hsize]
  | missing hdir hsize hnone =>
    rw [walk_down hdir, if_neg (by simp), if_neg (Nat.not_lt.2 hsize), hnone]
    rfl
  | lost hdir hfile hsize hnone hms =>
    rw [walk_down hdir, if_neg hfile, if_neg (Nat.not_lt.2 hsize), hnone]
    exact if_neg hms
  | @down _ _ _ x _ _ hdir hfile hsize hx hlink _ ih =>
    rw [walk_down hdir, if_neg hfile, if_neg (Nat.not_lt.2 hsize), hx]
    cases x with
    | link target => exact absurd rfl (hlink target)
    | _ => exact ih
  | name hdir hgoal hsize hx =>
    rw [walk_down hdir, if_neg (by simp), if_neg (Nat.not_lt.2 hsize), hx]
    exact if_pos ⟨rfl, hgoal⟩
  | loop hdir hfile hsize hx hentry =>
    rw [walk_down hdir, if_neg hfile, if_neg (Nat.not_lt.2 hsize), hx]
    exact if_neg hentry
  | blank hdir hfile hsize hx hentry htarget =>
    rw [walk_down hdir, if_neg hfile, if_neg (Nat.not_lt.2 hsize), hx]
    exact (if_neg hentry).trans (if_pos htarget)
  | link hdir hfile hsize hx hentry htarget _ ih =>
    rw [walk_down hdir, if_neg hfile, if_neg (Nat.not_lt.2 hsize), hx]
    exact (if_neg hentry).trans ((if_neg htarget).trans ih)

theorem exists_walks (d : Disk) (goal : Goal) (n : Nat) (loc : Location) (ms : List Move) :
    ∃ answer, d.Walks goal n loc ms answer := by
  revert loc
  induction n, ms using byWalk with
  | nil n => exact fun loc => ⟨_, .here⟩
  | cons n m ms ih ihlink =>
    intro loc
    cases hloc : d.look? loc with
    | none => exact ⟨_, .nowhere hloc⟩
    | some x =>
      by_cases hdir : x = .dir
      · subst hdir
        cases m with
        | stay | slash => exact (ih loc).imp fun _ => .idle hloc (by simp)
        | up => exact (ih _).imp fun _ => .up hloc
        | down name =>
          by_cases hfile : goal = .file ∧ ms = [.slash]
          · obtain ⟨hgoal, rfl⟩ := hfile
            exact ⟨_, .slash hloc hgoal⟩
          by_cases hsize : maxName < name.utf8ByteSize
          · exact ⟨_, .long hloc hfile hsize⟩
          have hsize := Nat.not_lt.1 hsize
          cases hx : d.look? (loc ++ [name]) with
          | none =>
            by_cases hms : ms = []
            · subst hms
              exact ⟨_, .missing hloc hsize hx⟩
            · exact ⟨_, .lost hloc hfile hsize hx hms⟩
          | some x =>
            cases x with
            | link target =>
              by_cases hentry : ms = [] ∧ goal = .entry
              · obtain ⟨rfl, hgoal⟩ := hentry
                exact ⟨_, .name hloc hgoal hsize hx⟩
              cases n with
              | zero => exact ⟨_, .loop hloc hfile hsize hx hentry⟩
              | succ k =>
                by_cases htarget : target.text = ""
                · exact ⟨_, .blank hloc hfile hsize hx hentry htarget⟩
                · exact (ihlink k target rfl _).imp fun _ =>
                    .link hloc hfile hsize hx hentry htarget
            | _ => exact (ih _).imp fun _ => .down hloc hfile hsize hx nofun
      · exact ⟨_, .blocked hloc hdir⟩

theorem walks_iff {answer : Except Fault Place} :
    d.walk goal n loc ms = answer ↔ d.Walks goal n loc ms answer := by
  refine ⟨?_, Walks.eq⟩
  rintro rfl
  obtain ⟨answer, h⟩ := exists_walks d goal n loc ms
  rwa [h.eq]

/-! ## All moves -/

/-- The moves lead from one location to the other. `n` links may be followed before,
and `n'` are left then. -/
inductive Leads (d : Disk) : Nat → Location → List Move → Nat → Location → Prop
  | here {n : Nat} {loc : Location} : Leads d n loc [] n loc
  | idle {n n' : Nat} {loc loc' : Location} {m : Move} {ms : List Move} :
      d.look? loc = some .dir → m = .stay ∨ m = .slash → Leads d n loc ms n' loc' →
      Leads d n loc (m :: ms) n' loc'
  | up {n n' : Nat} {loc loc' : Location} {ms : List Move} :
      d.look? loc = some .dir → Leads d n loc.dropLast ms n' loc' →
      Leads d n loc (.up :: ms) n' loc'
  | down {n n' : Nat} {loc loc' : Location} {name : String} {x : Entry} {ms : List Move} :
      d.look? loc = some .dir → name.utf8ByteSize ≤ maxName → d.look? (loc ++ [name]) = some x →
      (∀ target, x ≠ .link target) → Leads d n (loc ++ [name]) ms n' loc' →
      Leads d n loc (.down name :: ms) n' loc'
  | link {n n' : Nat} {loc loc' : Location} {name : String} {target : Path} {ms : List Move} :
      d.look? loc = some .dir → name.utf8ByteSize ≤ maxName →
      d.look? (loc ++ [name]) = some (.link target) → target.text ≠ "" →
      Leads d n (if target.isAbsolute then [] else loc) (target.route ++ ms) n' loc' →
      Leads d (n + 1) loc (.down name :: ms) n' loc'

/-- A walk along moves that lead somewhere goes on from there. Only a walk to a
node may end there: others look at what comes last. -/
theorem Leads.walk_append (h : d.Leads n loc ms n' loc')
    (hmore : goal = .node ∨ more ≠ [] ∧ (goal = .file → more ≠ [.slash])) :
    d.walk goal n loc (ms ++ more) = d.walk goal n' loc' more := by
  have hfile : ∀ ms : List Move, ¬ (goal = .file ∧ ms ++ more = [.slash]) := by
    rintro ms ⟨rfl, hms⟩
    obtain ⟨hne, hslash⟩ := hmore.resolve_left nofun
    rcases ms with _ | ⟨m, ms⟩
    · exact hslash rfl hms
    · simp [hne] at hms
  have hentry : ∀ ms : List Move, ¬ (ms ++ more = [] ∧ goal = .entry) := by
    rintro ms ⟨hms, rfl⟩
    exact (hmore.resolve_left nofun).1 (List.append_eq_nil_iff.1 hms).2
  induction h with
  | here => rfl
  | idle hdir hm _ ih => rw [List.cons_append, walk_idle hdir hm, ih]
  | up hdir _ ih => rw [List.cons_append, walk_up hdir, ih]
  | @down _ _ _ _ _ x _ hdir hsize hx hlink _ ih =>
    rw [List.cons_append, walk_down hdir, if_neg (hfile _), if_neg (Nat.not_lt.2 hsize), hx]
    cases x with
    | link target => exact absurd rfl (hlink target)
    | _ => exact ih
  | link hdir hsize hx htarget _ ih =>
    rw [List.cons_append, walk_down hdir, if_neg (hfile _), if_neg (Nat.not_lt.2 hsize), hx]
    dsimp only
    rw [if_neg (hentry _), follow, if_neg htarget, ← List.append_assoc, ih]

theorem leads_of_walk (h : d.walk .node n loc ms = .ok (.found loc')) :
    ∃ n', d.Leads n loc ms n' loc' := by
  rw [walks_iff] at h
  generalize hanswer : Except.ok (Place.found loc') = answer at h
  induction h with
  | here => cases hanswer; exact ⟨_, .here⟩
  | idle hdir hm _ ih =>
    obtain ⟨n', hn⟩ := ih hanswer
    exact ⟨n', .idle hdir hm hn⟩
  | up hdir _ ih =>
    obtain ⟨n', hn⟩ := ih hanswer
    exact ⟨n', .up hdir hn⟩
  | down hdir _ hsize hx hlink _ ih =>
    obtain ⟨n', hn⟩ := ih hanswer
    exact ⟨n', .down hdir hsize hx hlink hn⟩
  | link hdir _ hsize hx _ htarget _ ih =>
    obtain ⟨n', hn⟩ := ih hanswer
    exact ⟨n', .link hdir hsize hx htarget hn⟩
  | name _ hgoal => cases hgoal
  | _ => cases hanswer

/-- What a walk finds is what the moves lead to. -/
theorem leads_iff : d.walk .node n loc ms = .ok (.found loc') ↔ ∃ n', d.Leads n loc ms n' loc' := by
  refine ⟨leads_of_walk, ?_⟩
  rintro ⟨n', h⟩
  have hwalk : d.walk .node n loc (ms ++ []) = d.walk .node n' loc' [] := h.walk_append (.inl rfl)
  rwa [List.append_nil, walk_nil] at hwalk

/-- Moves one behind the other lead where they lead one after the other. -/
theorem leads_append : d.Leads n loc (ms ++ more) n' loc' ↔
    ∃ k mid, d.Leads n loc ms k mid ∧ d.Leads k mid more n' loc' := by
  constructor
  · intro h
    generalize hall : ms ++ more = all at h
    induction h generalizing ms with
    | here =>
      obtain ⟨rfl, rfl⟩ := List.append_eq_nil_iff.1 hall
      exact ⟨_, _, .here, .here⟩
    | idle hdir hm hrest ih =>
      rcases List.append_eq_cons_iff.1 hall with ⟨rfl, rfl⟩ | ⟨ms, rfl, rfl⟩
      · exact ⟨_, _, .here, .idle hdir hm hrest⟩
      · obtain ⟨k, mid, hfront, hback⟩ := ih rfl
        exact ⟨k, mid, .idle hdir hm hfront, hback⟩
    | up hdir hrest ih =>
      rcases List.append_eq_cons_iff.1 hall with ⟨rfl, rfl⟩ | ⟨ms, rfl, rfl⟩
      · exact ⟨_, _, .here, .up hdir hrest⟩
      · obtain ⟨k, mid, hfront, hback⟩ := ih rfl
        exact ⟨k, mid, .up hdir hfront, hback⟩
    | down hdir hsize hx hlink hrest ih =>
      rcases List.append_eq_cons_iff.1 hall with ⟨rfl, rfl⟩ | ⟨ms, rfl, rfl⟩
      · exact ⟨_, _, .here, .down hdir hsize hx hlink hrest⟩
      · obtain ⟨k, mid, hfront, hback⟩ := ih rfl
        exact ⟨k, mid, .down hdir hsize hx hlink hfront, hback⟩
    | link hdir hsize hx htarget hrest ih =>
      rcases List.append_eq_cons_iff.1 hall with ⟨rfl, rfl⟩ | ⟨ms, rfl, rfl⟩
      · exact ⟨_, _, .here, .link hdir hsize hx htarget hrest⟩
      · obtain ⟨k, mid, hfront, hback⟩ := ih (List.append_assoc ..)
        exact ⟨k, mid, .link hdir hsize hx htarget hfront, hback⟩
  · rintro ⟨k, mid, hfront, hback⟩
    induction hfront with
    | here => exact hback
    | idle hdir hm _ ih => exact .idle hdir hm (ih hback)
    | up hdir _ ih => exact .up hdir (ih hback)
    | down hdir hsize hx hlink _ ih => exact .down hdir hsize hx hlink (ih hback)
    | link hdir hsize hx htarget _ ih =>
      exact .link hdir hsize hx htarget (List.append_assoc .. ▸ ih hback)

theorem Leads.unique {k : Nat} {mid : Location} (h : d.Leads n loc ms n' loc')
    (h' : d.Leads n loc ms k mid) : k = n' ∧ mid = loc' := by
  induction h with
  | here => cases h'; exact ⟨rfl, rfl⟩
  | idle hdir hm _ ih =>
    cases h' with
    | idle _ _ hrest => exact ih hrest
    | _ => simp at hm
  | up hdir _ ih =>
    cases h' with
    | idle _ hm _ => simp at hm
    | up _ hrest => exact ih hrest
  | down hdir hsize hx hlink _ ih =>
    cases h' with
    | idle _ hm _ => simp at hm
    | down _ _ _ _ hrest => exact ih hrest
    | link _ _ hx' _ _ => exact absurd (Option.some.inj (hx.symm.trans hx')) (hlink _)
  | link hdir hsize hx htarget _ ih =>
    cases h' with
    | idle _ hm _ => simp at hm
    | down _ _ hx' hlink _ => exact absurd (Option.some.inj (hx'.symm.trans hx)) (hlink _)
    | link _ _ hx' _ hrest =>
      cases hx.symm.trans hx'
      exact ih hrest

theorem Leads.of_stay (hms : ∀ m ∈ ms, m = .stay) (h : d.look? loc = some .dir) :
    d.Leads n loc ms n loc := by
  induction ms with
  | nil => exact .here
  | cons m ms ih =>
    rw [List.forall_mem_cons] at hms
    exact .idle h (.inl hms.1) (ih hms.2)

/-- Idle moves lead nowhere else. -/
theorem Leads.of_idle (hms : ∀ m ∈ ms, m = .stay) (h : d.Leads n loc ms n' loc') :
    n' = n ∧ loc' = loc := by
  induction h with
  | here => exact ⟨rfl, rfl⟩
  | idle _ _ _ ih => exact ih fun m hm => hms m (List.mem_cons_of_mem _ hm)
  | up | down | link => exact absurd (hms _ List.mem_cons_self) nofun

/-- What a path leads to on a disk it leads to still when more is put there. -/
theorem Leads.keeps (hk : d.Keeps e) (h : d.Leads n loc ms n' loc') : e.Leads n loc ms n' loc' := by
  induction h with
  | here => exact .here
  | idle hdir hm _ ih => exact .idle (hk.entries _ _ hdir) hm ih
  | up hdir _ ih => exact .up (hk.entries _ _ hdir) ih
  | down hdir hsize hx hlink _ ih =>
    exact .down (hk.entries _ _ hdir) hsize (hk.entries _ _ hx) hlink ih
  | link hdir hsize hx htarget _ ih =>
    exact .link (hk.entries _ _ hdir) hsize (hk.entries _ _ hx) htarget ih

/-- From something that is there moves lead to something that is there. -/
theorem Leads.look? {x : Entry} (hroot : d.look? [] = some .dir) (h : d.Leads n loc ms n' loc')
    (hx : d.look? loc = some x) : ∃ y, d.look? loc' = some y := by
  induction h generalizing x with
  | here => exact ⟨x, hx⟩
  | idle hdir _ _ ih => exact ih hdir
  | @up _ _ loc _ _ hdir _ ih =>
    by_cases hnil : loc = []
    · subst hnil
      exact ih hdir
    · have hlast : d.look? (loc.dropLast ++ [loc.getLast hnil]) = some .dir := by
        rwa [List.dropLast_concat_getLast]
      exact ih (look?_dir_of_below hlast)
  | down _ _ hy _ _ ih => exact ih hy
  | @link _ _ loc _ _ target _ hdir _ _ _ _ ih =>
    by_cases habs : target.isAbsolute = true
    · simp only [habs, if_true] at ih
      exact ih hroot
    · simp only [habs] at ih
      exact ih hdir

/-! ## What a walk answers -/

/-- What is missing is missing in a directory. -/
theorem walk_missing {dir : Location} (h : d.walk goal n loc ms = .ok (.missing dir name)) :
    d.look? dir = some .dir ∧ d.look? (dir ++ [name]) = none := by
  rw [walks_iff] at h
  generalize hanswer : Except.ok (Place.missing dir name) = answer at h
  induction h with
  | idle _ _ _ ih | up _ _ ih | down _ _ _ _ _ _ ih | link _ _ _ _ _ _ _ ih => exact ih hanswer
  | missing hdir _ hnone =>
    cases hanswer
    exact ⟨hdir, hnone⟩
  | _ => cases hanswer

/-- An entry that is missing is asked for by the last move, from where the others
lead. -/
theorem leads_of_missing {dir : Location} (h : d.walk .entry n loc ms = .ok (.missing dir name)) :
    ∃ front n', ms = front ++ [.down name] ∧ d.Leads n loc front n' dir ∧
      name.utf8ByteSize ≤ maxName := by
  rw [walks_iff] at h
  generalize hanswer : Except.ok (Place.missing dir name) = answer at h
  induction h with
  | missing _ hsize =>
    cases hanswer
    exact ⟨[], _, rfl, .here, hsize⟩
  | idle hdir hm _ ih =>
    obtain ⟨front, n', rfl, hfront, hsize⟩ := ih hanswer
    exact ⟨_ :: front, n', rfl, .idle hdir hm hfront, hsize⟩
  | up hdir _ ih =>
    obtain ⟨front, n', rfl, hfront, hsize⟩ := ih hanswer
    exact ⟨_ :: front, n', rfl, .up hdir hfront, hsize⟩
  | down hdir _ hshort hx hlink _ ih =>
    obtain ⟨front, n', rfl, hfront, hsize⟩ := ih hanswer
    exact ⟨_ :: front, n', rfl, .down hdir hshort hx hlink hfront, hsize⟩
  | @link _ _ _ target ms _ hdir _ hshort hx hentry htarget _ ih =>
    obtain ⟨front, n', hms, hfront, hsize⟩ := ih hanswer
    have hne : ms ≠ [] := fun hnil => hentry ⟨hnil, rfl⟩
    obtain ⟨rest, m, rfl⟩ := (List.eq_nil_or_concat ms).resolve_left hne
    rw [List.concat_eq_append, ← List.append_assoc] at hms
    obtain ⟨rfl, hm⟩ := List.append_inj' hms rfl
    cases hm
    exact ⟨_ :: rest, n', List.concat_eq_append .. ▸ rfl, .link hdir hshort hx htarget hfront,
      hsize⟩
  | _ => cases hanswer

/-- A walk to a file to write goes as one to any node, but for a slash at the end. -/
theorem walk_file (d : Disk) (n : Nat) (loc : Location) (ms : List Move) :
    d.walk .file n loc ms = .error .isADirectory ∨
      d.walk .file n loc ms = d.walk .node n loc ms := by
  obtain ⟨answer, h⟩ := exists_walks d .file n loc ms
  rw [h.eq, eq_comm (b := d.walk ..), walks_iff]
  induction h with
  | slash => exact .inl rfl
  | name _ hgoal => cases hgoal
  | here => exact .inr .here
  | nowhere h => exact .inr (.nowhere h)
  | blocked hx hne => exact .inr (.blocked hx hne)
  | idle hdir hm _ ih => exact ih.imp_right (.idle hdir hm)
  | up hdir _ ih => exact ih.imp_right (.up hdir)
  | long hdir _ hsize => exact .inr (.long hdir nofun hsize)
  | missing hdir hsize hnone => exact .inr (.missing hdir hsize hnone)
  | lost hdir _ hsize hnone hne => exact .inr (.lost hdir nofun hsize hnone hne)
  | down hdir _ hsize hx hlink _ ih => exact ih.imp_right (.down hdir nofun hsize hx hlink)
  | loop hdir _ hsize hx _ => exact .inr (.loop hdir nofun hsize hx nofun)
  | blank hdir _ hsize hx _ htarget => exact .inr (.blank hdir nofun hsize hx nofun htarget)
  | link hdir _ hsize hx _ htarget _ ih =>
    exact ih.imp_right (.link hdir nofun hsize hx nofun htarget)

/-- A walk to an entry goes as one to any node, unless it finds an entry: that may
be a link which leads elsewhere or nowhere. -/
theorem walk_entry (d : Disk) (n : Nat) (loc : Location) (ms : List Move) :
    (∃ loc', d.walk .entry n loc ms = .ok (.found loc')) ∨
      d.walk .entry n loc ms = d.walk .node n loc ms := by
  obtain ⟨answer, h⟩ := exists_walks d .entry n loc ms
  rw [h.eq, eq_comm (b := d.walk ..), walks_iff]
  induction h with
  | here => exact .inr .here
  | name => exact .inl ⟨_, rfl⟩
  | slash _ hgoal => cases hgoal
  | nowhere h => exact .inr (.nowhere h)
  | blocked hx hne => exact .inr (.blocked hx hne)
  | idle hdir hm _ ih => exact ih.imp_right (.idle hdir hm)
  | up hdir _ ih => exact ih.imp_right (.up hdir)
  | long hdir _ hsize => exact .inr (.long hdir nofun hsize)
  | missing hdir hsize hnone => exact .inr (.missing hdir hsize hnone)
  | lost hdir _ hsize hnone hne => exact .inr (.lost hdir nofun hsize hnone hne)
  | down hdir _ hsize hx hlink _ ih => exact ih.imp_right (.down hdir nofun hsize hx hlink)
  | loop hdir _ hsize hx _ => exact .inr (.loop hdir nofun hsize hx nofun)
  | blank hdir _ hsize hx _ htarget => exact .inr (.blank hdir nofun hsize hx nofun htarget)
  | link hdir _ hsize hx _ htarget _ ih =>
    exact ih.imp_right (.link hdir nofun hsize hx nofun htarget)

/-! ## Settled answers -/

@[simp] theorem settled_found : Settled (.ok (.found loc)) := ⟨nofun, nofun⟩

@[simp] theorem not_settled_missing {dir : Location} : ¬ Settled (.ok (.missing dir name)) :=
  fun h => h.2 dir name rfl

@[simp] theorem settled_error_iff {fault : Fault} : Settled (.error fault) ↔ fault ≠ .notFound :=
  ⟨fun h hf => h.1 (hf ▸ rfl), fun h => ⟨fun he => h (Except.error.inj he), nofun⟩⟩

theorem settled_of_node (goal : Goal) (h : Settled (d.walk .node n loc ms)) :
    Settled (d.walk goal n loc ms) := by
  cases goal with
  | node => exact h
  | entry =>
    rcases walk_entry d n loc ms with ⟨loc', hfound⟩ | hsame
    · rw [hfound]
      exact settled_found
    · rwa [hsame]
  | file =>
    rcases walk_file d n loc ms with hdir | hsame
    · rw [hdir]
      exact settled_error_iff.2 nofun
    · rwa [hsame]

theorem Walks.keeps {answer : Except Fault Place} (hk : d.Keeps e)
    (h : d.Walks goal n loc ms answer) (hs : Settled answer) : e.Walks goal n loc ms answer := by
  induction h with
  | here => exact .here
  | nowhere | lost | blank => exact absurd rfl hs.1
  | missing => exact absurd hs not_settled_missing
  | blocked hx hne => exact .blocked (hk.entries _ _ hx) hne
  | idle hdir hm _ ih => exact .idle (hk.entries _ _ hdir) hm (ih hs)
  | up hdir _ ih => exact .up (hk.entries _ _ hdir) (ih hs)
  | slash hdir hgoal => exact .slash (hk.entries _ _ hdir) hgoal
  | long hdir hfile hsize => exact .long (hk.entries _ _ hdir) hfile hsize
  | down hdir hfile hsize hx hlink _ ih =>
    exact .down (hk.entries _ _ hdir) hfile hsize (hk.entries _ _ hx) hlink (ih hs)
  | name hdir hgoal hsize hx => exact .name (hk.entries _ _ hdir) hgoal hsize (hk.entries _ _ hx)
  | loop hdir hfile hsize hx hentry =>
    exact .loop (hk.entries _ _ hdir) hfile hsize (hk.entries _ _ hx) hentry
  | link hdir hfile hsize hx hentry htarget _ ih =>
    exact .link (hk.entries _ _ hdir) hfile hsize (hk.entries _ _ hx) hentry htarget (ih hs)

/-- A settled answer stays when more is put on the disk. -/
theorem walk_keeps (hk : d.Keeps e) (h : Settled (d.walk goal n loc ms)) :
    e.walk goal n loc ms = d.walk goal n loc ms :=
  ((walks_iff.1 rfl).keeps hk h).eq

/-- Where moves lead nowhere, those with more behind them fail. -/
theorem Walks.append_error {fault : Fault} (h : d.Walks .node n loc ms (.error fault)) :
    d.Walks .node n loc (ms ++ more) (.error fault) := by
  generalize hanswer : Except.error fault = answer at h
  induction h with
  | here | missing => cases hanswer
  | slash _ hgoal | name _ hgoal => cases hgoal
  | nowhere h => exact .nowhere h
  | blocked hx hne => exact .blocked hx hne
  | idle hdir hm _ ih => exact .idle hdir hm (ih hanswer)
  | up hdir _ ih => exact .up hdir (ih hanswer)
  | long hdir _ hsize => exact .long hdir nofun hsize
  | lost hdir _ hsize hnone hne => exact .lost hdir nofun hsize hnone (by simp [hne])
  | down hdir _ hsize hx hlink _ ih => exact .down hdir nofun hsize hx hlink (ih hanswer)
  | loop hdir _ hsize hx _ => exact .loop hdir nofun hsize hx nofun
  | blank hdir _ hsize hx _ htarget => exact .blank hdir nofun hsize hx nofun htarget
  | link hdir _ hsize hx _ htarget _ ih =>
    exact .link hdir nofun hsize hx nofun htarget (List.append_assoc .. ▸ ih hanswer)

theorem Walks.append_missing {dir : Location} (h : d.Walks .node n loc ms (.ok (.missing dir name)))
    (hmore : more ≠ []) : d.Walks .node n loc (ms ++ more) (.error .notFound) := by
  generalize hanswer : Except.ok (Place.missing dir name) = answer at h
  induction h with
  | idle hdir hm _ ih => exact .idle hdir hm (ih hanswer)
  | up hdir _ ih => exact .up hdir (ih hanswer)
  | missing hdir hsize hnone => exact .lost hdir nofun hsize hnone hmore
  | down hdir _ hsize hx hlink _ ih => exact .down hdir nofun hsize hx hlink (ih hanswer)
  | link hdir _ hsize hx _ htarget _ ih =>
    exact .link hdir nofun hsize hx nofun htarget (List.append_assoc .. ▸ ih hanswer)
  | _ => cases hanswer

/-- What comes first on a settled way is settled. -/
theorem settled_of_append (h : Settled (d.walk .node n loc (ms ++ more))) :
    Settled (d.walk .node n loc ms) := by
  cases hw : d.walk .node n loc ms with
  | error fault => rwa [(walks_iff.1 hw).append_error.eq] at h
  | ok place =>
    cases place with
    | found => exact settled_found
    | missing dir name =>
      by_cases hmore : more = []
      · subst hmore
        rwa [List.append_nil, hw] at h
      · rw [((walks_iff.1 hw).append_missing hmore).eq] at h
        exact absurd rfl h.1

end Gloss.Disk
