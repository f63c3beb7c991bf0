import TrashDb.Lib.FileSystem

/-!
This module contains the file systems that are trees of directories and files, without symbolic links.
A node is the list of the names that lead to it, the last one first. A path is resolved name by name,
every directory on the way has to be one that can be searched. The trees are an instance of the file
systems of `FileSystem`.
-/

namespace DirTree

abbrev Name := List UInt8

abbrev Node := List Name

def slash : UInt8 := 47

def dot : Name := [46]

def dotDot : Name := [46, 46]

inductive Kind where
  | dir
  | file
  deriving DecidableEq, Repr

end DirTree

/--
`search` and `writable` are the permissions of the directories, also of those that do not exist yet.
-/
structure DirTree where
  kind : DirTree.Node → Option DirTree.Kind
  cwd : DirTree.Node
  search : DirTree.Node → Bool
  writable : DirTree.Node → Bool
  root_dir : kind [] = some .dir
  cwd_dir : kind cwd = some .dir
  closed : ∀ name node, kind (name :: node) ≠ none → kind node = some .dir

namespace DirTree

variable {t : DirTree}

def components : Pathname → List Name
  | [] => [[]]
  | c :: path =>
    if c = slash then
      [] :: components path
    else
      match components path with
      | [] => [[c]]
      | name :: names => (c :: name) :: names

def next (node : Node) (name : Name) : Node :=
  if name = [] ∨ name = dot then node else if name = dotDot then node.tail else name :: node

def step (t : DirTree) (node : Node) (name : Name) : Except Errno Node :=
  if t.kind node ≠ some .dir then
    .error .enotdir
  else if name ≠ [] ∧ t.search node = false then
    .error .eacces
  else if t.kind (next node name) = none then
    .error .enoent
  else
    .ok (next node name)

def walk (t : DirTree) (node : Node) : List Name → Except Errno Node
  | [] => .ok node
  | name :: names =>
    match t.step node name with
    | .ok node => t.walk node names
    | .error e => .error e

/--
The directory that is to be created, only slashes may come after its name.
-/
def place (t : DirTree) (node : Node) : List Name → Except Errno Node
  | [] => .error .eexist
  | name :: names =>
    match t.step node name with
    | .ok node => t.place node names
    | .error .enoent =>
      if ∀ name ∈ names, name = [] then
        if t.writable node then .ok (name :: node) else .error .eacces
      else
        .error .enoent
    | .error e => .error e

def start (t : DirTree) (path : Pathname) : Node := if path.head? = some slash then [] else t.cwd

def stat (t : DirTree) (path : Pathname) : Except Errno Node :=
  if path = [] then .error .enoent else t.walk (t.start path) (components path)

def canon (t : DirTree) (path : Pathname) : Node := (components path).foldl next (t.start path)

theorem kind_tail {node : Node} (h : t.kind node ≠ none) : t.kind node.tail ≠ none := by
  cases node with
  | nil => exact h
  | cons name node =>
    rw [List.tail_cons, t.closed name node h]
    nofun

theorem step_ok {node node' : Node} {name : Name} (h : t.step node name = .ok node')
    : node' = next node name ∧ t.kind node' ≠ none := by
  unfold step at h
  split at h
  . cases h
  . split at h
    . cases h
    . split at h
      . cases h
      . next hkind =>
        cases h
        exact ⟨rfl, hkind⟩

theorem step_error {node : Node} {name : Name} {e : Errno} (h : t.step node name = .error e)
    : e ≠ .eexist ∧
      (e = .enoent → t.kind node = some .dir ∧ next node name = name :: node ∧ t.kind (name :: node) = none) := by
  unfold step at h
  split at h
  . cases h
    exact ⟨nofun, nofun⟩
  . next hdir =>
    split at h
    . cases h
      exact ⟨nofun, nofun⟩
    . split at h
      . next hnone =>
        cases h
        have hdir : t.kind node = some .dir := by simpa using hdir
        have hsome : t.kind node ≠ none := by
          rw [hdir]
          nofun
        have hnext : next node name = name :: node := by
          unfold next at hnone ⊢
          split at hnone
          . exact absurd hnone hsome
          . split at hnone
            . exact absurd hnone (kind_tail hsome)
            . next hname hdots => rw [if_neg hname, if_neg hdots]
        exact ⟨nofun, fun _ => ⟨hdir, hnext, hnext ▸ hnone⟩⟩
      . cases h

theorem walk_ok {node node' : Node} {names : List Name} (h : t.walk node names = .ok node')
    (hnode : t.kind node ≠ none)
    : node' = names.foldl next node ∧ t.kind node' ≠ none := by
  induction names generalizing node with
  | nil =>
    cases h
    exact ⟨rfl, hnode⟩
  | cons name names ih =>
    unfold walk at h
    split at h
    . next hstep =>
      obtain ⟨rfl, hkind⟩ := step_ok hstep
      exact ih h hkind
    . cases h

theorem foldl_next_nil {node : Node} {names : List Name} (h : ∀ name ∈ names, name = [])
    : names.foldl next node = node := by
  induction names with
  | nil => rfl
  | cons name names ih =>
    obtain ⟨rfl, hnames⟩ := List.forall_mem_cons.mp h
    rw [List.foldl_cons, next, if_pos (.inl rfl)]
    exact ih hnames

theorem place_ok {node new : Node} {names : List Name} (h : t.place node names = .ok new)
    : new = names.foldl next node ∧ t.kind new = none ∧ new ≠ [] ∧ t.kind new.tail = some .dir := by
  induction names generalizing node with
  | nil => cases h
  | cons name names ih =>
    unfold place at h
    split at h
    . next hstep =>
      rw [(step_ok hstep).1] at h
      exact ih h
    . next hstep =>
      obtain ⟨hdir, hnext, hnone⟩ := (step_error hstep).2 rfl
      split at h
      . next hnames =>
        split at h
        . cases h
          refine ⟨?_, hnone, nofun, hdir⟩
          rw [List.foldl_cons, hnext, foldl_next_nil hnames]
        . cases h
      . cases h
    . cases h

theorem place_of_walk_ok {node node' : Node} {names : List Name} (h : t.walk node names = .ok node')
    : t.place node names = .error .eexist := by
  induction names generalizing node with
  | nil => rfl
  | cons name names ih =>
    unfold walk at h
    split at h
    . next hstep =>
      rw [place, hstep]
      exact ih h
    . cases h

theorem place_of_walk_error {node : Node} {names : List Name} {e : Errno} (h : t.walk node names = .error e)
    (he : e ≠ .enoent)
    : t.place node names = .error e := by
  induction names generalizing node with
  | nil => cases h
  | cons name names ih =>
    unfold walk at h
    split at h
    . next hstep =>
      rw [place, hstep]
      exact ih h
    . next e' hstep =>
      cases h
      rw [place, hstep]
      cases e with
      | enoent => exact absurd rfl he
      | eexist | enotdir | eacces | other _ => rfl

theorem walk_of_place_eexist {node : Node} {names : List Name} (h : t.place node names = .error .eexist)
    : ∃ node', t.walk node names = .ok node' := by
  induction names generalizing node with
  | nil => exact ⟨node, rfl⟩
  | cons name names ih =>
    unfold place at h
    split at h
    . next hstep =>
      obtain ⟨node', hwalk⟩ := ih h
      exact ⟨node', by rw [walk, hstep]; exact hwalk⟩
    . split at h
      . split at h <;> cases h
      . cases h
    . next hstep =>
      cases h
      exact absurd rfl (step_error hstep).1

def add (t : DirTree) (new : Node) (hne : new ≠ []) (hparent : t.kind new.tail = some .dir) : DirTree where
  kind := fun node => if node = new then some .dir else t.kind node
  cwd := t.cwd
  search := t.search
  writable := t.writable
  root_dir := by rw [if_neg (Ne.symm hne), t.root_dir]
  cwd_dir := by rw [t.cwd_dir, ite_self]
  closed := by
    intro name node hkind
    split
    . rfl
    . split at hkind
      . next hnew =>
        rw [← hnew] at hparent
        exact hparent
      . exact t.closed name node hkind

def mkdir (t : DirTree) (path : Pathname) : Option Errno × DirTree :=
  if path = [] then
    (some .enoent, t)
  else
    match h : t.place (t.start path) (components path) with
    | .ok new => (none, t.add new (place_ok h).2.2.1 (place_ok h).2.2.2)
    | .error e => (some e, t)

def fileSystem : FileSystem DirTree Node where
  mkdir path _ t := t.mkdir path
  lookup t path := (t.stat path).toOption
  Node t node := t.kind node ≠ none

theorem step_add {new node node' : Node} {name : Name} (hne : new ≠ []) (hparent : t.kind new.tail = some .dir)
    (h : t.step node name = .ok node')
    : (t.add new hne hparent).step node name = .ok node' := by
  have hkept : ∀ node, t.kind node ≠ none → (t.add new hne hparent).kind node ≠ none := by
    intro node hnode
    simp only [add]
    split
    . nofun
    . exact hnode
  obtain ⟨hnext, hkind⟩ := step_ok h
  have hkind' := hkept node' hkind
  unfold step at h ⊢
  split at h
  . cases h
  . next hdir =>
    have hdir' : ¬ (t.add new hne hparent).kind node ≠ some .dir := by
      simp only [add]
      split
      . simp
      . exact hdir
    split at h
    . cases h
    . next hsearch =>
      rw [if_neg hdir', if_neg (show ¬ (name ≠ [] ∧ (t.add new hne hparent).search node = false) from hsearch),
        ← hnext, if_neg hkind']

theorem walk_add {new node node' : Node} {names : List Name} (hne : new ≠ [])
    (hparent : t.kind new.tail = some .dir) (h : t.walk node names = .ok node')
    : (t.add new hne hparent).walk node names = .ok node' := by
  induction names generalizing node with
  | nil => exact h
  | cons name names ih =>
    unfold walk at h ⊢
    split at h
    . next hstep =>
      rw [step_add hne hparent hstep]
      exact ih h
    . cases h

theorem walk_nil {node : Node} {names : List Name} (hdir : t.kind node = some .dir)
    (hnames : ∀ name ∈ names, name = [])
    : t.walk node names = .ok node := by
  induction names with
  | nil => rfl
  | cons name names ih =>
    obtain ⟨rfl, hrest⟩ := List.forall_mem_cons.mp hnames
    have hstep : t.step node [] = .ok node := by
      simp [step, next, hdir]
    rw [walk, hstep]
    exact ih hrest

theorem kind_add {new : Node} (hne : new ≠ []) (hparent : t.kind new.tail = some .dir) (node : Node)
    : (t.add new hne hparent).kind node = if node = new then some .dir else t.kind node := rfl

theorem step_missing {node : Node} {name : Name} (hne : name :: node ≠ [])
    (hparent : t.kind (name :: node).tail = some .dir) (h : t.step node name = .error .enoent)
    : (t.add (name :: node) hne hparent).step node name = .ok (name :: node) := by
  obtain ⟨hdir, hnext, -⟩ := (step_error h).2 rfl
  have hkept : (t.add (name :: node) hne hparent).kind node = some .dir := by
    rw [kind_add, if_neg (by simp), hdir]
  have hsearch : ¬ (name ≠ [] ∧ t.search node = false) := by
    intro hsearch
    rw [step, if_neg (by rw [hdir]; simp), if_pos hsearch] at h
    cases h
  rw [step, hkept, if_neg (by simp)]
  refine (if_neg hsearch).trans ?_
  rw [hnext, kind_add, if_pos rfl, if_neg nofun]

theorem walk_place {new node : Node} {names : List Name} (hne : new ≠ []) (hparent : t.kind new.tail = some .dir)
    (h : t.place node names = .ok new)
    : (t.add new hne hparent).walk node names = .ok new := by
  induction names generalizing node with
  | nil => cases h
  | cons name names ih =>
    unfold place at h
    split at h
    . next hstep =>
      rw [walk, step_add hne hparent hstep]
      exact ih h
    . next hstep =>
      split at h
      . next hnames =>
        split at h
        . cases h
          rw [walk, step_missing hne hparent hstep]
          refine walk_nil ?_ hnames
          rw [kind_add, if_pos rfl]
        . cases h
      . cases h
    . cases h

theorem mkdir_cases {path : Pathname} (h : path ≠ [])
    : (∃ e, t.place (t.start path) (components path) = .error e ∧ t.mkdir path = (some e, t)) ∨
      ∃ new hne hparent, t.place (t.start path) (components path) = .ok new ∧
        t.mkdir path = (none, t.add new hne hparent) := by
  rw [mkdir, if_neg h]
  split
  . next new hplace =>
    obtain ⟨-, -, hne, hparent⟩ := place_ok hplace
    exact .inr ⟨new, hne, hparent, hplace, rfl⟩
  . next e hplace => exact .inl ⟨e, hplace, rfl⟩

theorem stat_ok {path : Pathname} {node : Node} (h : t.stat path = .ok node)
    : path ≠ [] ∧ t.walk (t.start path) (components path) = .ok node := by
  unfold stat at h
  split at h
  . cases h
  . next hne => exact ⟨hne, h⟩

theorem start_kind (t : DirTree) (path : Pathname) : t.kind (t.start path) ≠ none := by
  unfold start
  split
  . rw [t.root_dir]
    nofun
  . rw [t.cwd_dir]
    nofun

theorem stat_canon {path : Pathname} {node : Node} (h : t.stat path = .ok node)
    : node = t.canon path ∧ t.kind node ≠ none :=
  walk_ok (stat_ok h).2 (t.start_kind path)

theorem mkdir_of_stat_ok {path : Pathname} {node : Node} (h : t.stat path = .ok node)
    : t.mkdir path = (some .eexist, t) := by
  obtain ⟨hne, hwalk⟩ := stat_ok h
  obtain ⟨e, hplace, hmkdir⟩ | ⟨new, hnew, hparent, hplace, -⟩ := mkdir_cases (t := t) hne
  . rw [place_of_walk_ok hwalk] at hplace
    cases hplace
    exact hmkdir
  . rw [place_of_walk_ok hwalk] at hplace
    cases hplace

theorem mkdir_of_stat_error {path : Pathname} {e : Errno} (h : t.stat path = .error e) (he : e ≠ .enoent)
    : t.mkdir path = (some e, t) := by
  have hne : path ≠ [] := by
    rintro rfl
    cases h
    exact he rfl
  rw [stat, if_neg hne] at h
  obtain ⟨e', hplace, hmkdir⟩ | ⟨new, hnew, hparent, hplace, -⟩ := mkdir_cases (t := t) hne
  . rw [place_of_walk_error h he] at hplace
    cases hplace
    exact hmkdir
  . rw [place_of_walk_error h he] at hplace
    cases hplace

theorem stat_of_eexist {path : Pathname} {t' : DirTree} (h : t.mkdir path = (some .eexist, t'))
    : ∃ node, t.stat path = .ok node := by
  have hne : path ≠ [] := by
    rintro rfl
    cases h
  obtain ⟨e, hplace, hmkdir⟩ | ⟨new, hnew, hparent, -, hmkdir⟩ := mkdir_cases (t := t) hne
  . rw [hmkdir] at h
    cases h
    rw [stat, if_neg hne]
    exact walk_of_place_eexist hplace
  . rw [hmkdir] at h
    cases h

theorem mkdir_none {path : Pathname} {t' : DirTree} (h : t.mkdir path = (none, t'))
    : ∃ hne hparent, t' = t.add (t.canon path) hne hparent ∧ t.kind (t.canon path) = none ∧
        t'.stat path = .ok (t.canon path) := by
  have hne : path ≠ [] := by
    rintro rfl
    cases h
  obtain ⟨e, -, hmkdir⟩ | ⟨new, hnew, hparent, hplace, hmkdir⟩ := mkdir_cases (t := t) hne
  . rw [hmkdir] at h
    cases h
  . rw [hmkdir] at h
    cases h
    obtain ⟨rfl, hnone, -, -⟩ := place_ok hplace
    refine ⟨hnew, hparent, rfl, hnone, ?_⟩
    rw [stat, if_neg hne]
    exact walk_place hnew hparent hplace

theorem lookup_eq_some {path : Pathname} {node : Node}
    : fileSystem.lookup t path = some node ↔ t.stat path = .ok node := by
  show (t.stat path).toOption = some node ↔ _
  cases t.stat path <;> simp [Except.toOption]

theorem lawful : fileSystem.Lawful where
  fails := by
    intro p _ t e t' h
    by_cases hne : p = []
    . cases hne
      cases h
      rfl
    . obtain ⟨e, -, hmkdir⟩ | ⟨new, _, _, -, hmkdir⟩ := mkdir_cases (t := t) hne
      . exact (congrArg Prod.snd (h.symm.trans hmkdir))
      . cases h.symm.trans hmkdir
  eexist := by
    intro p _ t t' h
    obtain ⟨node, hstat⟩ := stat_of_eexist h
    rw [lookup_eq_some.mpr hstat]
    rfl
  found := by
    intro p _ t node h
    exact mkdir_of_stat_ok (lookup_eq_some.mp h)
  creates := by
    intro p _ t t' h
    obtain ⟨hne, hparent, rfl, hnone, hstat⟩ := mkdir_none h
    refine ⟨t.canon p, lookup_eq_some.mpr hstat, fun node => ?_⟩
    show (t.add _ hne hparent).kind node ≠ none ↔ t.kind node ≠ none ∨ node = t.canon p
    rw [kind_add]
    by_cases hsame : node = t.canon p <;> simp [hsame]
  keeps := by
    intro p _ t t' q node h hfound
    obtain ⟨hne, hparent, rfl, -, -⟩ := mkdir_none h
    obtain ⟨hq, hwalk⟩ := stat_ok (lookup_eq_some.mp hfound)
    apply lookup_eq_some.mpr
    rw [stat, if_neg hq]
    exact walk_add hne hparent hwalk

theorem mkdir_kept (t : DirTree) (path : Pathname)
    : (t.mkdir path).2.cwd = t.cwd ∧ ∀ node, t.kind node ≠ none → (t.mkdir path).2.kind node = t.kind node := by
  by_cases hne : path = []
  . rw [mkdir, if_pos hne]
    exact ⟨rfl, fun _ _ => rfl⟩
  . obtain ⟨e, -, hmkdir⟩ | ⟨new, hnew, hparent, hplace, hmkdir⟩ := mkdir_cases (t := t) hne
    . rw [hmkdir]
      exact ⟨rfl, fun _ _ => rfl⟩
    . rw [hmkdir]
      refine ⟨rfl, fun node hnode => ?_⟩
      rw [kind_add, if_neg]
      rintro rfl
      exact hnode (place_ok hplace).2.1

theorem mkdirs_kept (t : DirTree) (mode : Nat) (ps : List Pathname)
    : (fileSystem.mkdirs mode ps t).2.1.cwd = t.cwd ∧
        ∀ node, t.kind node ≠ none → (fileSystem.mkdirs mode ps t).2.1.kind node = t.kind node := by
  induction ps generalizing t with
  | nil => exact ⟨rfl, fun _ _ => rfl⟩
  | cons p ps ih =>
    obtain ⟨hcwd, hkind⟩ := t.mkdir_kept p
    obtain ⟨hcwd', hkind'⟩ := ih (t.mkdir p).2
    rw [FileSystem.mkdirs_cons]
    split
    . exact ⟨hcwd, hkind⟩
    . refine ⟨hcwd'.trans hcwd, fun node hnode => ?_⟩
      refine (hkind' node ?_).trans (hkind node hnode)
      rw [hkind node hnode]
      exact hnode

theorem canon_congr {t t' : DirTree} (h : t'.cwd = t.cwd) (path : Pathname) : t'.canon path = t.canon path := by
  rw [canon, canon, start, start, h]

theorem mkdirs_kind_iff {mode : Nat} {ps : List Pathname} (hok : (fileSystem.mkdirs mode ps t).1 = true) (node : Node)
    : (fileSystem.mkdirs mode ps t).2.1.kind node ≠ none
        ↔
      t.kind node ≠ none ∨ ∃ p ∈ ps, t.canon p = node := by
  have hcanon := fun p => canon_congr (t.mkdirs_kept mode ps).1 p
  obtain ⟨hkept, hcreated⟩ := lawful.mkdirs_node mode ps t node
  constructor
  . intro hnode
    refine (hcreated hnode).imp_right ?_
    rintro ⟨p, hp, -, hfound⟩
    refine ⟨p, hp, ?_⟩
    rw [(stat_canon (lookup_eq_some.mp hfound)).1, hcanon]
  . rintro (hold | ⟨p, hp, rfl⟩)
    . exact hkept hold
    . obtain ⟨node, hfound⟩ := Option.isSome_iff_exists.mp (lawful.mkdirs_found hok p hp)
      obtain ⟨hnode, hkind⟩ := stat_canon (lookup_eq_some.mp hfound)
      rwa [hnode, hcanon] at hkind

theorem components_ne_nil (p : Pathname) : components p ≠ [] := by
  cases p with
  | nil => nofun
  | cons c p =>
    unfold components
    split
    . nofun
    . split <;> nofun

theorem components_append (p q : Pathname) : components (p ++ slash :: q) = components p ++ components q := by
  induction p with
  | nil => simp [components]
  | cons c p ih =>
    simp only [List.cons_append, components, ih]
    split
    . rfl
    . cases hp : components p with
      | nil => exact absurd hp (components_ne_nil p)
      | cons name names => rfl

theorem walk_error_append {node : Node} {names : List Name} {e : Errno} (more : List Name)
    (h : t.walk node names = .error e)
    : t.walk node (names ++ more) = .error e := by
  induction names generalizing node with
  | nil => cases h
  | cons name names ih =>
    rw [List.cons_append]
    unfold walk at h ⊢
    split at h
    . exact ih h
    . exact h

theorem stat_error_append {p : Pathname} {e : Errno} (q : Pathname) (hne : p ≠ []) (h : t.stat p = .error e)
    : t.stat (p ++ slash :: q) = .error e := by
  have hstart : t.start (p ++ slash :: q) = t.start p := by
    cases p with
    | nil => exact absurd rfl hne
    | cons c p => rfl
  rw [stat, if_neg hne] at h
  rw [stat, if_neg (by simp), hstart, components_append]
  exact walk_error_append _ h

theorem stat_ne_eexist {p : Pathname} {e : Errno} (h : t.stat p = .error e) : e ≠ .eexist := by
  rintro rfl
  rw [stat] at h
  split at h
  . cases h
  . next hne =>
    generalize t.start p = node at h
    generalize components p = names at h
    induction names generalizing node with
    | nil => cases h
    | cons name names ih =>
      unfold walk at h
      split at h
      . next node' _ => exact ih node' h
      . next hstep =>
        cases h
        exact (step_error hstep).1 rfl

theorem mkdirs_settled {mode : Nat} {ps : List Pathname} (h : ∀ p ∈ ps, t.stat p ≠ .error .enoent)
    : (fileSystem.mkdirs mode ps t).2.1 = t ∧
      ((fileSystem.mkdirs mode ps t).1 = true ↔ ∀ p ∈ ps, ∃ node, t.stat p = .ok node) := by
  induction ps with
  | nil => exact ⟨rfl, iff_of_true rfl nofun⟩
  | cons p ps ih =>
    obtain ⟨hp, hps⟩ := List.forall_mem_cons.mp h
    rw [FileSystem.mkdirs_cons, List.forall_mem_cons]
    cases hstat : t.stat p with
    | ok node =>
      have hmkdir : fileSystem.mkdir p mode t = (some .eexist, t) := mkdir_of_stat_ok hstat
      have hrefused : ¬ FileSystem.Refused (some .eexist) := fun hrefused => hrefused.2 rfl
      rw [hmkdir, if_neg hrefused]
      simpa using ih hps
    | error e =>
      have hmkdir : fileSystem.mkdir p mode t = (some e, t) :=
        mkdir_of_stat_error hstat fun he => hp (he ▸ hstat)
      have hrefused : FileSystem.Refused (some e) :=
        ⟨nofun, fun he => stat_ne_eexist hstat (Option.some.inj he)⟩
      rw [hmkdir, if_pos hrefused]
      simp

end DirTree
