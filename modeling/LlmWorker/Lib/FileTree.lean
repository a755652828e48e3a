import LlmWorker.Lib.Dict
import Mathlib.Data.List.Induction

/-!
# File trees

Directories, regular files and symbolic links below one root, with the calls
of a POSIX system on them: the resolution of a path, `mkdir`, `rmdir`,
`unlink`, reading and writing whole files, and a walk that follows no link.
A tree carries the proof that every node is in a directory.
-/

namespace FileTree

abbrev Name := List Char
abbrev TreePath := List Name

/-- A link keeps the absolute path that its text denotes. -/
inductive Node (κ : Type)
  | dir
  | file (content : κ)
  | link (target : TreePath)
  deriving DecidableEq

inductive OSError
  | fileNotFound
  | notADirectory
  | isADirectory
  | fileExists
  | notEmpty
  | busy
  | tooManyLinks
  deriving DecidableEq

def dotdot : Name := ['.', '.']

def ValidName (name : Name) : Prop := name ≠ [] ∧ name ≠ ['.'] ∧ name ≠ dotdot ∧ '/' ∉ name ∧ '\x00' ∉ name

instance : DecidablePred ValidName := fun name => by
  unfold ValidName
  infer_instance

end FileTree

open FileTree in
structure FileTree (κ : Type) where
  nodes : Dict TreePath (Node κ)
  root : nodes.get? [] = some .dir
  parent : ∀ path name node, nodes.get? (path ++ [name]) = some node →
    nodes.get? path = some .dir ∧ ValidName name

namespace FileTree

variable {κ : Type}

def node (t : FileTree κ) (path : TreePath) : Option (Node κ) := t.nodes.get? path

def empty : FileTree κ := ⟨⟨[([], .dir)], by simp⟩, rfl, by simp [Dict.get?]⟩

def ofNodes (nodes : Dict TreePath (Node κ)) (hroot : nodes.get? [] = some .dir)
    (hparent : ∀ k ∈ nodes.keys, k = [] ∨ nodes.get? k.dropLast = some .dir ∧ ∀ name ∈ k.getLast?, ValidName name) :
    FileTree κ where
  nodes := nodes
  root := hroot
  parent path name node hnode := by
    have hkey : path ++ [name] ∈ nodes.keys := Dict.mem_keys.mpr ⟨node, hnode⟩
    simpa using hparent _ hkey

@[simp] theorem node_root (t : FileTree κ) : t.node [] = some .dir := t.root

theorem dir_of_child {t : FileTree κ} (h : t.node (path ++ [name]) ≠ none) : t.node path = some .dir := by
  obtain ⟨node, hnode⟩ := Option.ne_none_iff_exists'.mp h
  exact (t.parent path name node hnode).1

theorem valid_of_child {t : FileTree κ} (h : t.node (path ++ [name]) ≠ none) : ValidName name := by
  obtain ⟨node, hnode⟩ := Option.ne_none_iff_exists'.mp h
  exact (t.parent path name node hnode).2

theorem dir_of_append {t : FileTree κ} (h : t.node (path ++ rest) ≠ none) (hrest : rest ≠ []) :
    t.node path = some .dir := by
  induction rest using List.reverseRecOn with
  | nil => exact absurd rfl hrest
  | append_singleton rest name ih =>
    rw [← List.append_assoc] at h
    have hdir := dir_of_child h
    by_cases hnil : rest = []
    · simpa [hnil] using hdir
    · exact ih (by simp [hdir]) hnil

theorem dir_of_prefix {t : FileTree κ} (h : t.node path = some .dir) (hpre : q <+: path) : t.node q = some .dir := by
  obtain ⟨rest, rfl⟩ := hpre
  by_cases hrest : rest = []
  · simpa [hrest] using h
  · exact dir_of_append (by simp [h]) hrest

theorem valid_of_mem {t : FileTree κ} (h : t.node (path ++ rest) ≠ none) : ∀ name ∈ rest, ValidName name := by
  induction rest using List.reverseRecOn with
  | nil => simp
  | append_singleton rest name ih =>
    rw [← List.append_assoc] at h
    intro name' hname'
    rcases List.mem_append.mp hname' with hold | hnew
    · exact ih (by simp [dir_of_child h]) name' hold
    · obtain rfl : name' = name := by simpa using hnew
      exact valid_of_child h

-- ---------------------------------------------------------------------------
-- Two changes
-- ---------------------------------------------------------------------------

def Childless (t : FileTree κ) (path : TreePath) : Prop := ∀ k ∈ t.nodes.keys, path <+: k → k = path

instance (t : FileTree κ) (path : TreePath) : Decidable (t.Childless path) := by
  unfold Childless
  infer_instance

theorem childless_iff {t : FileTree κ} : t.Childless path ↔ ∀ rest, rest ≠ [] → t.node (path ++ rest) = none := by
  constructor
  · intro h rest hrest
    refine Dict.get?_eq_none.mpr fun hmem => hrest ?_
    simpa using h _ hmem (List.prefix_append path rest)
  · rintro h k hk ⟨rest, rfl⟩
    by_cases hrest : rest = []
    · simp [hrest]
    · exact absurd hk (Dict.get?_eq_none.mp (h rest hrest))

theorem childless_of_not_dir {t : FileTree κ} (h : t.node path ≠ some .dir) : t.Childless path := by
  refine childless_iff.mpr fun rest hrest => Classical.byContradiction fun hne => h ?_
  exact dir_of_append hne hrest

def erase (t : FileTree κ) (path : TreePath) (hroot : path ≠ []) (h : t.Childless path) : FileTree κ where
  nodes := t.nodes.erase path
  root := by rw [Dict.get?_erase, if_neg hroot.symm, t.root]
  parent p name n hn := by
    rw [Dict.get?_erase] at hn ⊢
    split at hn
    · cases hn
    · have hne : p ≠ path := by
        rintro rfl
        have hnone : t.node (p ++ [name]) = none := childless_iff.mp h [name] (by simp)
        rw [node, hn] at hnone
        cases hnone
      rw [if_neg hne]
      exact t.parent p name n hn

@[simp] theorem node_erase (t : FileTree κ) (path : TreePath) (hroot : path ≠ []) (h : t.Childless path) (q : TreePath) :
    (t.erase path hroot h).node q = if q = path then none else t.node q := Dict.get?_erase _ _ _

/-- A node can be set at `path`: its directory is there, and it replaces no directory. -/
def CanPut (t : FileTree κ) (path : TreePath) : Prop :=
  t.node path ≠ some .dir ∧ t.node path.dropLast = some .dir ∧ ∀ name ∈ path.getLast?, ValidName name

instance [DecidableEq κ] (t : FileTree κ) (path : TreePath) : Decidable (t.CanPut path) := by
  unfold CanPut
  infer_instance

def put (t : FileTree κ) (path : TreePath) (n : Node κ) (h : t.CanPut path) : FileTree κ where
  nodes := t.nodes.set path n
  root := by
    have hroot : [] ≠ path := by
      rintro rfl
      exact h.1 t.root
    rw [Dict.get?_set, if_neg hroot, t.root]
  parent p name m hm := by
    rw [Dict.get?_set] at hm ⊢
    split at hm
    · rename_i heq
      subst heq
      have hp : p ≠ p ++ [name] := by simp
      have hdir : t.node p = some .dir := by simpa using h.2.1
      rw [if_neg hp]
      exact ⟨hdir, h.2.2 name (by simp)⟩
    · have hdir := t.parent p name m hm
      have hne : p ≠ path := by
        rintro rfl
        exact h.1 hdir.1
      rwa [if_neg hne]

@[simp] theorem node_put (t : FileTree κ) (path : TreePath) (n : Node κ) (h : t.CanPut path) (q : TreePath) :
    (t.put path n h).node q = if q = path then some n else t.node q := Dict.get?_set _ _ _ _

theorem canPut_child {t : FileTree κ} (hdir : t.node path = some .dir) (hname : ValidName name)
    (hnode : t.node (path ++ [name]) ≠ some .dir) : t.CanPut (path ++ [name]) :=
  ⟨hnode, by simpa using hdir, by simpa using hname⟩

-- ---------------------------------------------------------------------------
-- Resolution
-- ---------------------------------------------------------------------------

/-- Walk on from the directory `base`; a link is left to `follow`. -/
def walk (t : FileTree κ) (follow : TreePath → Except OSError TreePath) (base : TreePath) : TreePath → Except OSError TreePath
  | [] => .ok base
  | name :: rest =>
    if name = dotdot then walk t follow base.dropLast rest
    else
      match t.node (base ++ [name]) with
      | some (.link target) => follow (target ++ rest)
      | some .dir => walk t follow (base ++ [name]) rest
      | some (.file _) => if rest = [] then .ok (base ++ [name]) else .error .notADirectory
      | none => if rest = [] then .ok (base ++ [name]) else .error .fileNotFound

/-- The node a path leads to, through at most `links` links; its last name may be missing. -/
def resolve (t : FileTree κ) : Nat → TreePath → Except OSError TreePath
  | 0 => walk t (fun _ => .error .tooManyLinks) []
  | links + 1 => walk t (resolve t links) []

def maxLinks : Nat := 40

def stat (t : FileTree κ) (path : TreePath) : Option (Node κ) :=
  match t.resolve maxLinks path with
  | .ok q => t.node q
  | .error _ => none

def exists? (t : FileTree κ) (path : TreePath) : Bool := (t.stat path).isSome

def isDir (t : FileTree κ) (path : TreePath) : Bool :=
  match t.stat path with
  | some .dir => true
  | _ => false

def isFile (t : FileTree κ) (path : TreePath) : Bool :=
  match t.stat path with
  | some (.file _) => true
  | _ => false

/-- The entry that a path names, a link itself rather than what it leads to. -/
def entry (t : FileTree κ) (path : TreePath) : Except OSError TreePath :=
  match path.getLast? with
  | none => .ok []
  | some name =>
    if name = dotdot then t.resolve maxLinks path
    else do
      let dir ← t.resolve maxLinks path.dropLast
      match t.node dir with
      | some .dir => .ok (dir ++ [name])
      | some _ => .error .notADirectory
      | none => .error .fileNotFound

def isSymlink (t : FileTree κ) (path : TreePath) : Bool :=
  match t.entry path with
  | .error _ => false
  | .ok q =>
    match t.node q with
    | some (.link _) => true
    | _ => false

-- ---------------------------------------------------------------------------
-- Calls
-- ---------------------------------------------------------------------------

variable [DecidableEq κ]

def unlink (t : FileTree κ) (path : TreePath) : Except OSError (FileTree κ) := do
  let q ← t.entry path
  if h : t.node q = some .dir then .error .isADirectory
  else if t.node q = none then .error .fileNotFound
  else .ok (t.erase q (fun hq => h (hq ▸ t.root)) (childless_of_not_dir h))

def rmdir (t : FileTree κ) (path : TreePath) : Except OSError (FileTree κ) := do
  let q ← t.entry path
  if t.node q = none then .error .fileNotFound
  else if t.node q ≠ some .dir then .error .notADirectory
  else if hq : q = [] then .error .busy
  else if h : t.Childless q then .ok (t.erase q hq h)
  else .error .notEmpty

def mkdir (t : FileTree κ) (path : TreePath) : Except OSError (FileTree κ) := do
  let q ← t.entry path
  if t.node q ≠ none then .error .fileExists
  else if h : t.CanPut q then .ok (t.put q .dir h)
  else .error .fileNotFound

/-- Open for writing, with truncation, and write. -/
def writeFile (t : FileTree κ) (path : TreePath) (content : κ) : Except OSError (FileTree κ) := do
  let q ← t.resolve maxLinks path
  if t.node q = some .dir then .error .isADirectory
  else if h : t.CanPut q then .ok (t.put q (.file content) h)
  else .error .fileNotFound

def readFile (t : FileTree κ) (path : TreePath) : Except OSError κ :=
  match t.resolve maxLinks path with
  | .error e => .error e
  | .ok q =>
    match t.node q with
    | some (.file content) => .ok content
    | some .dir => .error .isADirectory
    | some (.link _) => .error .tooManyLinks
    | none => .error .fileNotFound

/-- `mkdir -p`, the path given in reverse: the parents are made where the
directory cannot be made without them, and a directory that is there will do. -/
def mkdirsUp (t : FileTree κ) : TreePath → Except OSError (FileTree κ)
  | [] => .ok t
  | name :: up =>
    let path := (name :: up).reverse
    match t.mkdir path with
    | .ok t' => .ok t'
    | .error .fileNotFound => do
      let t' ← mkdirsUp t up
      match t'.mkdir path with
      | .ok t'' => .ok t''
      | .error e => if e ≠ .fileNotFound ∧ t'.isDir path then .ok t' else .error e
    | .error e => if t.isDir path then .ok t else .error e

def mkdirs (t : FileTree κ) (path : TreePath) : Except OSError (FileTree κ) := t.mkdirsUp path.reverse

omit [DecidableEq κ] in
def walkBelow (t : FileTree κ) (path : TreePath) : List TreePath :=
  match t.resolve maxLinks path with
  | .error _ => []
  | .ok dir => (t.nodes.keys.filter fun k => dir <+: k ∧ k ≠ dir).map (·.drop dir.length)

-- ---------------------------------------------------------------------------
-- Resolution without links
-- ---------------------------------------------------------------------------

omit [DecidableEq κ]

variable {t : FileTree κ}

theorem ne_dotdot (h : ValidName name) : name ≠ dotdot := h.2.2.1

theorem walk_append (hdir : t.node (base ++ path) = some .dir) (follow : TreePath → Except OSError TreePath) (rest : TreePath) :
    t.walk follow base (path ++ rest) = t.walk follow (base ++ path) rest := by
  induction path generalizing base with
  | nil => simp
  | cons name path ih =>
    have hsplit : base ++ name :: path = base ++ [name] ++ path := by simp
    have hthere : t.node (base ++ name :: path) ≠ none := by simp [hdir]
    have hname : name ≠ dotdot := ne_dotdot (valid_of_mem hthere name (by simp))
    have hnode : t.node (base ++ [name]) = some .dir := by
      by_cases hnil : path = []
      · simpa [hnil] using hdir
      · exact dir_of_append (by rw [← hsplit, hdir]; simp) hnil
    rw [hsplit] at hdir ⊢
    rw [List.cons_append, walk, if_neg hname, hnode]
    exact ih hdir

theorem resolve_append (hdir : t.node path = some .dir) (links : Nat) (rest : TreePath) :
    ∃ follow, t.resolve links (path ++ rest) = t.walk follow path rest := by
  cases links with
  | zero => exact ⟨_, walk_append hdir _ rest⟩
  | succ links => exact ⟨_, walk_append hdir _ rest⟩

theorem resolve_dir (hdir : t.node path = some .dir) (links : Nat) : t.resolve links path = .ok path := by
  obtain ⟨follow, h⟩ := resolve_append hdir links []
  rw [List.append_nil] at h
  rw [h, walk]

theorem resolve_child (hdir : t.node path = some .dir) (hname : ValidName name)
    (hlink : ∀ target, t.node (path ++ [name]) ≠ some (.link target)) (links : Nat) :
    t.resolve links (path ++ [name]) = .ok (path ++ [name]) := by
  obtain ⟨follow, h⟩ := resolve_append hdir links [name]
  rw [h, walk, if_neg (ne_dotdot hname)]
  cases hnode : t.node (path ++ [name]) with
  | none => simp
  | some n =>
    cases n with
    | dir => simp [walk]
    | file => simp
    | link target => exact absurd hnode (hlink target)

theorem resolve_missing (hdir : t.node path = some .dir) (hname : ValidName name)
    (hnode : t.node (path ++ [name]) = none) (hrest : rest ≠ []) (links : Nat) :
    t.resolve links (path ++ name :: rest) = .error .fileNotFound := by
  obtain ⟨follow, h⟩ := resolve_append hdir links (name :: rest)
  rw [h, walk, if_neg (ne_dotdot hname), hnode]
  simp [hrest]

theorem isDir_iff : t.isDir path = true ↔ t.stat path = some .dir := by
  unfold isDir
  split
  · rename_i h
    simp [h]
  · rename_i h
    simpa using h

theorem isFile_iff : t.isFile path = true ↔ ∃ content, t.stat path = some (.file content) := by
  unfold isFile
  split
  · rename_i content h
    simp [h]
  · rename_i h
    simpa using h

theorem stat_dir (hdir : t.node path = some .dir) : t.stat path = some .dir := by
  rw [stat, resolve_dir hdir]
  exact hdir

theorem stat_child (hdir : t.node path = some .dir) (hname : ValidName name)
    (hlink : ∀ target, t.node (path ++ [name]) ≠ some (.link target)) :
    t.stat (path ++ [name]) = t.node (path ++ [name]) := by
  rw [stat, resolve_child hdir hname hlink]

theorem entry_child (hdir : t.node path = some .dir) (hname : ValidName name) :
    t.entry (path ++ [name]) = .ok (path ++ [name]) := by
  have hres : t.resolve maxLinks path = .ok path := resolve_dir hdir _
  simp only [entry, List.getLast?_concat, if_neg (ne_dotdot hname), List.dropLast_concat, hres]
  show (match t.node path with | some .dir => _ | some _ => _ | none => _) = _
  rw [hdir]

theorem dir_dropLast (h : t.node path = some .dir) : t.node path.dropLast = some .dir := by
  rcases List.eq_nil_or_concat path with rfl | ⟨init, name, rfl⟩
  · exact t.root
  · rw [List.concat_eq_append] at h
    have hthere : t.node (init ++ [name]) ≠ none := by simp [h]
    rw [List.concat_eq_append, List.dropLast_concat]
    exact dir_of_child hthere

/-- A walk that goes on after `path` has come to a directory there. -/
theorem walk_prefix {follow : TreePath → Except OSError TreePath}
    (hfollow : ∀ path q, follow (path ++ rest) = .ok q → ∃ d, follow path = .ok d ∧ t.node d = some .dir)
    (hrest : rest ≠ []) (hbase : t.node base = some .dir) (h : t.walk follow base (path ++ rest) = .ok q) :
    ∃ d, t.walk follow base path = .ok d ∧ t.node d = some .dir := by
  induction path generalizing base with
  | nil => exact ⟨base, rfl, hbase⟩
  | cons name path ih =>
    rw [List.cons_append, walk] at h
    rw [walk]
    split at h
    · rename_i hup
      rw [if_pos hup]
      exact ih (dir_dropLast hbase) h
    · rename_i hup
      rw [if_neg hup]
      split at h
      · rename_i target hnode
        rw [← List.append_assoc] at h
        exact hfollow _ _ h
      · rename_i hnode
        exact ih hnode h
      · simp [hrest] at h
      · simp [hrest] at h

theorem resolve_prefix (links : Nat) (h : t.resolve links (path ++ rest) = .ok q) (hrest : rest ≠ []) :
    ∃ d, t.resolve links path = .ok d ∧ t.node d = some .dir := by
  induction links generalizing path q with
  | zero =>
    refine walk_prefix ?_ hrest t.root h
    rintro path q ⟨⟩
  | succ links ih => exact walk_prefix (fun _ _ h => ih h) hrest t.root h

theorem isDir_of_stat (h : t.stat (path ++ rest) = some n) (hrest : rest ≠ []) : t.isDir path = true := by
  unfold stat at h
  split at h
  · rename_i q hq
    obtain ⟨d, hd, hdir⟩ := resolve_prefix maxLinks hq hrest
    simp only [isDir, stat, hd, hdir]
  · cases h

-- ---------------------------------------------------------------------------
-- What the calls do
-- ---------------------------------------------------------------------------

section calls

variable [DecidableEq κ] (hdir : t.node path = some .dir)

include hdir

theorem unlink_child (hnode : t.node (path ++ [name]) = some n) (hn : n ≠ .dir) :
    ∃ t', t.unlink (path ++ [name]) = .ok t' ∧
      ∀ q, t'.node q = if q = path ++ [name] then none else t.node q := by
  have hthere : t.node (path ++ [name]) ≠ none := by simp [hnode]
  have hnot : t.node (path ++ [name]) ≠ some .dir := by simpa [hnode] using hn
  have hentry : t.entry (path ++ [name]) = .ok (path ++ [name]) := entry_child hdir (valid_of_child hthere)
  refine ⟨t.erase (path ++ [name]) (by simp) (childless_of_not_dir hnot), ?_, fun q => node_erase ..⟩
  simp only [unlink, hentry]
  show (if h : t.node (path ++ [name]) = some .dir then _ else _) = _
  rw [dif_neg hnot, if_neg hthere]

theorem rmdir_child (hnode : t.node (path ++ [name]) = some .dir) (hempty : t.Childless (path ++ [name])) :
    ∃ t', t.rmdir (path ++ [name]) = .ok t' ∧
      ∀ q, t'.node q = if q = path ++ [name] then none else t.node q := by
  have hthere : t.node (path ++ [name]) ≠ none := by simp [hnode]
  have hentry : t.entry (path ++ [name]) = .ok (path ++ [name]) := entry_child hdir (valid_of_child hthere)
  refine ⟨t.erase (path ++ [name]) (by simp) hempty, ?_, fun q => node_erase ..⟩
  simp only [rmdir, hentry]
  show (if t.node (path ++ [name]) = none then _ else _) = _
  rw [if_neg hthere, if_neg (not_not.mpr hnode), dif_neg (by simp), dif_pos hempty]

variable (hname : ValidName name)

include hname

theorem mkdir_child (hnode : t.node (path ++ [name]) = none) :
    ∃ t', t.mkdir (path ++ [name]) = .ok t' ∧
      ∀ q, t'.node q = if q = path ++ [name] then some .dir else t.node q := by
  have hput : t.CanPut (path ++ [name]) := canPut_child hdir hname (by simp [hnode])
  refine ⟨t.put (path ++ [name]) .dir hput, ?_, fun q => node_put ..⟩
  simp only [mkdir, entry_child hdir hname]
  show (if t.node (path ++ [name]) ≠ none then _ else _) = _
  rw [if_neg (not_not.mpr hnode), dif_pos hput]

theorem mkdir_exists (hnode : t.node (path ++ [name]) ≠ none) : t.mkdir (path ++ [name]) = .error .fileExists := by
  simp only [mkdir, entry_child hdir hname]
  show (if t.node (path ++ [name]) ≠ none then _ else _) = _
  rw [if_pos hnode]

theorem writeFile_child (content : κ) (hnot : t.node (path ++ [name]) ≠ some .dir)
    (hlink : ∀ target, t.node (path ++ [name]) ≠ some (.link target)) :
    ∃ t', t.writeFile (path ++ [name]) content = .ok t' ∧
      ∀ q, t'.node q = if q = path ++ [name] then some (.file content) else t.node q := by
  have hput : t.CanPut (path ++ [name]) := canPut_child hdir hname hnot
  have hres : t.resolve maxLinks (path ++ [name]) = .ok (path ++ [name]) := resolve_child hdir hname hlink _
  refine ⟨t.put (path ++ [name]) (.file content) hput, ?_, fun q => node_put ..⟩
  simp only [writeFile, hres]
  show (if t.node (path ++ [name]) = some .dir then _ else _) = _
  rw [if_neg hnot, dif_pos hput]

end calls

theorem concat_not_prefix_self (path : TreePath) (name : Name) : ¬path ++ [name] <+: path := fun hpre =>
  Nat.not_succ_le_self path.length (by simpa using hpre.length_le)

/-- As far as the path is there it is made of directories. -/
def Clear (t : FileTree κ) (path : TreePath) : Prop :=
  (∀ q, q <+: path → t.node q = none ∨ t.node q = some .dir) ∧ ∀ name ∈ path, ValidName name

theorem Clear.init (h : t.Clear (path ++ [name])) : t.Clear path :=
  ⟨fun q hq => h.1 q (hq.trans (List.prefix_append _ _)), fun n hn => h.2 n (List.mem_append_left _ hn)⟩

theorem Clear.split (h : t.Clear path) (hnone : t.node path = none) :
    ∃ d name rest, path = d ++ name :: rest ∧ t.node d = some .dir ∧ ValidName name ∧ t.node (d ++ [name]) = none := by
  induction path using List.reverseRecOn with
  | nil => simp at hnone
  | append_singleton path name ih =>
    rcases h.init.1 path (List.prefix_refl _) with hmissing | hdir
    · obtain ⟨d, name', rest, rfl, hd⟩ := ih h.init hmissing
      exact ⟨d, name', rest ++ [name], by simp, hd⟩
    · exact ⟨path, name, [], rfl, hdir, h.2 name (by simp), hnone⟩

theorem Clear.resolve_missing (h : t.Clear path) (hnone : t.node path = none) (links : Nat) :
    t.resolve links path = .ok path ∨ t.resolve links path = .error .fileNotFound := by
  obtain ⟨d, name, rest, rfl, hdir, hvalid, hmissing⟩ := h.split hnone
  by_cases hrest : rest = []
  · subst hrest
    exact .inl (resolve_child hdir hvalid (by simp [hmissing]) links)
  · exact .inr (FileTree.resolve_missing hdir hvalid hmissing hrest links)

theorem Clear.stat_missing (h : t.Clear path) (hnone : t.node path = none) : t.stat path = none := by
  rcases h.resolve_missing hnone maxLinks with hres | hres
  · simpa only [stat, hres] using hnone
  · simp only [stat, hres]

theorem Clear.entry_missing (h : t.Clear path) (hnone : t.node path = none) (hname : ValidName name) :
    t.entry (path ++ [name]) = .error .fileNotFound := by
  simp only [entry, List.getLast?_concat, if_neg (ne_dotdot hname), List.dropLast_concat]
  rcases h.resolve_missing hnone maxLinks with hres | hres
  · rw [hres]
    show (match t.node path with | some .dir => _ | some _ => _ | none => _) = _
    rw [hnone]
  · rw [hres]
    rfl

/-- `mkdir -p` on a clear path makes what is missing of it. -/
theorem mkdirs_clear [DecidableEq κ] (h : t.Clear path) :
    ∃ t', t.mkdirs path = .ok t' ∧ ∀ q, t'.node q = if q <+: path then some .dir else t.node q := by
  have hconcat {path q : TreePath} {name : Name} : q <+: path ++ [name] ↔ q = path ++ [name] ∨ q <+: path :=
    List.prefix_concat_iff
  induction path using List.reverseRecOn with
  | nil =>
    refine ⟨t, rfl, fun q => ?_⟩
    split
    · rename_i hq
      rw [List.prefix_nil.mp hq, t.node_root]
    · rfl
  | append_singleton path name ih =>
    have hname : ValidName name := h.2 name (by simp)
    rw [mkdirs, List.reverse_concat, mkdirsUp, List.reverse_cons, List.reverse_reverse]
    rcases h.init.1 path (List.prefix_refl _) with hmissing | hdir
    · -- the parents first
      have hentry := h.init.entry_missing hmissing hname
      obtain ⟨t', ht', hnodes⟩ := ih h.init
      have hdir' : t'.node path = some .dir := by rw [hnodes, if_pos (List.prefix_refl _)]
      have hnone' : t'.node (path ++ [name]) = none := by
        have hnone : t.node (path ++ [name]) = none := by
          by_contra hthere
          simp [dir_of_child hthere] at hmissing
        rw [hnodes, if_neg (concat_not_prefix_self path name), hnone]
      obtain ⟨t'', ht'', hnodes'⟩ := mkdir_child hdir' hname hnone'
      have hfirst : t.mkdir (path ++ [name]) = .error .fileNotFound := by
        simp only [mkdir, hentry]
        rfl
      refine ⟨t'', ?_, fun q => ?_⟩
      · simp only [hfirst]
        rw [mkdirs] at ht'
        simp only [ht']
        show (match t'.mkdir (path ++ [name]) with | .ok t'' => _ | .error e => _) = _
        rw [ht'']
      · rw [hnodes', hnodes]
        by_cases hq : q = path ++ [name] <;> simp [hq, hconcat]
    · rcases h.1 (path ++ [name]) (List.prefix_refl _) with hnone | hthere
      · obtain ⟨t', ht', hnodes⟩ := mkdir_child hdir hname hnone
        refine ⟨t', by simp only [ht'], fun q => ?_⟩
        rw [hnodes]
        by_cases hq : q = path ++ [name]
        · simp [hq]
        · rw [if_neg hq]
          split
          · rename_i hpre
            exact dir_of_prefix hdir ((hconcat.mp hpre).resolve_left hq)
          · rfl
      · have hexists := mkdir_exists hdir hname (by rw [hthere]; simp)
        have hisDir : t.isDir (path ++ [name]) = true := by simp only [isDir, stat_dir hthere]
        refine ⟨t, by simp only [hexists, hisDir, if_true], fun q => ?_⟩
        split
        · rename_i hpre
          exact dir_of_prefix hthere hpre
        · rfl

-- ---------------------------------------------------------------------------
-- The walk
-- ---------------------------------------------------------------------------

theorem mem_keys : path ∈ t.nodes.keys ↔ t.node path ≠ none := by
  rw [Dict.mem_keys, Option.ne_none_iff_exists']
  rfl

theorem mem_walkBelow (hdir : t.node path = some .dir) :
    rel ∈ t.walkBelow path ↔ rel ≠ [] ∧ t.node (path ++ rel) ≠ none := by
  simp only [walkBelow, resolve_dir hdir, List.mem_map, List.mem_filter, mem_keys, decide_eq_true_eq]
  constructor
  · rintro ⟨k, ⟨hk, ⟨rest, rfl⟩, hne⟩, rfl⟩
    rw [List.drop_left]
    exact ⟨fun hnil => hne (by simp [hnil]), hk⟩
  · rintro ⟨hrel, hnode⟩
    exact ⟨path ++ rel, ⟨hnode, List.prefix_append _ _, by simpa using hrel⟩, by simp⟩

theorem nodup_walkBelow (t : FileTree κ) (path : TreePath) : (t.walkBelow path).Nodup := by
  unfold walkBelow
  split
  · exact .nil
  · rename_i dir hdir
    refine List.Nodup.map_on ?_ (t.nodes.nodup.filter _)
    intro k hk l hl heq
    obtain ⟨-, hk⟩ := List.mem_filter.mp hk
    obtain ⟨-, hl⟩ := List.mem_filter.mp hl
    obtain ⟨⟨rest, rfl⟩, -⟩ := of_decide_eq_true hk
    obtain ⟨⟨rest', rfl⟩, -⟩ := of_decide_eq_true hl
    simpa using heq

theorem of_mem_walkBelow (h : rel ∈ t.walkBelow path) : rel ≠ [] ∧ ∀ name ∈ rel, ValidName name := by
  unfold walkBelow at h
  split at h
  · cases h
  · rename_i dir hdir
    obtain ⟨k, hk, rfl⟩ := List.mem_map.mp h
    obtain ⟨hk, hbelow⟩ := List.mem_filter.mp hk
    obtain ⟨⟨rest, rfl⟩, hne⟩ := of_decide_eq_true hbelow
    rw [List.drop_left]
    exact ⟨by simpa using hne, valid_of_mem (mem_keys.mp hk)⟩

-- ---------------------------------------------------------------------------
-- Trees without linked directories
-- ---------------------------------------------------------------------------

theorem Clear.dir_of_isDir (h : t.Clear path) (hdir : t.isDir path = true) : t.node path = some .dir := by
  refine (h.1 path (List.prefix_refl _)).resolve_left fun hnone => ?_
  rw [isDir_iff, h.stat_missing hnone] at hdir
  cases hdir

/-- No link at a path or below it leads to a directory. -/
def Unlinked (t : FileTree κ) (dir : TreePath) : Prop :=
  ∀ path target, dir <+: path → t.node path = some (.link target) → t.isDir path = false

theorem Unlinked.dir_of_child {dir : TreePath} (h : t.Unlinked dir) (hbelow : dir <+: path ++ [name])
    (hname : ValidName name) (hdir : t.node path = some .dir) (hchild : t.isDir (path ++ [name]) = true) :
    t.node (path ++ [name]) = some .dir := by
  have hlink : ∀ target, t.node (path ++ [name]) ≠ some (.link target) := fun target hlink => by
    rw [h _ target hbelow hlink] at hchild
    cases hchild
  rwa [isDir_iff, stat_child hdir hname hlink] at hchild

section

variable {dir : TreePath} (hdir : t.isDir dir = true → t.node dir = some .dir) (hunlinked : t.Unlinked dir)

include hdir hunlinked

theorem dir_below (hvalid : ∀ name ∈ rel, ValidName name) (h : t.isDir (dir ++ rel) = true) :
    t.node (dir ++ rel) = some .dir := by
  induction rel using List.reverseRecOn with
  | nil =>
    rw [List.append_nil] at h ⊢
    exact hdir h
  | append_singleton rel name ih =>
    rw [← List.append_assoc] at h ⊢
    have hparent : t.isDir (dir ++ rel) = true := isDir_of_stat (isDir_iff.mp h) (by simp)
    have hbelow : dir <+: dir ++ rel ++ [name] := by simp
    exact hunlinked.dir_of_child hbelow (hvalid name (by simp)) (ih (fun n hn => hvalid n (by simp [hn])) hparent) h

theorem node_of_isFile (hvalid : ∀ name ∈ rel, ValidName name) (hrel : rel ≠ []) (h : t.isFile (dir ++ rel) = true) :
    t.node (dir ++ rel) ≠ none := by
  obtain ⟨up, name, rfl⟩ : ∃ up name, rel = up ++ [name] := ⟨_, _, (List.dropLast_append_getLast hrel).symm⟩
  rw [← List.append_assoc] at h ⊢
  obtain ⟨content, hstat⟩ := isFile_iff.mp h
  have hparent : t.node (dir ++ up) = some .dir :=
    dir_below hdir hunlinked (fun n hn => hvalid n (by simp [hn])) (isDir_of_stat hstat (by simp))
  intro hnone
  rw [stat_child hparent (hvalid name (by simp)) (by rw [hnone]; simp), hnone] at hstat
  cases hstat

theorem mem_walkBelow_of_isFile (hvalid : ∀ name ∈ rel, ValidName name) (hrel : rel ≠ [])
    (h : t.isFile (dir ++ rel) = true) : rel ∈ t.walkBelow dir := by
  obtain ⟨content, hstat⟩ := isFile_iff.mp h
  have hphysical : t.node dir = some .dir := hdir (isDir_of_stat hstat hrel)
  exact (mem_walkBelow hphysical).mpr ⟨hrel, node_of_isFile hdir hunlinked hvalid hrel h⟩

end

end FileTree
