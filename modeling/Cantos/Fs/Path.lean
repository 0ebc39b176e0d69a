import Cantos.Lib.Exec

/-!
# File paths

A path is parsed into a chain of entries, each with the one before it as its parent.
Populating the last entry populates its parents and reads its inode; the entries `.` and
`..` get no inode of their own but refer to another entry.

Memory is the list of the entries, and a pointer to one is its index.  A string is the list
of its characters before the terminating zero.  Following `ref` or `parent` for more steps
than there are entries never ends.

## Main definitions

* `Inode`, `FilePathEntry`, `PathState`: the data.
* `FilePathEntry.populate`, `FilePathEntry.getInode`, `FilePathEntry.logicalParent`
* `parsePath`
-/

namespace Cantos

/-- The characters of a `Utf8`. -/
abbrev Utf8 := List Char

/-- `error_t`, as far as resolving a path returns it. -/
inductive Errno
  | eok
  | enoent
  | enotdir
  | other (n : ℕ)
  deriving DecidableEq, Repr

inductive InodeType
  | directory
  | file
  deriving DecidableEq, Repr

structure InodeEntry where
  inode : ℕ
  name : Utf8
  deriving DecidableEq, Repr

/-- `Inode`, without the data of its filesystem and its contents. -/
structure Inode where
  inodeNo : ℕ
  type : InodeType
  children : List InodeEntry
  deriving DecidableEq, Repr

structure FilePathEntry where
  name : Utf8
  parent : Option ℕ
  ref : Option ℕ
  inode : Option Inode
  deriving DecidableEq, Repr

/-- The entries, and the entry that `error_loc` is a copy of. -/
structure PathState where
  entries : List FilePathEntry
  errorLoc : Option FilePathEntry
  deriving DecidableEq, Repr

/-- Why resolving a path does not return. -/
inductive PathStuck
  | nullDeref
  | diverge
  deriving DecidableEq, Repr

abbrev PathM := Exec PathStuck PathState

/-- `.` -/
def dot : Utf8 := ['.']

/-- `..` -/
def dotDot : Utf8 := ['.', '.']

namespace FilePathEntry

/-- The entry at an address. -/
def deref (i : ℕ) : PathM FilePathEntry := do
  let s ← Exec.get
  match s.entries[i]? with
  | some e => pure e
  | none => Exec.stop .nullDeref

/-- `get_inode`; `k` bounds the number of references. -/
def getInode : (k i : ℕ) → PathM (Option Inode)
  | 0, _ => Exec.stop .diverge
  | k + 1, i => do
      let this ← deref i
      match this.ref with
      | some ref => getInode k ref
      | none => pure this.inode

/-- `logical_parent` -/
def logicalParent : (k i : ℕ) → PathM ℕ
  | 0, _ => Exec.stop .diverge
  | k + 1, i => do
      let this ← deref i
      match this.ref, this.parent with
      | some ref, _ => logicalParent k ref
      | none, none => pure i
      | none, some parent => pure parent

/-- Write the entry at `i`. -/
def write (i : ℕ) (f : FilePathEntry → FilePathEntry) : PathM Unit :=
  Exec.modify fun s => { s with entries := s.entries.modify i f }

/-- Write `error_loc`. -/
def setErrorLoc (e : FilePathEntry) : PathM Unit :=
  Exec.modify fun s => { s with errorLoc := some e }

/-- The part of `populate` behind the parent's.  `err` is what the local variable of that
name holds, which is returned when the inode of a child cannot be read. -/
def populateFrom (readInode : ℕ → Except Errno Inode) (err : Errno) (i lp : ℕ) : PathM Errno := do
  let s ← Exec.get
  let bound := s.entries.length
  let this ← deref i
  if this.name = dot then do
    write i ({ · with ref := some lp })
    pure .eok
  else if this.name = dotDot then do
    let ref ← logicalParent bound lp
    write i ({ · with ref := some ref })
    pure .eok
  else do
    let dir ← getInode bound lp
    setErrorLoc this
    match dir with
    | none => Exec.stop .nullDeref
    | some dir =>
        if dir.type ≠ .directory then
          match this.parent with
          | none => Exec.stop .nullDeref
          | some parent => do
              let parent ← deref parent
              setErrorLoc parent
              pure .enotdir
        else
          match dir.children.find? fun ie => ie.name = this.name with
          | none => pure .enoent
          | some ie =>
              match readInode ie.inode with
              | .ok inode => do
                  write i ({ · with inode := some inode })
                  pure .eok
              | .error _ => do
                  write i ({ · with inode := none })
                  pure err

/-- `populate`; `readInode i` answers what the entry at `i` reads, `uninit` is what its
local variable `err` holds before it is written, and `k` bounds the number of parents. -/
def populate (readInode : ℕ → ℕ → Except Errno Inode) (uninit : Errno) : (k i : ℕ) → PathM Errno
  | 0, _ => Exec.stop .diverge
  | k + 1, i => do
      let s ← Exec.get
      let bound := s.entries.length
      let lp ← logicalParent bound i
      let inode ← getInode bound lp
      match inode with
      | some _ => populateFrom (readInode i) uninit i lp
      | none => do
          let this ← deref i
          match this.parent with
          | none => Exec.stop .nullDeref
          | some parent => do
              let err ← populate readInode uninit k parent
              if err ≠ .eok then pure err else populateFrom (readInode i) err i lp

end FilePathEntry

/-! ## Parsing -/

/-- `path.find(c, pos)` -/
def Utf8.find (path : Utf8) (c : Char) (pos : ℕ) : Option ℕ :=
  ((path.drop pos).findIdx? (· = c)).map (pos + ·)

/-- `path.substr(pos, len)` -/
def Utf8.substr (path : Utf8) (pos len : ℕ) : Utf8 := (path.drop pos).take len

/-- A new entry behind `parent`, when the name has bytes. -/
def appendName (fname : Utf8) (parent : ℕ) : PathM ℕ := do
  if fname.length ≠ 0 then do
    let s ← Exec.get
    Exec.set { s with entries := s.entries ++ [⟨fname, some parent, none, none⟩] }
    pure s.entries.length
  else pure parent

/-- The loop of `parse_path`, and the rest of the string behind it. -/
def parseFrom (path : Utf8) : (k oldpos parent : ℕ) → PathM ℕ
  | 0, _, _ => Exec.stop .diverge
  | k + 1, oldpos, parent =>
      match path.find '/' oldpos with
      | some pos => do
          let parent ← appendName (path.substr oldpos (pos - oldpos)) parent
          parseFrom path k (pos + 1) parent
      | none => appendName (path.substr oldpos path.length) parent

/-- `parse_path` -/
def parsePath (path : Utf8) (base : ℕ) : PathM ℕ := parseFrom path (path.length + 1) 0 base

/-- A parentless entry that holds the root directory. -/
def rootEntry (name : Utf8) (root : Inode) : FilePathEntry := ⟨name, none, none, some root⟩

/-- Parse a path behind the entry `base`, populate the result, and read the number of its
inode. -/
def resolve (readInode : ℕ → Except Errno Inode) (uninit : Errno) (path : Utf8) (base : ℕ) :
    PathM (Errno × Option ℕ) := do
  let p ← parsePath path base
  let s ← Exec.get
  let err ← FilePathEntry.populate (fun _ => readInode) uninit s.entries.length p
  if err = .eok then do
    let inode ← FilePathEntry.getInode s.entries.length p
    pure (err, inode.map (·.inodeNo))
  else pure (err, none)

/-! ## The directory tree -/

/-- The components of a path: what stands between its slashes, when it is not empty. -/
def components (path : Utf8) : List Utf8 := (path.splitOn '/').filter (· ≠ [])

namespace Walk

/-- Leave the top of a stack, unless it is the root. -/
def pop : List Inode → List Inode
  | _ :: n :: st => n :: st
  | st => st

/-- The child of the node on top, in a tree with the inodes `tree`. -/
def child (tree : ℕ → Inode) (st : List Inode) (name : Utf8) : Except Errno (List Inode) :=
  match st.head? with
  | none => .error .enotdir
  | some n =>
      if n.type ≠ .directory then .error .enotdir
      else match n.children.find? fun ie => ie.name = name with
        | none => .error .enoent
        | some ie => .ok (tree ie.inode :: st)

/-- One component of a path, from a stack of nodes: `.` and `..` work on any node. -/
def step (tree : ℕ → Inode) (st : List Inode) (name : Utf8) : Except Errno (List Inode) :=
  if name = dot then .ok st
  else if name = dotDot then .ok (pop st)
  else child tree st name

/-- The components of a path one after the other. -/
def walk (tree : ℕ → Inode) : List Inode → List Utf8 → Except Errno (List Inode)
  | st, [] => .ok st
  | st, name :: names =>
      match step tree st name with
      | .ok st => walk tree st names
      | .error e => .error e

/-- The node on top of a stack is a directory. -/
def atDirectory (st : List Inode) : Bool := st.head?.any (·.type = .directory)

/-- The reference walk: every component stands in a directory. -/
def strict (tree : ℕ → Inode) : List Inode → List Utf8 → Except Errno (List Inode)
  | st, [] => .ok st
  | st, name :: names =>
      if atDirectory st = false then .error .enotdir
      else match step tree st name with
        | .ok st => strict tree st names
        | .error e => .error e

end Walk

end Cantos
