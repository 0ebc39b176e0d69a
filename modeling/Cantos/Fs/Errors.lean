import Cantos.Fs.Repopulate

/-!
# The errors of populate

`populate` climbs from an entry along its parents until the logical parent of one holds an
inode, and walks down again.  What the walk comes to can be read off the chain before: each
entry goes through the nodes of its ancestors, some of which may be missing.

## Main definitions

* `IsChain`: every entry but the first has the one before it as its parent.
* `nodes`, `above`: the nodes that an entry and its logical parent go through.
* `Views`, `course`: what the entries go through when they have been populated, and what the walk
  comes to.
* `fault`: the inode that cannot be read.
* `Faithful`: errors are reported as the documentation of `populate` says.
* `Reports`: the walk ends at an inode, or at a missing one before anything went wrong.
-/

namespace Cantos

namespace Populate

open Exec

/-- `ENOPATHBASE` -/
def enopathbase : Errno := .other 5

/-- `Filesystem::read_inode`, which may answer each entry differently; an error is not `EOK`. -/
abbrev Reader := { readInode : ℕ → ℕ → Except Errno Inode // ∀ i k, readInode i k ≠ .error .eok }

/-- The entries of a path, the first of them without a parent. -/
structure IsChain (entries : List FilePathEntry) : Prop where
  base : ∀ e, entries[0]? = some e → e.parent = none
  parent : ∀ k e, entries[k + 1]? = some e → e.parent = some k
  /-- Only `.` and `..` refer to other entries, and to entries before them. -/
  ref : ∀ k (e : FilePathEntry) r, entries[k]? = some e → e.ref = some r → r < k ∧ IsDot e.name

/-! ## Nodes -/

/-- The nodes that every entry goes through. -/
abbrev Views := ℕ → List (Option Inode)

/-- The nodes from an entry to the beginning of its chain, when the entries in front of `d` go
through those of `v`; `k` bounds their number. -/
def nodesFrom (entries : List FilePathEntry) (d : ℕ) (v : Views) : (k i : ℕ) → List (Option Inode)
  | 0, _ => []
  | k + 1, i =>
      if i < d then v i
      else
        match entries[i]? with
        | none => []
        | some e =>
            match e.ref, e.parent with
            | some r, _ => nodesFrom entries d v k r
            | none, none => [e.inode]
            | none, some p => e.inode :: nodesFrom entries d v k p

def nodes (entries : List FilePathEntry) : Views :=
  fun i => nodesFrom entries 0 (fun _ => []) (i + 1) i

/-- The entry that is the logical parent. -/
def logicalFrom (entries : List FilePathEntry) : (k i : ℕ) → ℕ
  | 0, i => i
  | k + 1, i =>
      match entries[i]? with
      | none => i
      | some e =>
          match e.ref, e.parent with
          | some r, _ => logicalFrom entries k r
          | none, none => i
          | none, some p => p

def logical (entries : List FilePathEntry) (i : ℕ) : ℕ := logicalFrom entries entries.length i

/-- The nodes of the logical parent. -/
def above (entries : List FilePathEntry) (i : ℕ) : List (Option Inode) :=
  nodes entries (logical entries i)

/-- The nodes without the last one, unless it is the only one. -/
def up : List (Option Inode) → List (Option Inode)
  | _ :: n :: st => n :: st
  | st => st

/-- The inode at the end of some nodes. -/
def top (st : List (Option Inode)) : Option Inode := st.head?.join

/-! ## Courses -/

/-- What populating comes to. -/
inductive Course
  /-- The entry, and those in front of it, go through these nodes. -/
  | ok (v : Views)
  /-- The entries in front of `d` go through these nodes, and those from `d` on are as they were. -/
  | err (e : Errno) (loc d : ℕ) (v : Views)
  /-- The value of an uninitialised variable is returned. -/
  | uninit
  /-- A null pointer is followed. -/
  | stops
  /-- The entry refers to itself. -/
  | circles

/-- The entry at `i` goes through the node it has found, and those of its parent `q`. -/
def Views.child (v : Views) (q : ℕ) (inode : Option Inode) (i : ℕ) : Views :=
  Function.update v i (inode :: if i = 0 then [] else v q)

/-- A name is looked up in a directory, that of the entry `q`; `first` says that no parent has
been populated. -/
def lookup (R : Reader) (first : Bool) (dir : Inode) (v : Views) (q : ℕ) (name : Utf8) :
    ℕ → Course := fun i =>
  if dir.type ≠ .directory then
    match i with
    | 0 => .stops
    | p + 1 => .err .enotdir p i v
  else
    match dir.children.find? fun ie => ie.name = name with
    | none => .err .enoent i i v
    | some ie =>
        match R.1 i ie.inode with
        | .ok inode => .ok (v.child q (some inode) i)
        | .error _ => if first then .uninit else .ok (v.child q none i)

/-- The step of one entry, whose logical parent is the entry `q`. -/
def stepAt (R : Reader) (first : Bool) (v : Views) (q : ℕ) (name : Utf8) (i : ℕ) : Course :=
  if name = dot ∨ name = dotDot then
    if i = 0 then .circles
    else .ok (Function.update v i (if name = dot then v q else up (v q)))
  else
    match top (v q) with
    | none => .stops
    | some dir => lookup R first dir v q name i

/-- The name of an entry. -/
def nameAt (entries : List FilePathEntry) (i : ℕ) : Utf8 := (entries[i]?.map (·.name)).getD []

/-- What populating the entry at `i` comes to. -/
def course (R : Reader) (entries : List FilePathEntry) : ℕ → Course
  | 0 =>
      match top (above entries 0) with
      | some _ => stepAt R true (nodes entries) (logical entries 0) (nameAt entries 0) 0
      | none => .stops
  | i + 1 =>
      match top (above entries (i + 1)) with
      | some _ =>
          stepAt R true (nodes entries) (logical entries (i + 1)) (nameAt entries (i + 1)) (i + 1)
      | none =>
          match course R entries i with
          | .ok v => stepAt R false v (logical entries (i + 1)) (nameAt entries (i + 1)) (i + 1)
          | c => c

/-- The child with a name cannot be read. -/
def faultAt (R : Reader) (st : List (Option Inode)) (name : Utf8) (i : ℕ) : Option (Errno × ℕ) :=
  if name = dot ∨ name = dotDot then none
  else
    match top st with
    | none => none
    | some dir =>
        if dir.type ≠ .directory then none
        else
          match dir.children.find? fun ie => ie.name = name with
          | none => none
          | some ie =>
              match R.1 i ie.inode with
              | .ok _ => none
              | .error e => some (e, i)

/-- The first inode on the way to the entry at `i` that cannot be read. -/
def fault (R : Reader) (entries : List FilePathEntry) : ℕ → Option (Errno × ℕ)
  | 0 =>
      match top (above entries 0) with
      | some _ => faultAt R (above entries 0) (nameAt entries 0) 0
      | none => none
  | i + 1 =>
      match top (above entries (i + 1)) with
      | some _ => faultAt R (above entries (i + 1)) (nameAt entries (i + 1)) (i + 1)
      | none =>
          match fault R entries i, course R entries i with
          | some f, _ => some f
          | none, .ok v =>
              faultAt R (v (logical entries (i + 1))) (nameAt entries (i + 1)) (i + 1)
          | none, _ => none

/-- The entry that fails. -/
def FailsAt (R : Reader) (entries : List FilePathEntry) (i loc : ℕ) : Prop :=
  match fault R entries i with
  | some f => loc = f.2
  | none => ∃ e d v, course R entries i = .err e loc d v

/-- `populate` reports errors faithfully. -/
def Faithful (R : Reader) (s : PathState) (i : ℕ) : Prop :=
  ∀ uninit, (FilePathEntry.populate R.1 uninit s.entries.length i).Gives s fun err s' =>
    (err = .eok ↔ ∃ n, (FilePathEntry.getInode s'.entries.length i).Returns s' (some n) s') ∧
    (∀ f, fault R s.entries i = some f → err = f.1) ∧
    ((∀ k ≤ i, top (above s.entries k) = none) → err = enopathbase) ∧
    (err ≠ .eok → (∀ e, s'.entries[i]? = some e → e.inode = none) ∧
      ∃ loc, FailsAt R s.entries i loc ∧ s'.errorLoc = s'.entries[loc]?)

/-- Nothing is unreadable, and the walk ends at an inode, or finds a name missing or in no
directory while the entry holds no inode and refers to none. -/
def Reports (R : Reader) (entries : List FilePathEntry) (i : ℕ) : Prop :=
  fault R entries i = none ∧
    match course R entries i with
    | .ok v => (top (v i)).isSome
    | .err _ _ d v => (∀ e, entries[i]? = some e → e.inode = none) ∧
        top (nodesFrom entries d v (i + 1) i) = none
    | _ => False

/-! ## What an entry goes through -/

/-- The entry at `i` goes through these nodes. -/
inductive Sees (entries : List FilePathEntry) : ℕ → List (Option Inode) → Prop
  | base {i : ℕ} {e : FilePathEntry} (get : entries[i]? = some e) (ref : e.ref = none)
      (parent : e.parent = none) : Sees entries i [e.inode]
  | child {i p : ℕ} {e : FilePathEntry} {st : List (Option Inode)} (get : entries[i]? = some e)
      (ref : e.ref = none) (parent : e.parent = some p) (lt : p < i) (rest : Sees entries p st) :
      Sees entries i (e.inode :: st)
  | ref {i r : ℕ} {e : FilePathEntry} {st : List (Option Inode)} (get : entries[i]? = some e)
      (ref : e.ref = some r) (lt : r < i) (rest : Sees entries r st) : Sees entries i st

section Seeing
variable {entries entries' : List FilePathEntry} {s : PathState} {e : FilePathEntry}
  {i k d : ℕ} {st st' : List (Option Inode)} {v : Views}

theorem Sees.ne_nil (h : Sees entries i st) : st ≠ [] := by
  induction h with
  | base => simp
  | child => simp
  | ref _ _ _ _ ih => exact ih

theorem Sees.mono (h : Sees entries i st) (he : ∀ j ≤ i, entries'[j]? = entries[j]?) :
    Sees entries' i st := by
  induction h with
  | base get ref parent => exact .base ((he _ le_rfl).trans get) ref parent
  | child get ref parent lt _ ih =>
    exact .child ((he _ le_rfl).trans get) ref parent lt (ih fun j hj => he j (hj.trans lt.le))
  | ref get ref lt _ ih =>
    exact .ref ((he _ le_rfl).trans get) ref lt (ih fun j hj => he j (hj.trans lt.le))

theorem Sees.unique (h : Sees entries i st) (h' : Sees entries i st') : st = st' := by
  induction h generalizing st' with
  | base get ref parent =>
    cases h' with
    | base get' =>
      obtain rfl := Option.some.inj (get.symm.trans get')
      rfl
    | child get' _ parent' =>
      obtain rfl := Option.some.inj (get.symm.trans get')
      cases parent.symm.trans parent'
    | ref get' ref' =>
      obtain rfl := Option.some.inj (get.symm.trans get')
      cases ref.symm.trans ref'
  | child get ref parent _ _ ih =>
    cases h' with
    | base get' _ parent' =>
      obtain rfl := Option.some.inj (get.symm.trans get')
      cases parent.symm.trans parent'
    | child get' _ parent' _ rest' =>
      obtain rfl := Option.some.inj (get.symm.trans get')
      obtain rfl := Option.some.inj (parent.symm.trans parent')
      rw [ih rest']
    | ref get' ref' =>
      obtain rfl := Option.some.inj (get.symm.trans get')
      cases ref.symm.trans ref'
  | ref get ref _ _ ih =>
    cases h' with
    | base get' ref' | child get' ref' =>
      obtain rfl := Option.some.inj (get.symm.trans get')
      cases ref.symm.trans ref'
    | ref get' ref' _ rest' =>
      obtain rfl := Option.some.inj (get.symm.trans get')
      obtain rfl := Option.some.inj (ref.symm.trans ref')
      exact ih rest'

/-- The entries from `d` on are as they were, and those before go through `v`. -/
theorem Sees.nodesFrom_eq (h : Sees entries' i st) (hd : ∀ j < d, Sees entries' j (v j))
    (hsame : ∀ j, d ≤ j → entries'[j]? = entries[j]?) (hk : i < k) :
    nodesFrom entries d v k i = st := by
  induction h generalizing k with
  | @base i e get ref parent =>
    obtain ⟨k, rfl⟩ := Nat.exists_eq_succ_of_ne_zero (Nat.ne_zero_of_lt hk)
    rw [nodesFrom]
    split_ifs with hlt
    · exact (hd i hlt).unique (.base get ref parent)
    · simp only [← hsame i (not_lt.mp hlt), get, ref, parent]
  | @child i p e st get ref parent lt rest ih =>
    obtain ⟨k, rfl⟩ := Nat.exists_eq_succ_of_ne_zero (Nat.ne_zero_of_lt hk)
    rw [nodesFrom]
    split_ifs with hlt
    · exact (hd i hlt).unique (.child get ref parent lt rest)
    · simp only [← hsame i (not_lt.mp hlt), get, ref, parent, ih (by omega : _ < k)]
  | @ref i r e st get ref lt rest ih =>
    obtain ⟨k, rfl⟩ := Nat.exists_eq_succ_of_ne_zero (Nat.ne_zero_of_lt hk)
    rw [nodesFrom]
    split_ifs with hlt
    · exact (hd i hlt).unique (.ref get ref lt rest)
    · simp only [← hsame i (not_lt.mp hlt), get, ref, ih (by omega : _ < k)]

theorem Sees.nodes_eq (h : Sees entries i st) : nodes entries i = st :=
  h.nodesFrom_eq (fun _ hj => absurd hj (Nat.not_lt_zero _)) (fun _ _ => rfl) (Nat.lt_succ_self i)

theorem Sees.lt (h : Sees entries i st) : i < entries.length := by
  cases h with
  | base get | child get | ref get => exact (List.getElem?_eq_some_iff.mp get).1

theorem IsChain.sees (h : IsChain entries) (hi : i < entries.length) :
    Sees entries i (nodes entries i) := by
  obtain ⟨st, hst⟩ : ∃ st, Sees entries i st := by
    induction i using Nat.strongRecOn with
    | _ i ih =>
      have hget := List.getElem?_eq_getElem hi
      rcases href : entries[i].ref with _ | r
      · cases i with
        | zero => exact ⟨_, .base hget href (h.base _ hget)⟩
        | succ p =>
          obtain ⟨st, hst⟩ := ih p (Nat.lt_succ_self p) (by omega)
          exact ⟨_, .child hget href (h.parent p _ hget) (Nat.lt_succ_self p) hst⟩
      · have hr := (h.ref i _ r hget href).1
        obtain ⟨st, hst⟩ := ih r hr (hr.trans hi)
        exact ⟨st, .ref hget href hr hst⟩
  rwa [hst.nodes_eq]

/-- `get_inode` is the last node. -/
theorem Sees.getInode (h : Sees s.entries i st) (hk : i < k) :
    (FilePathEntry.getInode k i).Returns s (top st) s := by
  induction h generalizing k with
  | base get ref | child get ref =>
    obtain ⟨k, rfl⟩ := Nat.exists_eq_succ_of_ne_zero (Nat.ne_zero_of_lt hk)
    rw [FilePathEntry.getInode, Returns, (deref_returns get).bind_eq, ref]
    rfl
  | ref get ref lt _ ih =>
    obtain ⟨k, rfl⟩ := Nat.exists_eq_succ_of_ne_zero (Nat.ne_zero_of_lt hk)
    rw [FilePathEntry.getInode, Returns, (deref_returns get).bind_eq, ref]
    exact ih (by omega)

/-- `logical_parent` goes through the nodes above. -/
theorem Sees.logicalParent (h : Sees s.entries i st) (hk : i < k) :
    (FilePathEntry.logicalParent k i).Returns s (logicalFrom s.entries k i) s ∧
      Sees s.entries (logicalFrom s.entries k i) (up st) ∧ logicalFrom s.entries k i ≤ i ∧
      (logicalFrom s.entries k i = i → ∃ e, s.entries[i]? = some e ∧ e.parent = none) := by
  induction h generalizing k with
  | base get ref parent =>
    obtain ⟨k, rfl⟩ := Nat.exists_eq_succ_of_ne_zero (Nat.ne_zero_of_lt hk)
    simp only [logicalFrom, get, ref, parent]
    refine ⟨?_, .base get ref parent, le_rfl, fun _ => ⟨_, rfl, parent⟩⟩
    rw [FilePathEntry.logicalParent, Returns, (deref_returns get).bind_eq, ref, parent]
    rfl
  | child get ref parent lt rest =>
    obtain ⟨k, rfl⟩ := Nat.exists_eq_succ_of_ne_zero (Nat.ne_zero_of_lt hk)
    obtain ⟨n, st, rfl⟩ := List.exists_cons_of_ne_nil rest.ne_nil
    simp only [logicalFrom, get, ref, parent]
    refine ⟨?_, rest, lt.le, fun heq => absurd heq lt.ne⟩
    rw [FilePathEntry.logicalParent, Returns, (deref_returns get).bind_eq, ref, parent]
    rfl
  | ref get ref lt _ ih =>
    obtain ⟨k, rfl⟩ := Nat.exists_eq_succ_of_ne_zero (Nat.ne_zero_of_lt hk)
    obtain ⟨hq, hsees, hle, -⟩ := ih (k := k) (by omega)
    simp only [logicalFrom, get, ref]
    refine ⟨?_, hsees, hle.trans lt.le, fun heq => absurd (hle.trans_lt lt) (by omega)⟩
    rw [FilePathEntry.logicalParent, Returns, (deref_returns get).bind_eq, ref]
    exact hq

end Seeing

/-! ## One entry -/

section Populating
variable {R : Reader} {s s' t : PathState} {e : FilePathEntry} {st : List (Option Inode)}
  {v : Views} {uninit err : Errno} {i j k d lp : ℕ} {first : Bool}

/-- An entry is written, and the entries are a chain still. -/
structure Wrote (i : ℕ) (s s' : PathState) : Prop extends WritesAt i s s' where
  chain : IsChain s'.entries

theorem Wrote.loc (h : IsChain s.entries) (loc : Option FilePathEntry) :
    Wrote i s ⟨s.entries, loc⟩ :=
  ⟨⟨rfl, fun _ _ => rfl⟩, h⟩

/-- The entry keeps its name and its parent. -/
theorem Wrote.modify (h : IsChain s.entries) (hget : s.entries[i]? = some e)
    (f : FilePathEntry → FilePathEntry) (loc : Option FilePathEntry)
    (hparent : (f e).parent = e.parent) (hname : (f e).name = e.name)
    (href : ∀ r, (f e).ref = some r → r < i ∧ IsDot e.name) :
    Wrote i s ⟨s.entries.modify i f, loc⟩ := by
  have hnew : (s.entries.modify i f)[i]? = some (f e) := by simp [hget]
  have hold : ∀ j, j ≠ i → (s.entries.modify i f)[j]? = s.entries[j]? := fun j hj => by
    simp [hj.symm]
  refine ⟨writesAt_modify f loc, ⟨fun d hd => ?_, fun j d hd => ?_, fun j d r hd hr => ?_⟩⟩
  · by_cases hi : i = 0
    · subst hi
      obtain rfl := Option.some.inj (hnew.symm.trans hd)
      exact hparent.trans (h.base e hget)
    · exact h.base d ((hold 0 (Ne.symm hi)).symm.trans hd)
  · by_cases hi : i = j + 1
    · subst hi
      obtain rfl := Option.some.inj (hnew.symm.trans hd)
      exact hparent.trans (h.parent j e hget)
    · exact h.parent j d ((hold _ (Ne.symm hi)).symm.trans hd)
  · by_cases hi : i = j
    · subst hi
      obtain rfl := Option.some.inj (hnew.symm.trans hd)
      rw [hname]
      exact href r hr
    · exact h.ref j d r ((hold j (Ne.symm hi)).symm.trans hd) hr

theorem Wrote.sees (h : Wrote i s s') (hst : Sees s.entries lp st) (hlp : lp < i) :
    Sees s'.entries lp st :=
  hst.mono fun j hj => h.other j (by omega)

/-- A name that is no dot. -/
theorem IsChain.ref_none (h : IsChain s.entries) (hget : s.entries[i]? = some e)
    (hname : ¬ IsDot e.name) : e.ref = none :=
  Option.eq_none_iff_forall_ne_some.mpr fun r hr => hname (h.ref i e r hget hr).2

/-- An inode is written, or cleared. -/
theorem write_inode (h : IsChain s.entries) (hget : s.entries[i]? = some e)
    (hname : ¬ IsDot e.name) (hst : Sees s.entries lp st) (hlp : i = 0 ∨ lp + 1 = i)
    (inode : Option Inode) (loc : Option FilePathEntry) :
    Wrote i s ⟨s.entries.modify i ({ · with inode }), loc⟩ ∧
      Sees (s.entries.modify i ({ · with inode })) i (inode :: if i = 0 then [] else st) := by
  have href := h.ref_none hget hname
  have hw : Wrote i s ⟨s.entries.modify i ({ · with inode }), loc⟩ :=
    .modify h hget _ loc rfl rfl fun r hr => absurd (hr.symm.trans href) (by simp)
  have hnew : (s.entries.modify i ({ · with inode }))[i]? = some { e with inode } := by
    simp [hget]
  refine ⟨hw, ?_⟩
  rcases hlp with rfl | rfl
  · exact .base hnew href (h.base e hget)
  · have hrest := hw.sees hst (Nat.lt_succ_self lp)
    exact .child hnew href (h.parent lp e hget) (Nat.lt_succ_self lp) hrest

/-- The entries in front of it go through what they went through before. -/
theorem Wrote.views (h : Wrote i s s') (hv : ∀ j < i, Sees s.entries j (v j))
    (hst : Sees s'.entries i st) : ∀ j ≤ i, Sees s'.entries j (Function.update v i st j) := by
  intro j hj
  rcases hj.lt_or_eq with hlt | rfl
  · rw [Function.update_of_ne hlt.ne]
    exact h.sees (hv j hlt) hlt
  · rwa [Function.update_self]

/-- What the part behind the parent's does. -/
def Follows (s : PathState) (i : ℕ) (x : PathM Errno) (err : Errno) : Course → Prop
  | .ok v => x.Gives s fun r s' => r = .eok ∧ (∀ j ≤ i, Sees s'.entries j (v j)) ∧ Wrote i s s'
  | .err e loc d v => x.Gives s fun r s' => r = e ∧ (e = .enoent ∨ e = .enotdir) ∧
      s'.errorLoc = s'.entries[loc]? ∧ s'.entries = s.entries ∧ d = i ∧
      ∀ j < d, Sees s'.entries j (v j)
  | .uninit => x.Gives s fun r _ => r = err
  | .stops => ∃ e t, x.Stops s e t
  | .circles => x.Gives s fun r s' => r = .eok ∧ s'.entries.length = s.entries.length ∧
      ∃ e, s'.entries[i]? = some e ∧ e.ref = some i

/-- The loop of `populate` over the children, when `error_loc` has been set. -/
def search (R : Reader) (err : Errno) (i : ℕ) (this : FilePathEntry) :
    Option Inode → PathM Errno
  | none => Exec.stop .nullDeref
  | some dir =>
      if dir.type ≠ .directory then
        match this.parent with
        | none => Exec.stop .nullDeref
        | some parent => do
            let parent ← FilePathEntry.deref parent
            FilePathEntry.setErrorLoc parent
            pure .enotdir
      else
        match dir.children.find? fun ie => ie.name = this.name with
        | none => pure .enoent
        | some ie =>
            match R.1 i ie.inode with
            | .ok inode => do
                FilePathEntry.write i ({ · with inode := some inode })
                pure .eok
            | .error _ => do
                FilePathEntry.write i ({ · with inode := none })
                pure err

theorem populateFrom_eq (hget : s.entries[i]? = some e) (hname : ¬ IsDot e.name)
    (hst : Sees s.entries lp st) : FilePathEntry.populateFrom (R.1 i) err i lp s =
      search R err i e (top st) ⟨s.entries, some e⟩ := by
  have hdot : e.name ≠ dot ∧ e.name ≠ dotDot := not_or.mp hname
  rw [FilePathEntry.populateFrom]
  change (FilePathEntry.deref i >>= _) s = _
  rw [(deref_returns hget).bind_eq, if_neg hdot.1, if_neg hdot.2, (hst.getInode hst.lt).bind_eq]
  rfl

/-- Setting `error_loc` first makes no difference. -/
theorem Follows.of_eq {x y : PathM Errno} {c : Course} {loc : Option FilePathEntry}
    (hx : y s = x ⟨s.entries, loc⟩) (h : Follows ⟨s.entries, loc⟩ i x err c) :
    Follows s i y err c := by
  cases c with
  | ok st =>
    obtain ⟨r, s', hret, hr, hsees, hw⟩ := h
    exact ⟨r, s', hx.trans hret, hr, hsees, ⟨⟨hw.length, hw.other⟩, hw.chain⟩⟩
  | err e loc' =>
    obtain ⟨r, s', hret, h⟩ := h
    exact ⟨r, s', hx.trans hret, h⟩
  | uninit =>
    obtain ⟨r, s', hret, h⟩ := h
    exact ⟨r, s', hx.trans hret, h⟩
  | stops =>
    obtain ⟨e, t, hstop⟩ := h
    exact ⟨e, t, hx.trans hstop⟩
  | circles =>
    obtain ⟨r, s', hret, h⟩ := h
    exact ⟨r, s', hx.trans hret, h⟩

theorem populateFrom_lookup (h : IsChain s.entries) (hget : s.entries[i]? = some e)
    (hname : ¬ IsDot e.name) (hv : ∀ j < i, Sees s.entries j (v j))
    (hst : Sees s.entries lp (v lp)) (hlp : i = 0 ∨ lp + 1 = i)
    (herr : first = false → err = .eok) :
    Follows s i (FilePathEntry.populateFrom (R.1 i) err i lp) err
      (stepAt R first v lp e.name i) := by
  have hname' : ¬ (e.name = dot ∨ e.name = dotDot) := hname
  obtain ⟨hi, -⟩ := List.getElem?_eq_some_iff.mp hget
  refine Follows.of_eq (populateFrom_eq hget hname hst) ?_
  rw [stepAt, if_neg hname']
  rcases top (v lp) with _ | dir
  · exact ⟨_, _, rfl⟩
  simp only [lookup, search]
  by_cases hdir : dir.type = .directory
  · simp only [hdir, ne_eq, not_true_eq_false, if_false]
    rcases hfind : dir.children.find? (fun ie => ie.name = e.name) with _ | ie
    · simp only [hfind]
      exact ⟨_, _, rfl, rfl, .inl rfl, hget.symm, rfl, rfl, hv⟩
    · simp only [hfind]
      rcases hread : R.1 i ie.inode with e' | inode
      · obtain ⟨hw, hsees⟩ := write_inode h hget hname hst hlp none (some e)
        cases first with
        | true => exact ⟨_, _, rfl, rfl⟩
        | false =>
          exact ⟨_, _, rfl, herr rfl, hw.views hv hsees, ⟨⟨hw.length, hw.other⟩, hw.chain⟩⟩
      · obtain ⟨hw, hsees⟩ := write_inode h hget hname hst hlp (some inode) (some e)
        exact ⟨_, _, rfl, rfl, hw.views hv hsees, ⟨⟨hw.length, hw.other⟩, hw.chain⟩⟩
  · simp only [hdir, ne_eq, not_false_eq_true, if_true]
    cases i with
    | zero =>
      rw [h.base e hget]
      exact ⟨_, _, rfl⟩
    | succ p =>
      rw [h.parent p e hget]
      have hp := List.getElem?_eq_getElem (l := s.entries) (i := p) (by omega)
      have hderef : (FilePathEntry.deref p).Returns ⟨s.entries, some e⟩ s.entries[p]
          ⟨s.entries, some e⟩ := deref_returns hp
      refine ⟨.enotdir, ⟨s.entries, some s.entries[p]⟩, ?_, rfl, .inr rfl, hp.symm, rfl, rfl, hv⟩
      exact (hderef.bind_eq _).trans rfl

/-- An entry that is `.` or `..` refers to its logical parent, or to the one above. -/
theorem populateFrom_dot (h : IsChain s.entries) (hget : s.entries[i]? = some e)
    (hname : IsDot e.name) (hv : ∀ j < i, Sees s.entries j (v j))
    (hst : Sees s.entries lp (v lp)) (hlp : lp < i ∨ i = 0 ∧ lp = 0) :
    Follows s i (FilePathEntry.populateFrom (R.1 i) err i lp) err
      (stepAt R first v lp e.name i) := by
  have hname' : e.name = dot ∨ e.name = dotDot := hname
  obtain ⟨hq, hsees, hqlp, -⟩ := hst.logicalParent hst.lt
  generalize logicalFrom s.entries s.entries.length lp = q at hq hsees hqlp
  have hrun : FilePathEntry.populateFrom (R.1 i) err i lp s =
      (.ok .eok, ⟨s.entries.modify i ({ · with ref := some (if e.name = dot then lp else q) }),
        s.errorLoc⟩) := by
    rw [FilePathEntry.populateFrom]
    change (FilePathEntry.deref i >>= _) s = _
    rw [(deref_returns hget).bind_eq]
    by_cases hdot : e.name = dot
    · rw [if_pos hdot, if_pos hdot]
      rfl
    · rw [if_neg hdot, if_neg hdot, if_pos (hname.resolve_left hdot), hq.bind_eq]
      rfl
  have hnew : ∀ r : ℕ, (s.entries.modify i ({ · with ref := some r }))[i]? =
      some { e with ref := some r } := fun r => by simp [hget]
  rw [stepAt, if_pos hname']
  by_cases hi : i = 0
  · subst hi
    obtain ⟨-, rfl⟩ := hlp.resolve_left (Nat.not_lt_zero lp)
    have hzero : (if e.name = dot then 0 else q) = 0 := by
      split_ifs
      · rfl
      · omega
    rw [if_pos rfl]
    rw [hzero] at hrun
    exact ⟨_, _, hrun, rfl, List.length_modify _ _ _, _, hnew 0, rfl⟩
  · rw [if_neg hi]
    have hlt := hlp.resolve_right fun h => hi h.1
    by_cases hdot : e.name = dot
    · rw [if_pos hdot] at hrun ⊢
      have hw : Wrote i s ⟨s.entries.modify i ({ · with ref := some lp }), s.errorLoc⟩ :=
        .modify h hget _ _ rfl rfl fun r hr => ⟨Option.some.inj hr ▸ hlt, hname⟩
      exact ⟨_, _, hrun, rfl, hw.views hv (.ref (hnew lp) rfl hlt (hw.sees hst hlt)), hw⟩
    · rw [if_neg hdot] at hrun ⊢
      have hqi : q < i := by omega
      have hw : Wrote i s ⟨s.entries.modify i ({ · with ref := some q }), s.errorLoc⟩ :=
        .modify h hget _ _ rfl rfl fun r hr => ⟨Option.some.inj hr ▸ hqi, hname⟩
      exact ⟨_, _, hrun, rfl, hw.views hv (.ref (hnew q) rfl hqi (hw.sees hsees hqi)), hw⟩

/-! ## The climb -/

/-- An entry that refers to no other has its parent for its logical parent. -/
theorem IsChain.logical_plain (h : IsChain s.entries) (hget : s.entries[i + 1]? = some e)
    (href : e.ref = none) : logical s.entries (i + 1) = i := by
  obtain ⟨hi, -⟩ := List.getElem?_eq_some_iff.mp hget
  obtain ⟨k, hk⟩ := Nat.exists_eq_succ_of_ne_zero (Nat.ne_zero_of_lt hi)
  simp only [logical, hk, logicalFrom, hget, href, h.parent i e hget]

/-- The logical parent of an entry of a chain. -/
theorem IsChain.logicalParent (h : IsChain s.entries) (hget : s.entries[i]? = some e) :
    (FilePathEntry.logicalParent s.entries.length i).Returns s (logical s.entries i) s ∧
      Sees s.entries (logical s.entries i) (above s.entries i) ∧
      (logical s.entries i < i ∨ i = 0 ∧ logical s.entries i = 0) ∧
      (e.ref = none → i = 0 ∨ logical s.entries i + 1 = i) := by
  obtain ⟨hi, -⟩ := List.getElem?_eq_some_iff.mp hget
  obtain ⟨hq, hsees, hle, hend⟩ := (h.sees hi).logicalParent hi
  refine ⟨hq, h.sees hsees.lt, ?_, fun href => ?_⟩
  · rcases hle.lt_or_eq with hlt | heq
    · exact .inl hlt
    · obtain ⟨d, hd, hparent⟩ := hend heq
      cases i with
      | zero => exact .inr ⟨rfl, heq⟩
      | succ p =>
        rw [h.parent p d hd] at hparent
        cases hparent
  · cases i with
    | zero => exact .inl rfl
    | succ p => rw [h.logical_plain hget href]; exact .inr rfl

/-- The part behind the parent's, for any name. -/
theorem populateFrom_follows (h : IsChain s.entries) (hget : s.entries[i]? = some e)
    (hv : ∀ j < i, Sees s.entries j (v j)) (hst : Sees s.entries lp (v lp))
    (hlp : lp < i ∨ i = 0 ∧ lp = 0) (hplain : e.ref = none → i = 0 ∨ lp + 1 = i)
    (herr : first = false → err = .eok) :
    Follows s i (FilePathEntry.populateFrom (R.1 i) err i lp) err
      (stepAt R first v lp (nameAt s.entries i) i) := by
  have hname : nameAt s.entries i = e.name := by simp [nameAt, hget]
  rw [hname]
  by_cases hdot : IsDot e.name
  · exact populateFrom_dot h hget hdot hv hst hlp
  · exact populateFrom_lookup h hget hdot hv hst (hplain (h.ref_none hget hdot)) herr

/-- Nothing from the entry `d` on is written. -/
structure Before (d : ℕ) (s s' : PathState) : Prop where
  length : s'.entries.length = s.entries.length
  same : ∀ j, d ≤ j → s'.entries[j]? = s.entries[j]?
  chain : IsChain s'.entries

/-- What `populate` does. -/
def Comes (s : PathState) (i : ℕ) (x : PathM Errno) (uninit : Errno) : Course → Prop
  | .ok v => x.Gives s fun r s' => r = .eok ∧ (∀ j ≤ i, Sees s'.entries j (v j)) ∧
      Before (i + 1) s s'
  | .err e loc d v => x.Gives s fun r s' => r = e ∧ (e = .enoent ∨ e = .enotdir) ∧
      s'.errorLoc = s'.entries[loc]? ∧ d ≤ i ∧ (∀ j < d, Sees s'.entries j (v j)) ∧ Before d s s'
  | .uninit => uninit ≠ .eok → x.Gives s fun r _ => r = uninit
  | .stops => ∃ e t, x.Stops s e t
  | .circles => x.Gives s fun r s' => r = .eok ∧ s'.entries.length = s.entries.length ∧
      ∃ e, s'.entries[i]? = some e ∧ e.ref = some i

theorem Follows.comes {x y : PathM Errno} {c : Course} (h : IsChain s.entries)
    (hx : y s = x s) (hf : Follows s i x uninit c) : Comes s i y uninit c := by
  cases c with
  | ok v =>
    obtain ⟨r, s', hret, hr, hsees, hw⟩ := hf
    exact ⟨r, s', hx.trans hret, hr, hsees, hw.length, fun j hj => hw.other j (by omega), hw.chain⟩
  | err e loc d v =>
    obtain ⟨r, s', hret, hr, he, hloc, hsame, rfl, hv⟩ := hf
    refine ⟨r, s', hx.trans hret, hr, he, hloc, le_rfl, hv, ?_, fun j _ => ?_, ?_⟩
    all_goals rw [hsame]
    exact h
  | uninit =>
    obtain ⟨r, s', hret, hr⟩ := hf
    exact fun _ => ⟨r, s', hx.trans hret, hr⟩
  | stops =>
    obtain ⟨e, t, hstop⟩ := hf
    exact ⟨e, t, hx.trans hstop⟩
  | circles =>
    obtain ⟨r, s', hret, hf⟩ := hf
    exact ⟨r, s', hx.trans hret, hf⟩

/-- Behind a parent that has been populated. -/
theorem Follows.comes_behind {p : ℕ} {x y : PathM Errno} {c : Course} (hb : Before (p + 1) s t)
    (hx : y s = x t) (hne : c ≠ .uninit) (hf : Follows t (p + 1) x .eok c) :
    Comes s (p + 1) y uninit c := by
  cases c with
  | ok v =>
    obtain ⟨r, s', hret, hr, hsees, hw⟩ := hf
    refine ⟨r, s', hx.trans hret, hr, hsees, hw.length.trans hb.length, fun j hj => ?_, hw.chain⟩
    rw [hw.other j (by omega), hb.same j (by omega)]
  | err e loc d v =>
    obtain ⟨r, s', hret, hr, he, hloc, hsame, rfl, hv⟩ := hf
    refine ⟨r, s', hx.trans hret, hr, he, hloc, le_rfl, hv, ?_, fun j hj => ?_, ?_⟩
    all_goals rw [hsame]
    · exact hb.length
    · exact hb.same j hj
    · exact hb.chain
  | uninit => exact absurd rfl hne
  | stops =>
    obtain ⟨e, t, hstop⟩ := hf
    exact ⟨e, t, hx.trans hstop⟩
  | circles =>
    obtain ⟨r, s', hret, hr, hlen, hself⟩ := hf
    exact ⟨r, s', hx.trans hret, hr, hlen.trans hb.length, hself⟩

/-! ### Steps -/

section Step
variable {name : Utf8} {f : Errno × ℕ} {loc q : ℕ} {w : Views}

/-- What one step can come to. -/
theorem stepAt_cases (R : Reader) (first : Bool) (v : Views) (q : ℕ) (name : Utf8) (i : ℕ) :
    (faultAt R (v q) name i = none ∧
      ((∃ w, stepAt R first v q name i = .ok w) ∨ stepAt R first v q name i = .stops ∨
        (i = 0 ∧ stepAt R first v q name i = .circles) ∨
        ¬ IsDot name ∧ (top (v q)).isSome ∧
          ∃ e loc, stepAt R first v q name i = .err e loc i v ∧ loc ≤ i ∧ i ≤ loc + 1)) ∨
      ∃ e, faultAt R (v q) name i = some (e, i) ∧ e ≠ .eok ∧
        stepAt R first v q name i = if first then .uninit else .ok (v.child q none i) := by
  rw [stepAt, faultAt]
  by_cases hname : name = dot ∨ name = dotDot
  · simp only [if_pos hname]
    refine .inl ⟨trivial, ?_⟩
    by_cases hi : i = 0
    · exact .inr (.inr (.inl ⟨hi, if_pos hi⟩))
    · exact .inl ⟨_, if_neg hi⟩
  simp only [if_neg hname]
  rcases htop : top (v q) with _ | dir
  · exact .inl ⟨rfl, .inr (.inl rfl)⟩
  simp only [lookup]
  by_cases hdir : dir.type = .directory
  · simp only [hdir, ne_eq, not_true_eq_false, if_false]
    rcases hfind : dir.children.find? (fun ie => ie.name = name) with _ | ie
    · simp only [hfind]
      exact .inl ⟨trivial, .inr (.inr (.inr ⟨hname, rfl, .enoent, i, rfl, le_rfl, Nat.le_succ i⟩))⟩
    · simp only [hfind]
      rcases hread : R.1 i ie.inode with e' | inode
      · exact .inr ⟨e', rfl, fun he => R.2 i ie.inode (hread.trans (congrArg _ he)), rfl⟩
      · exact .inl ⟨rfl, .inl ⟨_, rfl⟩⟩
  · simp only [hdir, ne_eq, not_false_eq_true, if_true]
    cases i with
    | zero => exact .inl ⟨trivial, .inr (.inl rfl)⟩
    | succ p =>
      exact .inl ⟨trivial, .inr (.inr (.inr ⟨hname, rfl, .enotdir, p, rfl, Nat.le_succ p, le_rfl⟩))⟩

theorem stepAt_uninit (h : stepAt R first v q name i = .uninit) :
    first = true ∧ ∃ f, faultAt R (v q) name i = some f := by
  rcases stepAt_cases R first v q name i with
    ⟨-, ⟨w, hc⟩ | hc | ⟨-, hc⟩ | ⟨-, -, e, loc, hc, -⟩⟩ | ⟨e, hf, -, hc⟩
  all_goals rw [hc] at h
  · cases h
  · cases h
  · cases h
  · cases h
  · refine ⟨?_, _, hf⟩
    cases first
    · cases h
    · rfl

/-- A child that cannot be read. -/
theorem stepAt_fault (first : Bool) (h : faultAt R (v q) name i = some f) : f.2 = i ∧ f.1 ≠ .eok ∧
    stepAt R first v q name i = if first then .uninit else .ok (v.child q none i) := by
  rcases stepAt_cases R first v q name i with ⟨hf, -⟩ | ⟨e, hf, he, hc⟩
  · cases hf.symm.trans h
  · obtain rfl := Option.some.inj (hf.symm.trans h)
    exact ⟨rfl, he, hc⟩

/-- A name that is missing, or in no directory. -/
theorem stepAt_err {e : Errno} (h : stepAt R first v q name i = .err e loc d w) :
    loc ≤ i ∧ i ≤ loc + 1 ∧ (top (v q)).isSome ∧ ¬ IsDot name := by
  rcases stepAt_cases R first v q name i with
    ⟨-, ⟨w, hc⟩ | hc | ⟨-, hc⟩ | ⟨hname, htop, e, loc, hc, hle, hge⟩⟩ | ⟨e, -, -, hc⟩
  all_goals rw [hc] at h
  · cases h
  · cases h
  · cases h
  · cases h
    exact ⟨hle, hge, htop, hname⟩
  · cases first <;> cases h

theorem stepAt_circles (h : stepAt R first v q name i = .circles) : i = 0 := by
  rcases stepAt_cases R first v q name i with
    ⟨-, ⟨w, hc⟩ | hc | ⟨hi, -⟩ | ⟨-, -, e, loc, hc, -⟩⟩ | ⟨e, -, -, hc⟩
  · cases hc.symm.trans h
  · cases hc.symm.trans h
  · exact hi
  · cases hc.symm.trans h
  · rw [hc] at h
    cases first <;> cases h

end Step

/-! ### Courses -/

section Courses
variable {entries : List FilePathEntry} {f : Errno × ℕ} {loc : ℕ}

theorem course_here {dir : Inode} (h : top (above entries i) = some dir) :
    course R entries i =
      stepAt R true (nodes entries) (logical entries i) (nameAt entries i) i := by
  cases i <;> simp only [course, h]

theorem fault_here {dir : Inode} (h : top (above entries i) = some dir) :
    fault R entries i = faultAt R (above entries i) (nameAt entries i) i := by
  cases i <;> simp only [fault, h]

theorem course_climb (h : top (above entries (i + 1)) = none) :
    course R entries (i + 1) = match course R entries i with
      | .ok v => stepAt R false v (logical entries (i + 1)) (nameAt entries (i + 1)) (i + 1)
      | c => c := by
  simp only [course, h]

/-- The first two entries have one logical parent. -/
theorem IsChain.above_one (h : IsChain s.entries) (hi : 1 < s.entries.length) :
    above s.entries 1 = above s.entries 0 := by
  obtain ⟨-, -, hlt, -⟩ := h.logicalParent (List.getElem?_eq_getElem hi)
  obtain ⟨-, -, hzero, -⟩ :=
    h.logicalParent (List.getElem?_eq_getElem (l := s.entries) (i := 0) (by omega))
  have hone : logical s.entries 1 = logical s.entries 0 := by omega
  rw [above, above, hone]

theorem course_ne_circles (h : IsChain s.entries) (hi : i + 1 < s.entries.length)
    (hnone : top (above s.entries (i + 1)) = none) : course R s.entries i ≠ .circles := by
  induction i with
  | zero =>
    rw [h.above_one hi] at hnone
    simp [course, hnone]
  | succ i ih =>
    rcases htop : top (above s.entries (i + 1)) with _ | dir
    · have hne := ih (by omega) htop
      rw [course_climb htop]
      rcases hc : course R s.entries i with v | _ | _ | _ | _
      · exact fun hcircles => absurd (stepAt_circles hcircles) (Nat.succ_ne_zero i)
      all_goals simp_all
    · rw [course_here htop]
      exact fun hcircles => absurd (stepAt_circles hcircles) (Nat.succ_ne_zero i)

/-- A fault is where an inode cannot be read, and is no success. -/
theorem fault_spec (h : IsChain s.entries) (hi : i < s.entries.length)
    (hf : fault R s.entries i = some f) : f.1 ≠ .eok ∧ f.2 ≤ i ∧
    (f.2 = i → course R s.entries i = .uninit ∨
      ∃ v, course R s.entries i = .ok v ∧ top (v i) = none) ∧
    ∀ e loc d v, course R s.entries i = .err e loc d v → f.2 < loc := by
  induction i with
  | zero =>
    rcases htop : top (above s.entries 0) with _ | dir
    · simp [fault, htop] at hf
    · rw [fault_here htop] at hf
      obtain ⟨hat, hne, hc⟩ := stepAt_fault (v := nodes s.entries) true hf
      rw [course_here htop, hc]
      exact ⟨hne, hat.le, fun _ => .inl rfl, fun e loc d v he => by cases he⟩
  | succ i ih =>
    rcases htop : top (above s.entries (i + 1)) with _ | dir
    · simp only [fault, htop] at hf
      rw [course_climb htop]
      rcases hg : fault R s.entries i with _ | g
      · simp only [hg] at hf
        rcases hc : course R s.entries i with v | _ | _ | _ | _
        · simp only [hc] at hf
          obtain ⟨hat, hne, hstep⟩ := stepAt_fault false hf
          refine ⟨hne, hat.le, fun _ => .inr ⟨_, hstep, ?_⟩, fun e loc d w he => ?_⟩
          · rw [Views.child, Function.update_self]
            rfl
          · simp only [hstep] at he
            cases he
        all_goals simp [hc] at hf
      · simp only [hg, Option.some.injEq] at hf
        subst hf
        obtain ⟨hne, hle, hlast, hbefore⟩ := ih (by omega) hg
        refine ⟨hne, by omega, fun heq => by omega, fun e loc d w he => ?_⟩
        rcases hc : course R s.entries i with v | _ | _ | _ | _
        · simp only [hc] at he
          obtain ⟨hloc, hnext, hsome, hname⟩ := stepAt_err he
          by_contra hge
          -- The name is none of the dots, so the entry looks in its own parent.
          have heq : g.2 = i := by omega
          have hget := List.getElem?_eq_getElem hi
          have hplain : logical s.entries (i + 1) = i := by
            refine h.logical_plain hget (h.ref_none hget ?_)
            simpa [nameAt, hget] using hname
          rcases hlast heq with hc' | ⟨w', hc', hnone⟩
          · cases hc.symm.trans hc'
          · cases hc.symm.trans hc'
            rw [hplain, hnone] at hsome
            cases hsome
        all_goals simp only [hc] at he
        · cases he
          exact hbefore _ _ _ _ hc
        all_goals cases he
    · rw [fault_here htop] at hf
      obtain ⟨hat, hne, hc⟩ := stepAt_fault (v := nodes s.entries) true hf
      rw [course_here htop, hc]
      exact ⟨hne, hat.le, fun _ => .inl rfl, fun e loc d v he => by cases he⟩

theorem course_uninit (h : course R entries i = .uninit) : ∃ f, fault R entries i = some f := by
  induction i with
  | zero =>
    rcases htop : top (above entries 0) with _ | dir
    · simp [course, htop] at h
    · rw [course_here htop] at h
      rw [fault_here htop]
      exact (stepAt_uninit h).2
  | succ i ih =>
    rcases htop : top (above entries (i + 1)) with _ | dir
    · rw [course_climb htop] at h
      rcases hc : course R entries i with v | _ | _ | _ | _
      all_goals simp only [hc] at h
      · cases (stepAt_uninit h).1
      · cases h
      · obtain ⟨f, hf⟩ := ih hc
        exact ⟨f, by simp [fault, htop, hf]⟩
      all_goals cases h
    · rw [course_here htop] at h
      rw [fault_here htop]
      exact (stepAt_uninit h).2

/-- Without an inode above, there is nothing to begin with. -/
theorem course_noBase (h : ∀ k ≤ i, top (above entries k) = none) :
    course R entries i = .stops := by
  induction i with
  | zero => simp [course, h 0 le_rfl]
  | succ i ih =>
    rw [course_climb (h (i + 1) le_rfl), ih fun k hk => h k (by omega)]

theorem course_err_le {e : Errno} (hc : course R entries i = .err e loc d v) : loc ≤ i := by
  induction i with
  | zero =>
    rcases htop : top (above entries 0) with _ | dir
    · simp [course, htop] at hc
    · rw [course_here htop] at hc
      exact (stepAt_err hc).1
  | succ i ih =>
    rcases htop : top (above entries (i + 1)) with _ | dir
    · rw [course_climb htop] at hc
      rcases hprev : course R entries i with v | _ | _ | _ | _
      all_goals simp only [hprev] at hc
      · exact (stepAt_err hc).1
      · exact (ih (hprev.trans hc)).trans (Nat.le_succ i)
      all_goals cases hc
    · rw [course_here htop] at hc
      exact (stepAt_err hc).1

end Courses

/-- One call of `populate`. -/
theorem populate_eq (R : Reader) (uninit : Errno) (k : ℕ) (h : IsChain s.entries)
    (hget : s.entries[i]? = some e) :
    FilePathEntry.populate R.1 uninit (k + 1) i s = (match top (above s.entries i) with
      | some _ => FilePathEntry.populateFrom (R.1 i) uninit i (logical s.entries i)
      | none =>
          match e.parent with
          | none => Exec.stop .nullDeref
          | some parent => do
              let err ← FilePathEntry.populate R.1 uninit k parent
              if err ≠ Errno.eok then pure err
              else FilePathEntry.populateFrom (R.1 i) err i (logical s.entries i)) s := by
  obtain ⟨hq, hsees, -⟩ := h.logicalParent hget
  rw [FilePathEntry.populate]
  change (FilePathEntry.logicalParent s.entries.length i >>= _) s = _
  rw [hq.bind_eq, (hsees.getInode hsees.lt).bind_eq]
  rcases top (above s.entries i) with _ | dir
  · exact ((deref_returns hget).bind_eq _).trans rfl
  · rfl

/-- The entry that populates no parent. -/
theorem populate_comes_here (uninit : Errno) (h : IsChain s.entries) (hi : i < s.entries.length)
    {dir : Inode} (htop : top (above s.entries i) = some dir) :
    Comes s i (FilePathEntry.populate R.1 uninit (k + 1) i) uninit (course R s.entries i) := by
  have hget := List.getElem?_eq_getElem hi
  obtain ⟨-, hsees, hlt, hplain⟩ := h.logicalParent hget
  have hrun := populate_eq R uninit k h hget
  rw [htop] at hrun
  rw [course_here htop]
  refine (populateFrom_follows h hget (fun j hj => ?_) hsees hlt hplain ?_).comes h hrun
  · exact h.sees (hj.trans hi)
  · intro hf
    cases hf

/-- `populate` does what its course says. -/
theorem populate_comes (R : Reader) (uninit : Errno) (h : IsChain s.entries)
    (hi : i < s.entries.length) (hk : i < k) :
    Comes s i (FilePathEntry.populate R.1 uninit k i) uninit (course R s.entries i) := by
  induction i generalizing k with
  | zero =>
    obtain ⟨k, rfl⟩ := Nat.exists_eq_succ_of_ne_zero hk.ne'
    rcases htop : top (above s.entries 0) with _ | dir
    · have hget := List.getElem?_eq_getElem hi
      have hrun := populate_eq R uninit k h hget
      rw [htop, h.base _ hget] at hrun
      simp only [course, htop]
      exact ⟨_, _, hrun⟩
    · exact populate_comes_here uninit h hi htop
  | succ i ih =>
    obtain ⟨k, rfl⟩ := Nat.exists_eq_succ_of_ne_zero (Nat.ne_zero_of_lt hk)
    rcases htop : top (above s.entries (i + 1)) with _ | dir
    · have hget := List.getElem?_eq_getElem hi
      obtain ⟨-, -, hlt, hplain⟩ := h.logicalParent hget
      have hrun := populate_eq R uninit k h hget
      rw [htop, h.parent i _ hget] at hrun
      have hq : logical s.entries (i + 1) < i + 1 := by omega
      have hparent := ih (by omega) (k := k) (by omega)
      have hne := course_ne_circles (R := R) h hi htop
      rw [course_climb htop]
      rcases hc : course R s.entries i with v | ⟨e, loc, d, v⟩ | _ | _ | _
      all_goals rw [hc] at hparent hne
      · obtain ⟨_, t, hret, rfl, hseen, hbefore⟩ := hparent
        have hlast := hbefore.same (i + 1) le_rfl
        have hname : nameAt s.entries (i + 1) = nameAt t.entries (i + 1) := by
          rw [nameAt, nameAt, hlast]
        rw [hname]
        refine Follows.comes_behind hbefore (hrun.trans ((hret.bind_eq _).trans rfl)) ?_
          (populateFrom_follows hbefore.chain (hlast.trans hget)
            (fun j hj => hseen j (Nat.le_of_lt_succ hj)) (hseen _ (Nat.le_of_lt_succ hq)) (.inl hq)
            hplain fun _ => rfl)
        exact fun hu => absurd (stepAt_uninit hu).1 (by simp)
      · obtain ⟨_, t, hret, rfl, he, hloc, hd, hseen, hbefore⟩ := hparent
        refine ⟨_, t, hrun.trans ((hret.bind_eq _).trans ?_), rfl, he, hloc, by omega, hseen,
          hbefore⟩
        rcases he with rfl | rfl <;> rfl
      · intro hu
        obtain ⟨_, t, hret, rfl⟩ := hparent hu
        refine ⟨_, t, hrun.trans ((hret.bind_eq _).trans ?_), rfl⟩
        rw [if_pos hu]
        rfl
      · obtain ⟨e, t, hstop⟩ := hparent
        exact ⟨e, t, hrun.trans (hstop.bind_eq _)⟩
      · exact absurd rfl hne
    · exact populate_comes_here uninit h hi htop

/-! ## Faithful errors -/

/-- Who refers to himself has no inode. -/
theorem not_getInode_self (hget : s.entries[i]? = some e) (href : e.ref = some i)
    (n : Option Inode) : ¬ (FilePathEntry.getInode k i).Returns s n s' := by
  induction k with
  | zero => exact returns_stop
  | succ k ih =>
    rw [FilePathEntry.getInode, Returns, (deref_returns hget).bind_eq, href]
    exact ih

/-- Entries of a chain that are equal are at one place. -/
theorem IsChain.eq_of_getElem? (h : IsChain s.entries) {a b : ℕ} (ha : a < s.entries.length)
    (heq : s.entries[a]? = s.entries[b]?) : a = b := by
  have hget := List.getElem?_eq_getElem ha
  have hget' := heq.symm.trans hget
  cases a with
  | zero =>
    cases b with
    | zero => rfl
    | succ b => cases (h.base _ hget).symm.trans (h.parent b _ hget')
  | succ a =>
    cases b with
    | zero => cases (h.base _ hget').symm.trans (h.parent a _ hget)
    | succ b => rw [Option.some.inj ((h.parent a _ hget).symm.trans (h.parent b _ hget'))]

/-- What the entry holds when a name was missing. -/
theorem Before.getInode (hb : Before d s s') (hv : ∀ j < d, Sees s'.entries j (v j))
    (hi : i < s.entries.length) :
    (FilePathEntry.getInode s'.entries.length i).Returns s'
      (top (nodesFrom s.entries d v (i + 1) i)) s' := by
  have hi' : i < s'.entries.length := hi.trans_eq hb.length.symm
  have hsees := hb.chain.sees hi'
  rw [hsees.nodesFrom_eq hv hb.same (Nat.lt_succ_self i)]
  exact hsees.getInode hi'

theorem Faithful.of_reports (h : IsChain s.entries) (hi : i < s.entries.length)
    (hreports : Reports R s.entries i) : Faithful R s i := by
  intro uninit
  obtain ⟨hfault, hends⟩ := hreports
  have hcomes := populate_comes R uninit h hi hi
  rcases hc : course R s.entries i with v | ⟨e, loc, d, v⟩ | _ | _ | _
  all_goals simp only [hc] at hends
  · rw [hc] at hcomes
    obtain ⟨_, s', hret, rfl, hsees, hbefore⟩ := hcomes
    refine ⟨_, s', hret, ⟨fun _ => ?_, fun _ => rfl⟩, ?_, fun hnone => ?_, ?_⟩
    · obtain ⟨n, hn⟩ := Option.isSome_iff_exists.mp hends
      exact ⟨n, hn ▸ (hsees i le_rfl).getInode (hsees i le_rfl).lt⟩
    · simp [hfault]
    · cases hc.symm.trans (course_noBase hnone)
    · exact fun hne => absurd rfl hne
  · rw [hc] at hcomes
    obtain ⟨_, s', hret, rfl, he, hloc, hd, hsees, hbefore⟩ := hcomes
    obtain ⟨hcleared, hnone⟩ := hends
    refine ⟨_, s', hret, ⟨fun hok => ?_, fun hsome => ?_⟩, ?_, fun hnobase => ?_, fun _ => ⟨?_, ?_⟩⟩
    · rcases he with rfl | rfl <;> cases hok
    · obtain ⟨n, hn⟩ := hsome
      have hget := hbefore.getInode hsees hi
      rw [hnone] at hget
      cases (hget.unique hn).1
    · simp [hfault]
    · cases hc.symm.trans (course_noBase hnobase)
    · intro e' he'
      exact hcleared e' ((hbefore.same i hd).symm.trans he')
    · refine ⟨loc, ?_, hloc⟩
      simp only [FailsAt, hfault]
      exact ⟨_, _, _, hc⟩

theorem Faithful.reports (h : IsChain s.entries) (hi : i < s.entries.length)
    (hfaithful : Faithful R s i) : Reports R s.entries i := by
  -- A value that is neither `EOK` nor the error of the inode that cannot be read.
  obtain ⟨uninit, hne, hother⟩ : ∃ uninit : Errno, uninit ≠ .eok ∧
      ∀ f, fault R s.entries i = some f → uninit ≠ f.1 := by
    rcases fault R s.entries i with _ | f
    · exact ⟨.enoent, by simp, by simp⟩
    · by_cases hf : f.1 = .enoent
      · exact ⟨.enotdir, by simp, by simp [hf]⟩
      · exact ⟨.enoent, by simp, by simpa using Ne.symm hf⟩
  have hcomes := populate_comes R uninit h hi hi
  obtain ⟨err, s', hret, hok, hfault, -, hfails⟩ := hfaithful uninit
  rw [Reports]
  rcases hc : course R s.entries i with v | ⟨e, loc, d, v⟩ | _ | _ | _
  all_goals rw [hc] at hcomes
  · obtain ⟨_, _, hret', rfl, hsees, -⟩ := hcomes
    obtain ⟨rfl, rfl⟩ := hret.unique hret'
    obtain ⟨n, hn⟩ := hok.mp rfl
    refine ⟨Option.eq_none_iff_forall_ne_some.mpr fun f hf => ?_, ?_⟩
    · exact (fault_spec h hi hf).1 (hfault f hf).symm
    · have hview := hsees i le_rfl
      have htop : top (v i) = some n := ((hview.getInode hview.lt).unique hn).1
      exact Option.isSome_iff_exists.mpr ⟨n, htop⟩
  · obtain ⟨_, _, hret', rfl, he, hloc, hd, hsees, hbefore⟩ := hcomes
    obtain ⟨rfl, rfl⟩ := hret.unique hret'
    have hnok : err ≠ .eok := by rcases he with rfl | rfl <;> simp
    obtain ⟨hcleared, loc', hloc', hreported⟩ := hfails hnok
    refine ⟨Option.eq_none_iff_forall_ne_some.mpr fun f hf => ?_, fun e' he' => ?_, ?_⟩
    · simp only [FailsAt, hf] at hloc'
      subst hloc'
      have hlt := (fault_spec h hi hf).2.2.2 _ _ _ _ hc
      have hle := course_err_le hc
      have hlen := hbefore.length
      have heq := hbefore.chain.eq_of_getElem? (by omega) (hreported.symm.trans hloc)
      omega
    · exact hcleared e' ((hbefore.same i hd).trans he')
    · refine Option.eq_none_iff_forall_ne_some.mpr fun n hn => hnok (hok.mpr ⟨n, ?_⟩)
      exact hn ▸ hbefore.getInode hsees hi
  · obtain ⟨_, _, hret', rfl⟩ := hcomes hne
    obtain ⟨rfl, rfl⟩ := hret.unique hret'
    obtain ⟨f, hf⟩ := course_uninit hc
    exact absurd (hfault f hf) (hother f hf)
  · obtain ⟨e, t, hstop⟩ := hcomes
    exact absurd hstop hret.not_stops
  · obtain ⟨_, _, hret', rfl, -, d, hd, href⟩ := hcomes
    obtain ⟨rfl, rfl⟩ := hret.unique hret'
    obtain ⟨n, hn⟩ := hok.mp rfl
    exact absurd hn (not_getInode_self hd href _)

/-- **Errors are reported faithfully** exactly when every inode on the way can be read and the
walk ends at an inode, or a name is missing or in no directory while the entry holds no inode. -/
theorem faithful_iff (h : IsChain s.entries) (hi : i < s.entries.length) :
    Faithful R s i ↔ Reports R s.entries i :=
  ⟨Faithful.reports h hi, Faithful.of_reports h hi⟩

/-- What can be read in the small tree. -/
def smallReader : Reader :=
  ⟨fun _ => smallRead, fun _ k => by simp only [smallRead]; split_ifs <;> simp⟩

/-- `a` behind the root directory. -/
def chainToA : PathState := ⟨[rootEntry [] (smallTree 1), ⟨['a'], some 0, none, none⟩], none⟩

theorem chainToA_isChain : IsChain chainToA.entries := by
  refine ⟨by simp [chainToA, rootEntry], fun k e hget => ?_, fun k e r hget href => ?_⟩
  · rcases k with _ | k <;> simp [chainToA] at hget
    rw [← hget]
  · rcases k with _ | _ | k <;> simp [chainToA] at hget
    all_goals simp [← hget, rootEntry] at href

theorem faithful_chainToA : Faithful smallReader chainToA 1 :=
  (faithful_iff (i := 1) chainToA_isChain (by decide)).mpr ⟨rfl, rfl⟩

/-- An entry without a parent and without an inode. -/
theorem not_faithful_noBase :
    ¬ Faithful smallReader ⟨[⟨['a'], none, none, none⟩], none⟩ 0 := by
  intro h
  obtain ⟨err, s', hret, -⟩ := h .eok
  have hstop : (FilePathEntry.populate smallReader.1 .eok 1 0).Stops
      ⟨[⟨['a'], none, none, none⟩], none⟩ .nullDeref ⟨[⟨['a'], none, none, none⟩], none⟩ := by
    rfl
  exact hret.not_stops hstop

end Populating

end Populate

end Cantos
