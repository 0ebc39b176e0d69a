import Cantos.Fs.Resolution
import Mathlib.Data.List.Pairwise

/-!
# Populating an entry again

The entries of a path that has been populated are populated again.  An entry with a name of
its own looks it up in the same directory.  An entry `.` or `..` finds its parent through the
reference that it got the first time, which leads one node further up than the first time.

So the entries go on to denote the same nodes exactly when no entry `.` or `..` denotes a
node below the root.

## Main definitions

* `DirectoryTree`: a tree of directories and files.
* `Populated`: the state in which a path has been populated.
* `Idempotent`: the entries of a path may be populated again, in any order.
-/

namespace Cantos

open Exec Walk

/-- A tree of inodes, every one under its number.  The entries `.` and `..` of a directory are
no children of it. -/
structure DirectoryTree where
  inode : ℕ → Inode
  root : ℕ
  number : ∀ k, (inode k).inodeNo = k
  depth : ℕ → ℕ
  deeper : ∀ k, ∀ ie ∈ (inode k).children, ie.name ≠ dot → ie.name ≠ dotDot →
    depth k < depth ie.inode

namespace DirectoryTree

/-- `read_inode` -/
def read (T : DirectoryTree) (k : ℕ) : Except Errno Inode := .ok (T.inode k)

/-- The stack of the root directory. -/
def top (T : DirectoryTree) : List Inode := [T.inode T.root]

/-- `populate` on one entry after the other; what `err` holds before it is written is given
for every call. -/
def populateAll (T : DirectoryTree) : List (ℕ × Errno) → PathM (List Errno)
  | [] => pure []
  | (i, uninit) :: calls => do
      let s ← Exec.get
      let err ← FilePathEntry.populate (fun _ => T.read) uninit s.entries.length i
      let errs ← T.populateAll calls
      pure (err :: errs)

theorem readable (T : DirectoryTree) (st : List Inode) : Readable T.read T.inode st :=
  fun _ _ _ _ => rfl

end DirectoryTree

/-- `get_inode` returns an inode with this number. -/
def Denotes (s : PathState) (i number : ℕ) : Prop :=
  ∃ n, (FilePathEntry.getInode s.entries.length i).Returns s (some n) s ∧ n.inodeNo = number

/-- The entries that refer to others. -/
def IsDot (name : Utf8) : Prop := name = dot ∨ name = dotDot

/-- When populating the last entry of a path returns `EOK`, populating the entries again
returns `EOK` every time, and every entry denotes the inode it denoted before. -/
def Idempotent (T : DirectoryTree) (name path : Utf8) : Prop :=
  ∀ uninit p s₁ s₂ number,
    (parsePath path 0).Returns ⟨[rootEntry name (T.inode T.root)], none⟩ p s₁ →
    (FilePathEntry.populate (fun _ => T.read) uninit s₁.entries.length p).Returns s₁ .eok s₂ →
    Denotes s₂ p number →
    ∀ calls : List (ℕ × Errno), (∀ c ∈ calls, c.1 = p ∨ 0 < c.1 ∧ c.1 < s₂.entries.length) →
      (T.populateAll calls).Gives s₂ fun errs s₃ => (∀ err ∈ errs, err = .eok) ∧
        ∀ i < s₂.entries.length, ∃ number, Denotes s₂ i number ∧ Denotes s₃ i number

/-- No prefix of a path that ends in `.` or `..` ends below the root, if the path resolves. -/
def DotsAtRoot (T : DirectoryTree) (names : List Utf8) : Prop :=
  ∀ st, walk T.inode T.top names = .ok st → ∀ j (h : j < names.length), IsDot names[j] →
    walk T.inode T.top (names.take (j + 1)) = .ok T.top

/-- The root directory has a child of the name of the entry that holds it. -/
def ListsName (T : DirectoryTree) (name : Utf8) : Prop :=
  ¬ IsDot name ∧ (T.inode T.root).type = .directory ∧
    ∃ c, (T.inode T.root).children.find? (·.name = name) = some c

/-! ## What an entry stands for -/

section Standing
variable {entries entries' : List FilePathEntry} {s : PathState} {e : FilePathEntry}
  {i k p : ℕ} {st st' : List Inode} {n : Inode}

theorem Stands.unique (h : Stands entries i st) (h' : Stands entries i st') : st = st' := by
  induction h generalizing st' with
  | root get ref parent inode =>
    cases h' with
    | root get' ref' parent' inode' =>
      obtain rfl := Option.some.inj (get.symm.trans get')
      rw [Option.some.inj (inode.symm.trans inode')]
    | child get' ref' parent' =>
      obtain rfl := Option.some.inj (get.symm.trans get')
      cases parent.symm.trans parent'
    | ref get' ref' =>
      obtain rfl := Option.some.inj (get.symm.trans get')
      cases ref.symm.trans ref'
  | child get ref parent inode lt rest ih =>
    cases h' with
    | root get' ref' parent' =>
      obtain rfl := Option.some.inj (get.symm.trans get')
      cases parent.symm.trans parent'
    | child get' ref' parent' inode' lt' rest' =>
      obtain rfl := Option.some.inj (get.symm.trans get')
      obtain rfl := Option.some.inj (parent.symm.trans parent')
      rw [Option.some.inj (inode.symm.trans inode'), ih rest']
    | ref get' ref' =>
      obtain rfl := Option.some.inj (get.symm.trans get')
      cases ref.symm.trans ref'
  | ref get ref lt rest ih =>
    cases h' with
    | root get' ref' | child get' ref' =>
      obtain rfl := Option.some.inj (get.symm.trans get')
      cases ref.symm.trans ref'
    | ref get' ref' lt' rest' =>
      obtain rfl := Option.some.inj (get.symm.trans get')
      obtain rfl := Option.some.inj (ref.symm.trans ref')
      exact ih rest'

/-- When one entry is changed and stands for the same nodes, all the others do. -/
theorem Stands.replace (hi : Stands entries i st) (hi' : Stands entries' i st)
    (hother : ∀ j, j ≠ i → entries'[j]? = entries[j]?) (h : Stands entries k st') :
    Stands entries' k st' := by
  induction h with
  | @root k e n get ref parent inode =>
    by_cases hk : k = i
    · subst hk
      exact (hi.unique (.root get ref parent inode)) ▸ hi'
    · exact .root ((hother k hk).trans get) ref parent inode
  | @child k p e n st get ref parent inode lt rest ih =>
    by_cases hk : k = i
    · subst hk
      exact (hi.unique (.child get ref parent inode lt rest)) ▸ hi'
    · exact .child ((hother k hk).trans get) ref parent inode lt ih
  | @ref k r e st get ref lt rest ih =>
    by_cases hk : k = i
    · subst hk
      exact (hi.unique (.ref get ref lt rest)) ▸ hi'
    · exact .ref ((hother k hk).trans get) ref lt ih

/-- The logical parent of an entry with a parent comes before it. -/
theorem Stands.logicalParent_lt (h : Stands s.entries i st) (hk : i < k)
    (get : s.entries[i]? = some e) (hparent : e.parent = some p) :
    (FilePathEntry.logicalParent k i).Gives s fun q s' =>
      q < i ∧ (e.ref = none → q = p) ∧ Stands s.entries q (pop st) ∧ s' = s := by
  obtain ⟨k, rfl⟩ := Nat.exists_eq_succ_of_ne_zero (Nat.ne_zero_of_lt hk)
  cases h with
  | root get' ref' parent' =>
    obtain rfl := Option.some.inj (get.symm.trans get')
    cases hparent.symm.trans parent'
  | child get' ref parent inode lt rest =>
    obtain rfl := Option.some.inj (get.symm.trans get')
    obtain rfl := Option.some.inj (hparent.symm.trans parent)
    rw [FilePathEntry.logicalParent, gives_deref_bind get]
    simp only [ref, parent, gives_pure]
    obtain ⟨m, st, rfl⟩ := List.exists_cons_of_ne_nil rest.ne_nil
    exact ⟨lt, fun _ => trivial, rest, trivial⟩
  | ref get' ref lt rest =>
    obtain rfl := Option.some.inj (get.symm.trans get')
    rw [FilePathEntry.logicalParent, gives_deref_bind get]
    simp only [ref]
    refine (rest.logicalParent (by omega)).mono ?_
    rintro q _ ⟨hq, hstands, rfl⟩
    exact ⟨by omega, fun h => by simp at h, hstands, rfl⟩

theorem Stands.denotes (h : Stands s.entries i (n :: st)) (hi : i < s.entries.length) :
    Denotes s i n.inodeNo := by
  obtain ⟨_, _, hr, rfl, rfl⟩ := h.getInode hi
  exact ⟨n, hr, rfl⟩

theorem Denotes.unique {a b : ℕ} (h : Denotes s i a) (h' : Denotes s i b) : a = b := by
  obtain ⟨n, hr, rfl⟩ := h
  obtain ⟨m, hr', rfl⟩ := h'
  rw [Option.some.inj (hr.unique hr').1]

end Standing

/-! ## One step -/

/-- A populated entry behind the parent `p`, called `name`, that stands for `st`. -/
structure Entered (s : PathState) (i p : ℕ) (name : Utf8) (st : List Inode) : Prop where
  get : ∃ e, s.entries[i]? = some e ∧ e.name = name ∧ e.parent = some p ∧
    (e.ref = none ↔ ¬ IsDot name)
  stands : Stands s.entries i st

section Stepping
variable {T : DirectoryTree} {s s' : PathState} {e : FilePathEntry} {err : Errno} {i p q : ℕ}
  {st st' : List Inode} {name : Utf8}

/-- The part of `populate` behind the parent's takes one step of the walk from its logical
parent, whether the entry has been populated before or not. -/
theorem populateFrom_entered (err : Errno) (hst : Stands s.entries q st) (hq : q < i)
    (hi : i < s.entries.length)
    (get : s.entries[i]? = some e) (hparent : e.parent = some p)
    (hplain : ¬ IsDot e.name → q = p ∧ e.ref = none)
    (hstep : step T.inode st e.name = .ok st') :
    (FilePathEntry.populateFrom T.read err i q).Gives s fun r s' =>
      r = .eok ∧ WritesAt i s s' ∧ Entered s' i p e.name st' := by
  have hbound : q < s.entries.length := hq.trans hi
  rw [FilePathEntry.populateFrom, gives_get_bind, gives_deref_bind get]
  rw [step] at hstep
  by_cases hdot : e.name = dot
  · rw [if_pos hdot] at hstep ⊢
    obtain rfl := Except.ok.inj hstep
    rw [FilePathEntry.write, gives_modify_bind, gives_pure]
    have hw : WritesAt i s ⟨s.entries.modify i ({ · with ref := some q }), s.errorLoc⟩ :=
      writesAt_modify _ _
    have hget : (s.entries.modify i ({ · with ref := some q }))[i]? =
        some { e with ref := some q } := by
      simp [get]
    exact ⟨rfl, hw, ⟨_, hget, rfl, hparent, by simp [IsDot, hdot]⟩,
      .ref hget rfl hq (hst.writesAt hq hw)⟩
  rw [if_neg hdot] at hstep ⊢
  by_cases hdotDot : e.name = dotDot
  · rw [if_pos hdotDot] at hstep ⊢
    obtain rfl := Except.ok.inj hstep
    refine (hst.logicalParent hbound).bind ?_
    rintro r s ⟨hr, hstands, rfl⟩
    rw [FilePathEntry.write, gives_modify_bind, gives_pure]
    have hw : WritesAt i s ⟨s.entries.modify i ({ · with ref := some r }), s.errorLoc⟩ :=
      writesAt_modify _ _
    have hget : (s.entries.modify i ({ · with ref := some r }))[i]? =
        some { e with ref := some r } := by
      simp [get]
    have hlt : r < i := hr.trans_lt hq
    exact ⟨rfl, hw, ⟨_, hget, rfl, hparent, by simp [IsDot, hdotDot]⟩,
      .ref hget rfl hlt (hstands.writesAt hlt hw)⟩
  · have hname : ¬ IsDot e.name := not_or.mpr ⟨hdot, hdotDot⟩
    obtain ⟨rfl, href⟩ := hplain hname
    rw [if_neg hdotDot] at hstep ⊢
    refine (hst.getInode hbound).bind ?_
    rintro dir s ⟨rfl, rfl⟩
    obtain ⟨n, rest, rfl⟩ := List.exists_cons_of_ne_nil hst.ne_nil
    rw [FilePathEntry.setErrorLoc, gives_modify_bind]
    simp only [List.head?_cons, child] at hstep ⊢
    split_ifs at hstep with hdir
    simp only [hdir, if_false]
    rcases hfind : n.children.find? (fun ie => ie.name = e.name) with _ | ie
    · simp only [hfind] at hstep
      cases hstep
    · simp only [hfind] at hstep ⊢
      obtain rfl := Except.ok.inj hstep
      simp only [DirectoryTree.read, FilePathEntry.write, gives_modify_bind, gives_pure]
      have hw : WritesAt i s
          ⟨s.entries.modify i ({ · with inode := some (T.inode ie.inode) }), some e⟩ :=
        writesAt_modify _ _
      have hget : (s.entries.modify i ({ · with inode := some (T.inode ie.inode) }))[i]? =
          some { e with inode := some (T.inode ie.inode) } := by
        simp [get]
      refine ⟨trivial, hw, ⟨_, hget, rfl, hparent, ?_⟩,
        .child hget href hparent rfl hq (hst.writesAt hq hw)⟩
      simp [href, hname]

theorem Entered.mono (h : Entered s i p name st) (he : ∀ j ≤ i, s'.entries[j]? = s.entries[j]?) :
    Entered s' i p name st := by
  obtain ⟨⟨e, get, hrest⟩, stands⟩ := h
  exact ⟨⟨e, (he i le_rfl).trans get, hrest⟩, stands.mono he⟩

end Stepping

/-! ## A populated path -/

/-- The first `m` entries of a path are populated, and the others are new. -/
structure Populated (T : DirectoryTree) (name : Utf8) (names : List Utf8) (m : ℕ) (s : PathState) :
    Prop where
  fresh : Fresh (rootEntry name (T.inode T.root)) names m s
  entered : ∀ j (h : j < names.length), j < m → ∃ st,
    walk T.inode T.top (names.take (j + 1)) = .ok st ∧ Entered s (j + 1) j names[j] st

section Populating
variable {T : DirectoryTree} {name : Utf8} {names : List Utf8} {s s' : PathState}
  {uninit err : Errno} {i j k m : ℕ} {st : List Inode}

theorem walk_take_succ (h : j < names.length) : walk T.inode T.top (names.take (j + 1)) =
    match walk T.inode T.top (names.take j) with
    | .ok st => step T.inode st names[j]
    | .error e => .error e := by
  have htake : names.take (j + 1) = names.take j ++ [names[j]] := List.take_succ_eq_append_getElem h
  refine (congrArg (walk T.inode T.top) htake).trans ((walk_append _ _).trans ?_)
  rcases walk T.inode T.top (names.take j) with _ | _ <;> rfl

/-- A walk that gets further has got here. -/
theorem walk_take_ok (h : j < names.length)
    (hwalk : walk T.inode T.top (names.take (j + 1)) = .ok st) :
    ∃ st', walk T.inode T.top (names.take j) = .ok st' ∧ step T.inode st' names[j] = .ok st := by
  rw [walk_take_succ h] at hwalk
  rcases hprev : walk T.inode T.top (names.take j) with e | st'
  · rw [hprev] at hwalk
    cases hwalk
  · rw [hprev] at hwalk
    exact ⟨st', rfl, hwalk⟩

theorem Populated.root (h : Populated T name names m s) : Stands s.entries 0 T.top :=
  .root h.fresh.root rfl rfl rfl

/-- The parent of an entry stands for what the walk has come to. -/
theorem Populated.stands (h : Populated T name names m s) (hj : j ≤ m) (hlen : j ≤ names.length)
    (hwalk : walk T.inode T.top (names.take j) = .ok st) : Stands s.entries j st := by
  cases j with
  | zero =>
    obtain rfl := Except.ok.inj hwalk
    exact h.root
  | succ j =>
    obtain ⟨st', hwalk', hentered⟩ := h.entered j hlen hj
    obtain rfl := Except.ok.inj (hwalk.symm.trans hwalk')
    exact hentered.stands

/-- One more entry. -/
theorem Populated.succ (h : Populated T name names i s) (hi : i < names.length)
    (hw : WritesAt (i + 1) s s') (hwalk : walk T.inode T.top (names.take (i + 1)) = .ok st)
    (hentered : Entered s' (i + 1) i names[i] st) : Populated T name names (i + 1) s' where
  fresh := h.fresh.writesAt hw
  entered j hj hlt := by
    rcases Nat.lt_succ_iff_lt_or_eq.mp hlt with hlt | rfl
    · obtain ⟨st, hwalk, hentered⟩ := h.entered j hj hlt
      exact ⟨st, hwalk, hentered.mono fun l hl => hw.other l (by omega)⟩
    · exact ⟨st, hwalk, hentered⟩

/-- Populating an entry for the first time populates all that come before it. -/
theorem populate_first (uninit : Errno) (h : Populated T name names 0 s) (hi : i < names.length)
    (hk : i < k)
    (hwalk : walk T.inode T.top (names.take (i + 1)) = .ok st) :
    (FilePathEntry.populate (fun _ => T.read) uninit k (i + 1)).Gives s fun err s' =>
      err = .eok ∧ Populated T name names (i + 1) s' := by
  induction i generalizing k st with
  | zero =>
    obtain ⟨k, rfl⟩ := Nat.exists_eq_succ_of_ne_zero (Nat.ne_zero_of_lt hk)
    have hentry := h.fresh.fresh 0 hi le_rfl
    have hlen := h.fresh.length
    obtain ⟨st', hwalk', hstep⟩ := walk_take_ok hi hwalk
    have hstands := h.stands le_rfl (Nat.zero_le _) hwalk'
    rw [FilePathEntry.populate, gives_get_bind]
    refine (logicalParent_fresh hentry (by omega)).bind ?_
    rintro _ s ⟨rfl, rfl⟩
    refine (hstands.getInode (by omega)).bind ?_
    rintro _ s ⟨rfl, rfl⟩
    obtain ⟨n, rest, rfl⟩ := List.exists_cons_of_ne_nil hstands.ne_nil
    refine (populateFrom_entered uninit hstands (by omega) (by omega) hentry rfl
      (fun _ => ⟨rfl, rfl⟩) hstep).mono ?_
    rintro err s' ⟨rfl, hw, hentered⟩
    exact ⟨rfl, h.succ hi hw hwalk hentered⟩
  | succ i ih =>
    obtain ⟨k, rfl⟩ := Nat.exists_eq_succ_of_ne_zero (Nat.ne_zero_of_lt hk)
    have hi' : i < names.length := by omega
    have hentry := h.fresh.fresh (i + 1) hi (Nat.zero_le _)
    have hparent := h.fresh.fresh i hi' (Nat.zero_le _)
    have hlen := h.fresh.length
    obtain ⟨st', hwalk', hstep⟩ := walk_take_ok hi hwalk
    rw [FilePathEntry.populate, gives_get_bind]
    refine (logicalParent_fresh hentry (by omega)).bind ?_
    rintro _ s ⟨rfl, rfl⟩
    refine (getInode_fresh hparent (by omega)).bind ?_
    rintro _ s ⟨rfl, rfl⟩
    rw [gives_deref_bind hentry]
    refine (ih hi' (by omega) hwalk').bind ?_
    rintro err s' ⟨rfl, hpop⟩
    have hlen' := hpop.fresh.length
    rw [if_neg (not_not.mpr rfl)]
    refine (populateFrom_entered .eok (hpop.stands le_rfl (by omega) hwalk') (by omega) (by omega)
      (hpop.fresh.fresh (i + 1) hi le_rfl) rfl (fun _ => ⟨rfl, rfl⟩) hstep).mono ?_
    rintro err s'' ⟨rfl, hw, hentered⟩
    exact ⟨rfl, hpop.succ hi hw hwalk hentered⟩

/-- Populating an entry again steps from the logical parent that it has by now. -/
theorem populate_again (uninit : Errno) (h : Populated T name names names.length s)
    (hj : j < names.length)
    (hk : 0 < k) (hwalk : walk T.inode T.top (names.take (j + 1)) = .ok st) {st' : List Inode}
    (hdot : IsDot names[j] → step T.inode (pop st) names[j] = .ok st')
    (hplain : ¬ IsDot names[j] → st' = st) :
    (FilePathEntry.populate (fun _ => T.read) uninit k (j + 1)).Gives s fun err s' =>
      err = .eok ∧ WritesAt (j + 1) s s' ∧ Entered s' (j + 1) j names[j] st' := by
  obtain ⟨k, rfl⟩ := Nat.exists_eq_succ_of_ne_zero hk.ne'
  have hlen := h.fresh.length
  obtain ⟨st₁, hwalk₁, ⟨e, get, hname, hparent, href⟩, hstands⟩ := h.entered j hj hj
  obtain rfl := Except.ok.inj (hwalk.symm.trans hwalk₁)
  obtain ⟨prev, hprev, hstep⟩ := walk_take_ok hj hwalk
  rw [FilePathEntry.populate, gives_get_bind]
  refine (hstands.logicalParent_lt (by omega) get hparent).bind ?_
  rintro q s ⟨hq, hqp, hlp, rfl⟩
  refine (hlp.getInode (by omega)).bind ?_
  rintro _ s ⟨rfl, rfl⟩
  obtain ⟨n, rest, hcons⟩ := List.exists_cons_of_ne_nil hlp.ne_nil
  rw [hcons, List.head?_cons]
  have hfrom : step T.inode (pop st) e.name = .ok st' := by
    rw [hname]
    by_cases hisDot : IsDot names[j]
    · exact hdot hisDot
    · obtain rfl := hqp (href.mpr hisDot)
      rw [hplain hisDot, hlp.unique (h.stands hj.le hj.le hprev)]
      exact hstep
  have hres := populateFrom_entered uninit hlp hq (by omega) get hparent
    (fun hne => ⟨hqp (href.mpr (hname ▸ hne)), href.mpr (hname ▸ hne)⟩) hfrom
  rw [hname] at hres
  exact hres

/-- Where no entry `.` or `..` stands for a node below the root, populating an entry again
changes nothing that the entries stand for. -/
theorem Populated.again (h : Populated T name names names.length s)
    (hdots : ∀ j (h : j < names.length), IsDot names[j] →
      walk T.inode T.top (names.take (j + 1)) = .ok T.top)
    (hj : j < names.length) (hk : 0 < k) :
    (FilePathEntry.populate (fun _ => T.read) uninit k (j + 1)).Gives s fun err s' =>
      err = .eok ∧ Populated T name names names.length s' := by
  obtain ⟨st, hwalk, hentered⟩ := h.entered j hj hj
  have hstep : IsDot names[j] → step T.inode (pop st) names[j] = .ok st := by
    intro hisDot
    obtain rfl := Except.ok.inj (hwalk.symm.trans (hdots j hj hisDot))
    have htop : pop T.top = T.top := rfl
    rw [htop, step]
    rcases hisDot with hname | hname
    · rw [if_pos hname]
    · rw [if_neg (by rw [hname]; decide), if_pos hname, htop]
  refine (populate_again uninit h hj hk hwalk hstep fun _ => rfl).mono ?_
  rintro err s' ⟨rfl, hw, hentered'⟩
  refine ⟨rfl, ⟨hw.length.trans h.fresh.length, ?_, fun i hi hle => by omega⟩, ?_⟩
  · exact (hw.other 0 (by omega)).trans h.fresh.root
  · intro l hl hlt
    obtain ⟨st₁, hwalk₁, ⟨e, get, hrest⟩, hstands⟩ := h.entered l hl hlt
    refine ⟨st₁, hwalk₁, ?_, hentered.stands.replace hentered'.stands hw.other hstands⟩
    by_cases heq : l = j
    · subst heq
      exact hentered'.get
    · exact ⟨e, (hw.other (l + 1) (by omega)).trans get, hrest⟩

/-- And so does any number of times, in any order. -/
theorem populateAll_again {calls : List (ℕ × Errno)} (h : Populated T name names names.length s)
    (hdots : ∀ j (h : j < names.length), IsDot names[j] →
      walk T.inode T.top (names.take (j + 1)) = .ok T.top)
    (hcalls : ∀ c ∈ calls, 0 < c.1 ∧ c.1 < names.length + 1) :
    (T.populateAll calls).Gives s fun errs s' =>
      (∀ err ∈ errs, err = .eok) ∧ Populated T name names names.length s' := by
  induction calls generalizing s with
  | nil =>
    rw [DirectoryTree.populateAll, gives_pure]
    exact ⟨by simp, h⟩
  | cons c calls ih =>
    obtain ⟨⟨i, uninit⟩, rfl⟩ : ∃ d, c = d := ⟨c, rfl⟩
    obtain ⟨hpos, hlt⟩ := hcalls _ List.mem_cons_self
    obtain ⟨j, rfl⟩ := Nat.exists_eq_succ_of_ne_zero hpos.ne'
    have hlen := h.fresh.length
    rw [DirectoryTree.populateAll, gives_get_bind]
    refine (h.again hdots (by omega) (by omega)).bind ?_
    rintro err s₁ ⟨rfl, h₁⟩
    refine (ih h₁ fun d hd => hcalls d (List.mem_cons_of_mem _ hd)).bind ?_
    rintro errs s₂ ⟨herrs, h₂⟩
    rw [gives_pure]
    exact ⟨by simpa using herrs, h₂⟩

/-- An entry denotes the node that the walk comes to. -/
theorem Populated.denotes (h : Populated T name names names.length s)
    (h' : Populated T name names names.length s') (hi : i < names.length + 1) :
    ∃ number, Denotes s i number ∧ Denotes s' i number := by
  have hlen := h.fresh.length
  have hlen' := h'.fresh.length
  cases i with
  | zero => exact ⟨_, h.root.denotes (by omega), h'.root.denotes (by omega)⟩
  | succ j =>
    obtain ⟨st, hwalk, hentered⟩ := h.entered j (by omega) (by omega)
    have hstands := h'.stands (j := j + 1) (by omega) (by omega) hwalk
    obtain ⟨n, rest, rfl⟩ := List.exists_cons_of_ne_nil hstands.ne_nil
    exact ⟨_, hentered.stands.denotes (by omega), hstands.denotes (by omega)⟩

end Populating

/-! ## The nodes of a stack -/

/-- A stack leads down from the root, one directory below the other. -/
structure DirectoryTree.Descends (T : DirectoryTree) (st : List Inode) : Prop where
  inode : ∀ n ∈ st, T.inode n.inodeNo = n
  sorted : st.Pairwise fun a b => T.depth b.inodeNo < T.depth a.inodeNo
  bottom : st.getLast? = some (T.inode T.root)

section Descending
variable {T : DirectoryTree} {st st' : List Inode} {name : Utf8} {names : List Utf8}

theorem DirectoryTree.descends_top (T : DirectoryTree) : T.Descends T.top where
  inode n hn := by
    rw [List.mem_singleton.mp hn, T.number]
  sorted := List.pairwise_singleton _ _
  bottom := rfl

theorem DirectoryTree.Descends.pop (h : T.Descends st) : T.Descends (Walk.pop st) := by
  rcases st with _ | ⟨a, _ | ⟨b, st⟩⟩
  · exact h
  · exact h
  · have hbottom : (b :: st).getLast? = some (T.inode T.root) := by simpa using h.bottom
    exact ⟨fun n hn => h.inode n (List.mem_cons_of_mem a hn), h.sorted.of_cons, hbottom⟩

theorem DirectoryTree.Descends.step (h : T.Descends st) (hstep : step T.inode st name = .ok st') :
    T.Descends st' := by
  rw [Walk.step] at hstep
  split_ifs at hstep with hdot hdotDot
  · exact Except.ok.inj hstep ▸ h
  · exact Except.ok.inj hstep ▸ h.pop
  · obtain ⟨n, rest, rfl⟩ : ∃ n rest, st = n :: rest := by
      refine List.exists_cons_of_ne_nil fun hnil => ?_
      have := h.bottom
      simp [hnil] at this
    rw [child, List.head?_cons] at hstep
    simp only at hstep
    split_ifs at hstep with hdir
    rcases hfind : n.children.find? (fun ie => ie.name = name) with _ | ie
    · simp only [hfind] at hstep
      cases hstep
    · simp only [hfind] at hstep
      obtain rfl := Except.ok.inj hstep
      have hname : ie.name = name := by simpa using List.find?_some hfind
      have hmem := List.mem_of_find?_eq_some hfind
      have hn := h.inode n List.mem_cons_self
      have hdeeper : T.depth n.inodeNo < T.depth ie.inode :=
        T.deeper n.inodeNo ie (by rwa [hn]) (hname ▸ hdot) (hname ▸ hdotDot)
      refine ⟨fun m hm => ?_, List.pairwise_cons.mpr ⟨fun m hm => ?_, h.sorted⟩, ?_⟩
      · rcases List.mem_cons.mp hm with rfl | hm
        · rw [T.number]
        · exact h.inode m hm
      · rw [T.number]
        rcases List.mem_cons.mp hm with rfl | hm
        · exact hdeeper
        · exact ((List.pairwise_cons.mp h.sorted).1 m hm).trans hdeeper
      · rw [List.getLast?_cons_cons]
        exact h.bottom

theorem DirectoryTree.Descends.walk (h : T.Descends st) (hwalk : walk T.inode st names = .ok st') :
    T.Descends st' := by
  induction names generalizing st with
  | nil => exact Except.ok.inj hwalk ▸ h
  | cons name names ih =>
    rw [Walk.walk] at hwalk
    rcases hstep : Walk.step T.inode st name with e | st₁
    · simp only [hstep] at hwalk
      cases hwalk
    · simp only [hstep] at hwalk
      exact ih (h.step hstep) hwalk

/-- Further up, a stack has other nodes, until it is at the root. -/
theorem DirectoryTree.Descends.eq_top (h : T.Descends st) {a b : Inode} {rest rest' : List Inode}
    (hst : st = a :: rest) (hpop : Walk.pop st = b :: rest' ∨ Walk.pop (Walk.pop st) = b :: rest')
    (hnumber : a.inodeNo = b.inodeNo) : st = T.top := by
  subst hst
  rcases rest with _ | ⟨c, rest⟩
  · have hbottom : a = T.inode T.root := by simpa using h.bottom
    rw [hbottom]
    rfl
  · have hbelow := (List.pairwise_cons.mp h.sorted).1
    have hmem : b ∈ c :: rest := by
      rcases hpop with hpop | hpop
      · obtain rfl := (List.cons.inj hpop).1
        exact List.mem_cons_self
      · rcases rest with _ | ⟨d, rest⟩
        · obtain rfl := (List.cons.inj hpop).1
          exact List.mem_cons_self
        · obtain rfl := (List.cons.inj hpop).1
          exact List.mem_cons_of_mem _ List.mem_cons_self
    have := hbelow b hmem
    rw [hnumber] at this
    exact absurd this (lt_irrefl _)

end Descending

/-! ## The root entry -/

section Root
variable {T : DirectoryTree} {n : Inode} {name : Utf8} {s s' : PathState} {uninit err : Errno}
  {number : ℕ}

/-- An entry that refers to itself denotes nothing: `get_inode` follows it for ever. -/
theorem not_denotes_self {e : FilePathEntry} (hs : s.entries = [e]) (href : e.ref = some 0) :
    ¬ Denotes s 0 number := by
  rintro ⟨n, hr, -⟩
  have hget : s.entries[0]? = some e := by
    rw [hs]
    rfl
  have hlen : s.entries.length = 1 := by rw [hs]; rfl
  rw [hlen, FilePathEntry.getInode] at hr
  obtain ⟨_, _, hderef, hr⟩ := returns_bind.mp hr
  obtain ⟨rfl, rfl⟩ := (deref_returns hget).unique hderef
  simp only [href] at hr
  exact absurd hr returns_stop

/-- The root entry is its own logical parent, and holds an inode. -/
theorem populate_root_eq (hs : s.entries = [rootEntry name n]) :
    FilePathEntry.populate (fun _ => T.read) uninit 1 0 s =
      FilePathEntry.populateFrom T.read uninit 0 0 s := by
  have hstands : Stands s.entries 0 [n] := by
    rw [hs]
    exact .root (e := rootEntry name n) rfl rfl rfl rfl
  obtain ⟨q, t, hlp, hq, -, ht⟩ := hstands.logicalParent (k := 1) (by decide)
  obtain rfl := Nat.le_zero.mp hq
  obtain ⟨m, t', hin, hm, ht'⟩ := hstands.getInode (k := 1) (by decide)
  rw [ht] at hlp
  rw [hm, ht'] at hin
  rw [FilePathEntry.populate]
  refine (Exec.bind_def _ _ s).trans ?_
  simp only [Exec.get, hs, List.length_singleton]
  exact (hlp.bind_eq _).trans (hin.bind_eq _)

/-- The entry of a path without components is populated by looking its own name up in the
root. -/
theorem populate_root_looks (hs : s.entries = [rootEntry name n])
    (h : (FilePathEntry.populate (fun _ => T.read) uninit 1 0).Returns s .eok s')
    (hd : Denotes s' 0 number) :
    ¬ IsDot name ∧ n.type = .directory ∧ ∃ c, n.children.find? (·.name = name) = some c ∧
      s'.entries = [rootEntry name (T.inode c.inode)] := by
  by_cases hdir : n.type = .directory
  · obtain ⟨_, _, hr, hend⟩ := populate_root uninit (T.readable [n]) hdir hs
    obtain ⟨rfl, rfl⟩ := h.unique hr
    split_ifs at hend with hname
    · exact absurd hd (not_denotes_self hend.2 rfl)
    · rcases hfind : n.children.find? (fun ie => ie.name = name) with _ | c
      · simp [hfind] at hend
      · simp only [hfind] at hend
        exact ⟨hname, hdir, c, hfind, hend.2⟩
  · have hget : s.entries[0]? = some (rootEntry name n) := by
      rw [hs]
      rfl
    have hself : ∀ loc, ¬ Denotes ⟨s.entries.modify 0 ({ · with ref := some 0 }), loc⟩ 0 number :=
      fun loc => not_denotes_self (e := { rootEntry name n with ref := some 0 })
        (by simp [hs]) rfl
    have hstands : Stands s.entries 0 [n] := .root hget rfl rfl rfl
    rw [Returns, populate_root_eq hs] at h
    change (FilePathEntry.populateFrom T.read uninit 0 0).Returns s .eok s' at h
    rw [FilePathEntry.populateFrom, returns_get_bind, hs] at h
    obtain ⟨e, _, hderef, h⟩ := returns_bind.mp h
    obtain ⟨rfl, rfl⟩ := (deref_returns hget).unique hderef
    by_cases hdot : (rootEntry name n).name = dot
    · rw [if_pos hdot, FilePathEntry.write, returns_modify_bind] at h
      obtain ⟨-, rfl⟩ := returns_pure.mp h
      exact absurd hd (hself _)
    rw [if_neg hdot] at h
    by_cases hdotDot : (rootEntry name n).name = dotDot
    · rw [if_pos hdotDot] at h
      obtain ⟨q, _, hlp, h⟩ := returns_bind.mp h
      obtain ⟨_, _, hlp', hq, -, rfl⟩ := hstands.logicalParent (k := 1) (by decide)
      obtain ⟨rfl, rfl⟩ := hlp.unique hlp'
      obtain rfl := Nat.le_zero.mp hq
      rw [FilePathEntry.write, returns_modify_bind] at h
      obtain ⟨-, rfl⟩ := returns_pure.mp h
      exact absurd hd (hself _)
    · rw [if_neg hdotDot] at h
      obtain ⟨_, _, hin, hset⟩ := returns_bind.mp h
      obtain ⟨_, _, hin', rfl, rfl⟩ := hstands.getInode (k := 1) (by decide)
      obtain ⟨rfl, rfl⟩ := hin.unique hin'
      rw [FilePathEntry.setErrorLoc, returns_modify_bind] at hset
      simp only [List.head?_cons, ne_eq, hdir, not_false_eq_true, if_true] at hset
      exact absurd hset returns_stop

end Root

/-! ## Populating again -/

section Again
variable {T : DirectoryTree} {name path : Utf8} {s : PathState} {p : ℕ}

/-- What parsing a path behind the root gives. -/
theorem parse_populated
    (h : (parsePath path 0).Returns ⟨[rootEntry name (T.inode T.root)], none⟩ p s) :
    p = (components path).length ∧ Populated T name (components path) 0 s := by
  have hlen : (path.drop 0).length < path.length + 1 := by simp
  obtain ⟨_, _, hr, rfl, hs⟩ :=
    parseFrom_gives (s := ⟨[rootEntry name (T.inode T.root)], none⟩) hlen
  obtain ⟨rfl, rfl⟩ := Returns.unique h hr
  rw [List.drop_zero] at hs ⊢
  exact ⟨(lastFrom_eq 0).trans (Nat.zero_add _), fresh_chainFrom hs,
    fun j _ hlt => absurd hlt (Nat.not_lt_zero j)⟩

/-- A path that is populated has been walked to its end. -/
theorem walk_of_populate {names : List Utf8} {uninit : Errno} {s' : PathState}
    (h : Populated T name names 0 s) (hne : names ≠ [])
    (hr : (FilePathEntry.populate (fun _ => T.read) uninit s.entries.length names.length).Returns s
      .eok s') :
    (∃ st, walk T.inode T.top names = .ok st) ∧ Populated T name names names.length s' := by
  obtain ⟨i, hi⟩ := Nat.exists_eq_succ_of_ne_zero (List.length_pos_iff.mpr hne).ne'
  have hlen := h.fresh.length
  have hall : names.take (i + 1) = names := List.take_of_length_le (by omega)
  rw [hi] at hr
  obtain ⟨err, s₂, hr', hend⟩ := populate_gives (i := i) (k := s.entries.length) uninit
    (fun k => T.readable [T.inode k]) (T.readable T.top) rfl (by omega) (by omega) h.fresh
  obtain ⟨rfl, rfl⟩ := hr.unique hr'
  rw [hall] at hend
  rcases hwalk : walk T.inode T.top names with e | st
  · simp only [DirectoryTree.top] at hwalk
    simp only [hwalk] at hend
    exact absurd hend.1.symm hend.2
  · obtain ⟨err, s₂, hr', rfl, hpop⟩ := populate_first (k := s.entries.length) uninit h (by omega)
      (by omega) (hall.symm ▸ hwalk : walk T.inode T.top (names.take (i + 1)) = .ok st)
    obtain ⟨-, rfl⟩ := hr.unique hr'
    rw [hi]
    exact ⟨⟨st, rfl⟩, hpop⟩

theorem entries_root (h : Populated T name [] 0 s) :
    s.entries = [rootEntry name (T.inode T.root)] := by
  obtain ⟨e, he⟩ := List.length_eq_one_iff.mp h.fresh.length
  have hget := h.fresh.root
  rw [he] at hget ⊢
  rw [Option.some.inj hget]

theorem parse_gives (T : DirectoryTree) (name path : Utf8) :
    ∃ s, (parsePath path 0).Returns ⟨[rootEntry name (T.inode T.root)], none⟩
      (components path).length s ∧ Populated T name (components path) 0 s := by
  have hlen : (path.drop 0).length < path.length + 1 := by simp
  obtain ⟨p, s, hr, -⟩ := parseFrom_gives (s := ⟨[rootEntry name (T.inode T.root)], none⟩) hlen
  obtain ⟨rfl, hs⟩ := parse_populated hr
  exact ⟨s, hr, hs⟩

theorem populateAll_one {i : ℕ} {uninit : Errno} {Q : List Errno → PathState → Prop}
    (h : (T.populateAll [(i, uninit)]).Gives s Q) : ∃ err s',
      (FilePathEntry.populate (fun _ => T.read) uninit s.entries.length i).Returns s err s' ∧
        Q [err] s' := by
  rw [DirectoryTree.populateAll, gives_get_bind, gives_bind] at h
  obtain ⟨err, s', hr, h⟩ := h
  rw [gives_bind, DirectoryTree.populateAll, gives_pure, gives_pure] at h
  exact ⟨err, s', hr, h⟩

/-- A root that has a child of its entry's name is replaced by the child, and the child by a
child of its own. -/
theorem not_idempotent_root (hnil : components path = []) (hlists : ListsName T name) :
    ¬ Idempotent T name path := by
  intro h
  obtain ⟨hname, hdir, c, hc⟩ := hlists
  obtain ⟨s₁, hparse, h₁⟩ := parse_gives T name path
  rw [hnil] at hparse h₁
  have hs₁ := entries_root h₁
  obtain ⟨err, s₂, hpop, hend⟩ := populate_root .eok (T.readable [_]) hdir hs₁
  rw [if_neg (by exact hname)] at hend
  simp only [hc] at hend
  obtain ⟨rfl, hs₂⟩ := hend
  have hlen₁ : s₁.entries.length = 1 := by rw [hs₁]; rfl
  have hlen₂ : s₂.entries.length = 1 := by rw [hs₂]; rfl
  have hden : ∀ {s : PathState} {k : ℕ}, s.entries = [rootEntry name (T.inode k)] →
      Denotes s 0 k := by
    intro s k hs
    have hstands : Stands s.entries 0 [T.inode k] := by
      rw [hs]
      exact .root (e := rootEntry name (T.inode k)) rfl rfl rfl rfl
    have hd := hstands.denotes (by rw [hs]; exact Nat.one_pos)
    rwa [T.number] at hd
  obtain ⟨err, s₃, hagain, herr, hsame⟩ := populateAll_one (h .eok 0 s₁ s₂ _ hparse
    (hlen₁ ▸ hpop) (hden hs₂) [(0, .eok)] (by simp))
  obtain rfl := herr err List.mem_cons_self
  obtain ⟨number, hd₂, hd₃⟩ := hsame 0 (by omega)
  rw [hlen₂] at hagain
  obtain ⟨-, -, c', hc', hs₃⟩ := populate_root_looks hs₂ hagain hd₃
  obtain rfl := hd₂.unique (hden hs₂)
  have hsameChild := hd₃.unique (hden hs₃)
  have hname' : c'.name = name := by simpa using List.find?_some hc'
  rw [IsDot, not_or] at hname
  have hdeeper := T.deeper c.inode c' (List.mem_of_find?_eq_some hc') (hname' ▸ hname.1)
    (hname' ▸ hname.2)
  rw [hsameChild] at hdeeper
  exact lt_irrefl _ hdeeper

/-- An entry `.` or `..` that is populated again goes up. -/
theorem dots_of_idempotent (h : Idempotent T name path) {j : ℕ} (hj : j < (components path).length)
    (hdot : IsDot (components path)[j]) {st : List Inode}
    (hwalk : walk T.inode T.top (components path) = .ok st) :
    walk T.inode T.top ((components path).take (j + 1)) = .ok T.top := by
  obtain ⟨s₁, hparse, h₁⟩ := parse_gives T name path
  obtain ⟨i, hi⟩ := Nat.exists_eq_succ_of_ne_zero (Nat.ne_zero_of_lt hj)
  have hlen₁ := h₁.fresh.length
  have hall : (components path).take (i + 1) = components path := List.take_of_length_le (by omega)
  obtain ⟨_, s₂, hpop, rfl, h₂⟩ := populate_first (k := s₁.entries.length) .eok h₁
    (by omega) (by omega)
    (hall.symm ▸ hwalk : walk T.inode T.top ((components path).take (i + 1)) = _)
  rw [show i + 1 = (components path).length from hi.symm] at hpop h₂
  have hlen₂ := h₂.fresh.length
  obtain ⟨number, hdenotes, -⟩ := h₂.denotes h₂ (Nat.lt_succ_self (components path).length)
  obtain ⟨err, s₃, hagain, herr, hsame⟩ := populateAll_one
    (h .eok _ s₁ s₂ number hparse hpop hdenotes [(j + 1, .eok)] (by simp; omega))
  obtain ⟨number, hd₂, hd₃⟩ := hsame (j + 1) (by omega)
  obtain ⟨st', hwalk', hentered⟩ := h₂.entered j hj hj
  have hstep : ∃ st₃, step T.inode (pop st') (components path)[j] = .ok st₃ ∧
      (pop st' = st₃ ∨ pop (pop st') = st₃) := by
    rw [step]
    split_ifs with hname hname'
    · exact ⟨_, rfl, .inl rfl⟩
    · exact ⟨_, rfl, .inr rfl⟩
    · exact absurd hdot (not_or.mpr ⟨hname, hname'⟩)
  obtain ⟨st₃, hstep, hup⟩ := hstep
  obtain ⟨_, _, hagain', -, hw, hentered₃⟩ := populate_again (k := s₂.entries.length) .eok h₂ hj
    (by omega) hwalk' (fun _ => hstep) fun hplain => absurd hdot hplain
  obtain ⟨-, rfl⟩ := hagain.unique hagain'
  obtain ⟨a, rest, rfl⟩ := List.exists_cons_of_ne_nil hentered.stands.ne_nil
  obtain ⟨b, rest', rfl⟩ := List.exists_cons_of_ne_nil hentered₃.stands.ne_nil
  have hlen₃ := hw.length
  have ha := hd₂.unique (hentered.stands.denotes (by omega))
  have hb := hd₃.unique (hentered₃.stands.denotes (by omega))
  rw [hwalk', (T.descends_top.walk hwalk').eq_top rfl hup (ha.symm.trans hb)]

/-- **The entries of a path may be populated again** exactly when no prefix of the path that
ends in `.` or `..` denotes a node below the root. -/
theorem populate_idempotent_iff (T : DirectoryTree) (name path : Utf8) :
    Idempotent T name path ↔
      (components path = [] → ¬ ListsName T name) ∧ DotsAtRoot T (components path) := by
  constructor
  · intro h
    refine ⟨fun hnil hlists => ?_, fun st hwalk j hj hdot => ?_⟩
    · exact not_idempotent_root hnil hlists h
    · exact dots_of_idempotent h hj hdot hwalk
  · rintro ⟨hroot, hdots⟩ uninit p s₁ s₂ number hparse hpop hdenotes calls hcalls
    obtain ⟨rfl, h₁⟩ := parse_populated hparse
    by_cases hnil : components path = []
    · rw [hnil] at hpop hdenotes h₁
      have hs₁ := entries_root h₁
      rw [hs₁] at hpop
      obtain ⟨hname, hdir, c, hc, -⟩ := populate_root_looks hs₁ hpop hdenotes
      exact absurd ⟨hname, hdir, c, hc⟩ (hroot hnil)
    · obtain ⟨⟨st, hwalk⟩, h₂⟩ := walk_of_populate h₁ hnil hpop
      have hlen := h₂.fresh.length
      refine (populateAll_again h₂ (hdots st hwalk) fun c hc => ?_).mono ?_
      · have hpos := List.length_pos_iff.mpr hnil
        have := hcalls c hc
        omega
      · rintro errs s₃ ⟨herrs, h₃⟩
        exact ⟨herrs, fun i hi => h₂.denotes h₃ (by omega)⟩

/-- The tree with the root directory 1 and a directory `a` in it. -/
def treeWithA : DirectoryTree where
  inode k :=
    if k = 1 then ⟨1, .directory, [⟨1, dot⟩, ⟨1, dotDot⟩, ⟨2, ['a']⟩]⟩ else ⟨k, .directory, []⟩
  root := 1
  number k := by
    split_ifs with h
    · exact h.symm
    · rfl
  depth k := k
  deeper k ie hie hdot hdotDot := by
    split_ifs at hie with h
    · subst h
      rcases List.mem_cons.mp hie with rfl | hie
      · exact absurd rfl hdot
      rcases List.mem_cons.mp hie with rfl | hie
      · exact absurd rfl hdotDot
      · rw [List.mem_singleton.mp hie]
        decide
    · cases hie

/-- The path `a/.` denotes `a`, and the root once its last entry is populated again. -/
theorem not_idempotent_dot : ¬ Idempotent treeWithA [] ['a', '/', '.'] := by
  intro h
  have hwalk : walk treeWithA.inode treeWithA.top (components ['a', '/', '.']) =
      .ok [treeWithA.inode 2, treeWithA.inode 1] := by decide
  have htop := dots_of_idempotent h (j := 1) (by decide) (.inl (by decide)) hwalk
  exact absurd htop (by decide)

end Again

end Cantos
