import Cantos.Fs.Path
import Mathlib.Data.Nat.Basic
import Mathlib.Order.Basic

/-!
# Populating a path walks the directory tree

An entry that is populated stands for a stack of nodes, the node it names on top and the
root at the bottom: `get_inode` is the top, and `logical_parent` stands for the stack
without it.  Populating an entry takes one step of a walk, in which `.` and `..` work on any
node.

## Main definitions

* `Stands`: the stack an entry stands for.
* `FollowsWalk`: resolving a path does what the reference walk does.
* `Walk.dotAtFile`, `Walk.lookupAtFile`: a walk meets `.` or `..`, or a name, at a node that
  is no directory.
-/

namespace Cantos

open Exec Walk

/-! ## Parsing -/

section Parsing
variable {path pre post fname : Utf8} {names : List Utf8} {s : PathState} {k pos parent : ℕ}

/-- The entries of a chain behind `parent`, the first of them at `n`. -/
def chainFrom : (n parent : ℕ) → List Utf8 → List FilePathEntry
  | _, _, [] => []
  | n, parent, name :: names => ⟨name, some parent, none, none⟩ :: chainFrom (n + 1) n names

/-- The last entry of a chain behind `parent`. -/
def lastFrom : (n parent : ℕ) → List Utf8 → ℕ
  | _, parent, [] => parent
  | n, _, _ :: names => lastFrom (n + 1) n names

theorem components_of_notMem (h : '/' ∉ path) : components path = if path = [] then [] else [path] := by
  rw [components, List.splitOn_eq_singleton h]
  by_cases hnil : path = [] <;> simp [hnil]

theorem components_append (h : '/' ∉ pre) : components (pre ++ '/' :: post) =
    (if pre = [] then [] else [pre]) ++ components post := by
  rw [components, List.splitOn_append_cons_self_of_not_mem h, components]
  by_cases hnil : pre = [] <;> simp [hnil]

theorem appendName_gives (fname : Utf8) (parent : ℕ) (s : PathState) :
    (appendName fname parent).Gives s fun r s' =>
      r = lastFrom s.entries.length parent (if fname = [] then [] else [fname]) ∧
      s'.entries = s.entries ++
        chainFrom s.entries.length parent (if fname = [] then [] else [fname]) := by
  rw [appendName]
  by_cases hnil : fname = []
  · simp [hnil, chainFrom, lastFrom]
  · rw [if_pos (by simpa using hnil), gives_get_bind, gives_set_bind, gives_pure]
    simp [hnil, chainFrom, lastFrom]

theorem chainFrom_append (n parent : ℕ) (l : List Utf8) :
    chainFrom n parent (l ++ names) =
      chainFrom n parent l ++ chainFrom (n + l.length) (lastFrom n parent l) names := by
  induction l generalizing n parent with
  | nil => rfl
  | cons name l ih =>
    simp only [List.cons_append, chainFrom, lastFrom, ih, List.length_cons, Nat.add_assoc,
      Nat.add_comm 1]

theorem lastFrom_append (n parent : ℕ) (l : List Utf8) :
    lastFrom n parent (l ++ names) = lastFrom (n + l.length) (lastFrom n parent l) names := by
  induction l generalizing n parent with
  | nil => rfl
  | cons name l ih =>
    simp only [List.cons_append, lastFrom, ih, List.length_cons, Nat.add_assoc, Nat.add_comm 1]

theorem length_chainFrom (n parent : ℕ) : (chainFrom n parent names).length = names.length := by
  induction names generalizing n parent with
  | nil => rfl
  | cons name names ih => simp [chainFrom, ih]

theorem find_some {i : ℕ} (h : path.find '/' pos = some i) : ∃ pre post,
    path.drop pos = pre ++ '/' :: post ∧ '/' ∉ pre ∧ i = pos + pre.length := by
  obtain ⟨j, hj, rfl⟩ := Option.map_eq_some_iff.mp h
  obtain ⟨hlt, hp, hlt'⟩ := List.findIdx?_eq_some_iff_getElem.mp hj
  refine ⟨(path.drop pos).take j, (path.drop pos).drop (j + 1), ?_, ?_, ?_⟩
  · have hslash : (path.drop pos)[j] = '/' := by simpa using hp
    rw [← hslash, ← List.drop_eq_getElem_cons hlt, List.take_append_drop]
  · intro hmem
    obtain ⟨l, hl, he⟩ := List.mem_iff_getElem.mp hmem
    rw [List.length_take] at hl
    rw [List.getElem_take] at he
    have := hlt' l (by omega)
    simp [he] at this
  · rw [List.length_take, Nat.min_eq_left (Nat.le_of_lt hlt)]

theorem find_none (h : path.find '/' pos = none) : '/' ∉ path.drop pos := by
  intro hmem
  have hall := List.findIdx?_eq_none_iff.mp (Option.map_eq_none_iff.mp h)
  simpa using hall _ hmem

/-- Parsing appends an entry for each component. -/
theorem parseFrom_gives (hk : (path.drop pos).length < k) :
    (parseFrom path k pos parent).Gives s fun r s' =>
      r = lastFrom s.entries.length parent (components (path.drop pos)) ∧
      s'.entries = s.entries ++
        chainFrom s.entries.length parent (components (path.drop pos)) := by
  induction k generalizing pos parent s with
  | zero => exact absurd hk (Nat.not_lt_zero _)
  | succ k ih =>
    rw [parseFrom]
    rcases hfind : path.find '/' pos with _ | i
    · have hrest : path.substr pos path.length = path.drop pos := by
        rw [Utf8.substr, List.take_of_length_le (by simp)]
      rw [hrest, components_of_notMem (find_none hfind)]
      exact appendName_gives _ _ _
    · obtain ⟨pre, post, hdrop, hpre, rfl⟩ := find_some hfind
      have hname : path.substr pos (pos + pre.length - pos) = pre := by
        rw [Utf8.substr, hdrop, Nat.add_sub_cancel_left, List.take_left]
      have hpost : path.drop (pos + pre.length + 1) = post := by
        rw [Nat.add_assoc, ← List.drop_drop, hdrop, ← List.drop_drop, List.drop_left]
        rfl
      have hlen : (path.drop (pos + pre.length + 1)).length < k := by
        rw [hdrop] at hk
        rw [hpost]
        simp at hk
        omega
      simp only [hname]
      refine (appendName_gives pre parent s).bind ?_
      rintro _ s₁ ⟨rfl, hs₁⟩
      refine (ih hlen).mono ?_
      rintro r s₂ ⟨hr, hs₂⟩
      rw [hdrop, components_append hpre, lastFrom_append, chainFrom_append]
      rw [hpost, hs₁, List.length_append, length_chainFrom] at hr hs₂
      exact ⟨hr, by rw [hs₂, List.append_assoc]⟩

end Parsing

/-! ## What an entry stands for -/

/-- The stack of nodes that the entry at an address stands for. -/
inductive Stands (entries : List FilePathEntry) : ℕ → List Inode → Prop
  | root {i : ℕ} {e : FilePathEntry} {n : Inode} (get : entries[i]? = some e)
      (ref : e.ref = none) (parent : e.parent = none) (inode : e.inode = some n) :
      Stands entries i [n]
  | child {i p : ℕ} {e : FilePathEntry} {n : Inode} {st : List Inode} (get : entries[i]? = some e)
      (ref : e.ref = none) (parent : e.parent = some p) (inode : e.inode = some n) (lt : p < i)
      (rest : Stands entries p st) : Stands entries i (n :: st)
  | ref {i r : ℕ} {e : FilePathEntry} {st : List Inode} (get : entries[i]? = some e)
      (ref : e.ref = some r) (lt : r < i) (rest : Stands entries r st) : Stands entries i st

section Standing
variable {entries entries' : List FilePathEntry} {s : PathState} {e : FilePathEntry}
  {i k : ℕ} {st : List Inode}

theorem deref_returns (h : s.entries[i]? = some e) : (FilePathEntry.deref i).Returns s e s := by
  rw [FilePathEntry.deref, returns_get_bind, h]
  rfl

theorem gives_deref_bind {α : Type} {f : FilePathEntry → PathM α} {R : α → PathState → Prop}
    (h : s.entries[i]? = some e) : (FilePathEntry.deref i >>= f).Gives s R ↔ (f e).Gives s R := by
  simp only [Gives, Returns, (deref_returns h).bind_eq]

theorem Stands.ne_nil (h : Stands entries i st) : st ≠ [] := by
  induction h with
  | root => simp
  | child => simp
  | ref _ _ _ _ ih => exact ih

theorem Stands.mono (h : Stands entries i st) (he : ∀ j ≤ i, entries'[j]? = entries[j]?) :
    Stands entries' i st := by
  induction h with
  | root get ref parent inode => exact .root ((he _ le_rfl).trans get) ref parent inode
  | child get ref parent inode lt _ ih =>
    exact .child ((he _ le_rfl).trans get) ref parent inode lt
      (ih fun j hj => he j (hj.trans lt.le))
  | ref get ref lt _ ih =>
    exact .ref ((he _ le_rfl).trans get) ref lt (ih fun j hj => he j (hj.trans lt.le))

/-- `get_inode` is the node on top. -/
theorem Stands.getInode (h : Stands s.entries i st) (hk : i < k) :
    (FilePathEntry.getInode k i).Gives s fun n s' => n = st.head? ∧ s' = s := by
  induction h generalizing k with
  | root get ref _ inode | child get ref _ inode =>
    obtain ⟨k, rfl⟩ := Nat.exists_eq_succ_of_ne_zero (Nat.ne_zero_of_lt hk)
    rw [FilePathEntry.getInode, gives_deref_bind get]
    simp [ref, inode]
  | ref get ref lt _ ih =>
    obtain ⟨k, rfl⟩ := Nat.exists_eq_succ_of_ne_zero (Nat.ne_zero_of_lt hk)
    rw [FilePathEntry.getInode, gives_deref_bind get]
    simp only [ref]
    exact ih (by omega)

/-- `logical_parent` stands for the rest of the stack. -/
theorem Stands.logicalParent (h : Stands s.entries i st) (hk : i < k) :
    (FilePathEntry.logicalParent k i).Gives s fun q s' =>
      q ≤ i ∧ Stands s.entries q (pop st) ∧ s' = s := by
  induction h generalizing k with
  | root get ref parent inode =>
    obtain ⟨k, rfl⟩ := Nat.exists_eq_succ_of_ne_zero (Nat.ne_zero_of_lt hk)
    rw [FilePathEntry.logicalParent, gives_deref_bind get]
    simp only [ref, parent, gives_pure]
    exact ⟨le_rfl, .root get ref parent inode, trivial⟩
  | child get ref parent inode lt rest =>
    obtain ⟨k, rfl⟩ := Nat.exists_eq_succ_of_ne_zero (Nat.ne_zero_of_lt hk)
    rw [FilePathEntry.logicalParent, gives_deref_bind get]
    simp only [ref, parent, gives_pure]
    obtain ⟨m, st, rfl⟩ := List.exists_cons_of_ne_nil rest.ne_nil
    exact ⟨lt.le, rest, trivial⟩
  | ref get ref lt _ ih =>
    obtain ⟨k, rfl⟩ := Nat.exists_eq_succ_of_ne_zero (Nat.ne_zero_of_lt hk)
    rw [FilePathEntry.logicalParent, gives_deref_bind get]
    simp only [ref]
    refine (ih (by omega)).mono ?_
    rintro q _ ⟨hq, hstands, rfl⟩
    exact ⟨hq.trans lt.le, hstands, rfl⟩

end Standing

/-! ## Populating -/

/-- Every child of the nodes of a stack can be read. -/
def Readable (readInode : ℕ → Except Errno Inode) (tree : ℕ → Inode) (st : List Inode) : Prop :=
  ∀ n ∈ st, ∀ c ∈ n.children, readInode c.inode = .ok (tree c.inode)

/-- The entry at `i` takes its step from the stack `st` in a run that ends in `s'`. -/
def Steps (tree : ℕ → Inode) (st : List Inode) (name : Utf8) (i : ℕ) (err : Errno)
    (s' : PathState) : Prop :=
  match step tree st name with
  | .ok st' => err = .eok ∧ Stands s'.entries i st'
  | .error e => err = e

section Populating
variable {readInode : ℕ → Except Errno Inode} {tree : ℕ → Inode} {s s' : PathState}
  {st : List Inode} {names : List Utf8} {name : Utf8} {uninit err : Errno} {i k p : ℕ}
  {root : FilePathEntry} {n : Inode}

/-- Nothing but the entry at `i` differs. -/
structure WritesAt (i : ℕ) (s s' : PathState) : Prop where
  length : s'.entries.length = s.entries.length
  other : ∀ j, j ≠ i → s'.entries[j]? = s.entries[j]?

theorem writesAt_modify (f : FilePathEntry → FilePathEntry) (loc : Option FilePathEntry) :
    WritesAt i s ⟨s.entries.modify i f, loc⟩ where
  length := List.length_modify _ _ _
  other j hj := by simp [hj.symm]

theorem Stands.writesAt (h : Stands s.entries p st) (hp : p < i) (hw : WritesAt i s s') :
    Stands s'.entries p st :=
  h.mono fun j hj => hw.other j (by omega)

theorem step_ne_eok {e : Errno} (h : step tree st name = .error e) : e ≠ .eok := by
  rw [step] at h
  split_ifs at h
  rw [child] at h
  split at h
  · cases h
    simp
  · split_ifs at h
    · cases h
      simp
    · split at h <;> cases h
      simp

theorem readable_step {st' : List Inode} (htree : ∀ k, Readable readInode tree [tree k])
    (h : Readable readInode tree st) (hstep : step tree st name = .ok st') :
    Readable readInode tree st' := by
  rw [step] at hstep
  split_ifs at hstep
  · cases hstep
    exact h
  · cases hstep
    intro n hn
    apply h
    rcases st with _ | ⟨m, _ | ⟨m', st⟩⟩
    · exact hn
    · exact hn
    · exact List.mem_cons_of_mem m hn
  · rw [child] at hstep
    split at hstep
    · cases hstep
    · split_ifs at hstep
      split at hstep <;> cases hstep
      intro n hn
      rcases List.mem_cons.mp hn with rfl | hn
      · exact htree _ _ List.mem_cons_self
      · exact h n hn

/-- The part of `populate` behind the parent's takes one step of the walk. -/
theorem populateFrom_gives (hst : Stands s.entries p st) (hp : p < i) (hi : i < s.entries.length)
    (hentry : s.entries[i]? = some ⟨name, some p, none, none⟩) (hread : Readable readInode tree st) :
    (FilePathEntry.populateFrom readInode err i p).Gives s fun r s' =>
      WritesAt i s s' ∧ Steps tree st name i r s' := by
  have hbound : p < s.entries.length := hp.trans hi
  rw [FilePathEntry.populateFrom, gives_get_bind, gives_deref_bind hentry]
  simp only [Steps, step]
  split_ifs with hdot hdotDot
  · rw [FilePathEntry.write, gives_modify_bind, gives_pure]
    have hw : WritesAt i s ⟨s.entries.modify i ({ · with ref := some p }), s.errorLoc⟩ :=
      writesAt_modify _ _
    refine ⟨hw, rfl, .ref (e := ⟨name, some p, some p, none⟩) ?_ rfl hp (hst.writesAt hp hw)⟩
    simp [hentry]
  · refine (hst.logicalParent hbound).bind ?_
    rintro q s ⟨hq, hstands, rfl⟩
    rw [FilePathEntry.write, gives_modify_bind, gives_pure]
    have hw : WritesAt i s ⟨s.entries.modify i ({ · with ref := some q }), s.errorLoc⟩ :=
      writesAt_modify _ _
    have hlt : q < i := hq.trans_lt hp
    refine ⟨hw, rfl, .ref (e := ⟨name, some p, some q, none⟩) ?_ rfl hlt (hstands.writesAt hlt hw)⟩
    simp [hentry]
  · refine (hst.getInode hbound).bind ?_
    rintro dir s ⟨rfl, rfl⟩
    obtain ⟨n, rest, rfl⟩ := List.exists_cons_of_ne_nil hst.ne_nil
    rw [FilePathEntry.setErrorLoc, gives_modify_bind]
    simp only [List.head?_cons, child]
    have hloc : ∀ loc, WritesAt i s { s with errorLoc := loc } := fun _ => ⟨rfl, fun _ _ => rfl⟩
    by_cases hdir : n.type = .directory
    · simp only [hdir, ne_eq, not_true_eq_false, if_false]
      rcases hfind : n.children.find? (fun ie => ie.name = name) with _ | ie
      · simp only [hfind, gives_pure]
        exact ⟨hloc _, trivial⟩
      · have hmem : ie ∈ n.children := List.mem_of_find?_eq_some hfind
        simp only [hfind, hread n List.mem_cons_self ie hmem, FilePathEntry.write, gives_modify_bind,
          gives_pure]
        have hw : WritesAt i s ⟨s.entries.modify i ({ · with inode := some (tree ie.inode) }),
            some ⟨name, some p, none, none⟩⟩ := writesAt_modify _ _
        refine ⟨hw, trivial, .child (e := ⟨name, some p, none, some (tree ie.inode)⟩) ?_ rfl rfl rfl hp
          (hst.writesAt hp hw)⟩
        simp [hentry]
    · simp only [hdir, ne_eq, not_false_eq_true, if_true]
      obtain ⟨e, he⟩ : ∃ e, s.entries[p]? = some e := ⟨_, List.getElem?_eq_getElem hbound⟩
      refine (gives_deref_bind (s := ⟨s.entries, some ⟨name, some p, none, none⟩⟩) he).mpr ?_
      rw [FilePathEntry.setErrorLoc, gives_modify_bind, gives_pure]
      exact ⟨hloc _, rfl⟩

/-- The root, the chain of a path behind it, and nothing populated from `j` on. -/
structure Fresh (root : FilePathEntry) (names : List Utf8) (j : ℕ) (s : PathState) : Prop where
  length : s.entries.length = names.length + 1
  root : s.entries[0]? = some root
  fresh : ∀ i (h : i < names.length), j ≤ i →
    s.entries[i + 1]? = some ⟨names[i], some i, none, none⟩

theorem Fresh.writesAt (h : Fresh root names i s) (hw : WritesAt (i + 1) s s') :
    Fresh root names (i + 1) s' where
  length := hw.length.trans h.length
  root := (hw.other 0 (by omega)).trans h.root
  fresh j hj hij := (hw.other (j + 1) (by omega)).trans (h.fresh j hj (by omega))

theorem walk_append (st : List Inode) (l : List Utf8) : walk tree st (l ++ [name]) =
    match walk tree st l with
    | .ok st => step tree st name
    | .error e => .error e := by
  induction l generalizing st with
  | nil =>
    simp only [List.nil_append, walk]
    rcases step tree st name with _ | _ <;> rfl
  | cons x l ih =>
    simp only [List.cons_append, walk]
    rcases step tree st x with _ | _
    · rfl
    · exact ih _

/-- What one step leaves is what the walk with that step leaves. -/
theorem populate_step (htree : ∀ k, Readable readInode tree [tree k])
    (hread : Readable readInode tree st) (h : Fresh root names i s) (hw : WritesAt (i + 1) s s')
    (hsteps : Steps tree st name (i + 1) err s') : match step tree st name with
      | .ok st => err = .eok ∧ Stands s'.entries (i + 1) st ∧ Readable readInode tree st ∧
          Fresh root names (i + 1) s'
      | .error e => err = e ∧ e ≠ .eok := by
  rw [Steps] at hsteps
  rcases hstep : step tree st name with e | st'
  · simp only [hstep] at hsteps
    exact ⟨hsteps, step_ne_eok hstep⟩
  · simp only [hstep] at hsteps
    exact ⟨hsteps.1, hsteps.2, readable_step htree hread hstep, h.writesAt hw⟩

/-- The parent of an entry that is not populated. -/
theorem logicalParent_fresh (hentry : s.entries[i]? = some ⟨name, some p, none, none⟩)
    (hk : 0 < k) : (FilePathEntry.logicalParent k i).Gives s fun q s' => q = p ∧ s' = s := by
  obtain ⟨k, rfl⟩ := Nat.exists_eq_succ_of_ne_zero hk.ne'
  rw [FilePathEntry.logicalParent, gives_deref_bind hentry]
  simp

theorem getInode_fresh (hentry : s.entries[i]? = some ⟨name, some p, none, none⟩)
    (hk : 0 < k) : (FilePathEntry.getInode k i).Gives s fun n s' => n = none ∧ s' = s := by
  obtain ⟨k, rfl⟩ := Nat.exists_eq_succ_of_ne_zero hk.ne'
  rw [FilePathEntry.getInode, gives_deref_bind hentry]
  simp

/-- Populating the entry of a component walks there from the root. -/
theorem populate_gives (uninit : Errno) (htree : ∀ k, Readable readInode tree [tree k])
    (hread : Readable readInode tree [n]) (hroot : root = rootEntry name n) (hi : i < names.length)
    (hk : i < k) (h : Fresh root names 0 s) :
    (FilePathEntry.populate (fun _ => readInode) uninit k (i + 1)).Gives s fun err s' =>
      match walk tree [n] (names.take (i + 1)) with
      | .ok st => err = .eok ∧ Stands s'.entries (i + 1) st ∧ Readable readInode tree st ∧
          Fresh root names (i + 1) s'
      | .error e => err = e ∧ e ≠ .eok := by
  subst hroot
  induction i generalizing k s with
  | zero =>
    obtain ⟨k, rfl⟩ := Nat.exists_eq_succ_of_ne_zero (Nat.ne_zero_of_lt hk)
    have hentry := h.fresh 0 hi le_rfl
    have hstands : Stands s.entries 0 [n] := .root h.root rfl rfl rfl
    have hlen := h.length
    rw [FilePathEntry.populate, gives_get_bind]
    refine (logicalParent_fresh hentry (by omega)).bind ?_
    rintro _ s ⟨rfl, rfl⟩
    refine (hstands.getInode (by omega)).bind ?_
    rintro _ s ⟨rfl, rfl⟩
    refine (populateFrom_gives hstands (by omega) (by omega) hentry hread).mono ?_
    rintro err s' ⟨hw, hsteps⟩
    have htake : names.take (0 + 1) = [] ++ [names[0]] := List.take_succ_eq_append_getElem hi
    rw [htake, walk_append]
    exact populate_step htree hread h hw hsteps
  | succ i ih =>
    obtain ⟨k, rfl⟩ := Nat.exists_eq_succ_of_ne_zero (Nat.ne_zero_of_lt hk)
    have hi' : i < names.length := by omega
    have hentry := h.fresh (i + 1) hi (Nat.zero_le _)
    have hparent := h.fresh i hi' (Nat.zero_le _)
    have hlen := h.length
    rw [FilePathEntry.populate, gives_get_bind]
    refine (logicalParent_fresh hentry (by omega)).bind ?_
    rintro _ s ⟨rfl, rfl⟩
    refine (getInode_fresh hparent (by omega)).bind ?_
    rintro _ s ⟨rfl, rfl⟩
    rw [gives_deref_bind hentry]
    refine (ih hi' (by omega) h).bind ?_
    intro err s' hpop
    have htake : names.take (i + 1 + 1) = names.take (i + 1) ++ [names[i + 1]] :=
      List.take_succ_eq_append_getElem hi
    rw [htake, walk_append]
    rcases hwalk : walk tree [n] (names.take (i + 1)) with e | st
    · simp only [hwalk] at hpop
      obtain ⟨rfl, hne⟩ := hpop
      rw [if_pos hne, gives_pure]
      exact ⟨rfl, hne⟩
    · simp only [hwalk] at hpop
      obtain ⟨rfl, hstands, hread', hfresh⟩ := hpop
      have hlen' := hfresh.length
      rw [if_neg (not_not.mpr rfl)]
      refine (populateFrom_gives hstands (by omega) (by omega)
        (hfresh.fresh (i + 1) hi le_rfl) hread').mono ?_
      rintro err s'' ⟨hw, hsteps⟩
      exact populate_step htree hread' hfresh hw hsteps

end Populating

/-! ## The reference walk -/

namespace Walk

/-- The walk meets `.` or `..` at a node that is no directory. -/
def dotAtFile (tree : ℕ → Inode) : List Inode → List Utf8 → Prop
  | _, [] => False
  | st, name :: names =>
      ((name = dot ∨ name = dotDot) ∧ atDirectory st = false) ∨
        ∃ st', step tree st name = .ok st' ∧ dotAtFile tree st' names

/-- The walk looks a name up in a node that is no directory. -/
def lookupAtFile (tree : ℕ → Inode) : List Inode → List Utf8 → Prop
  | _, [] => False
  | st, name :: names =>
      (name ≠ dot ∧ name ≠ dotDot ∧ atDirectory st = false) ∨
        ∃ st', step tree st name = .ok st' ∧ lookupAtFile tree st' names

section Reference
variable {tree : ℕ → Inode} {st : List Inode} {name : Utf8} {names : List Utf8}

theorem child_eq_enotdir : child tree st name = .error .enotdir ↔ atDirectory st = false := by
  rw [child, atDirectory]
  rcases st with _ | ⟨n, st⟩
  · simp
  · by_cases hdir : n.type = .directory
    · simp only [List.head?_cons, hdir, ne_eq, not_true_eq_false, if_false]
      rcases hfind : n.children.find? (fun ie => ie.name = name) with _ | ie <;> simp [hfind, hdir]
    · simp [hdir]

/-- A name is looked up in a node that is no directory, or the step is not `ENOTDIR`. -/
theorem step_eq_enotdir : step tree st name = .error .enotdir ↔
    name ≠ dot ∧ name ≠ dotDot ∧ atDirectory st = false := by
  rw [step]
  split_ifs with hdot hdotDot
  · simp [hdot]
  · simp [hdotDot]
  · simp [hdot, hdotDot, child_eq_enotdir]

theorem walk_eq_enotdir : walk tree st names = .error .enotdir ↔ lookupAtFile tree st names := by
  induction names generalizing st with
  | nil => simp [walk, lookupAtFile]
  | cons name names ih =>
    rw [walk, lookupAtFile, ← step_eq_enotdir]
    rcases step tree st name with e | st'
    · simp
    · simp [ih]

theorem strict_of_dotAtFile (h : dotAtFile tree st names) :
    strict tree st names = .error .enotdir := by
  induction names generalizing st with
  | nil => exact h.elim
  | cons name names ih =>
    rw [strict]
    by_cases hdir : atDirectory st = false
    · rw [if_pos hdir]
    · rw [if_neg hdir]
      obtain ⟨st', hstep, hrest⟩ := h.resolve_left fun hor => hdir hor.2
      rw [hstep]
      exact ih hrest

theorem strict_eq_walk (h : ¬ dotAtFile tree st names) :
    strict tree st names = walk tree st names := by
  induction names generalizing st with
  | nil => rfl
  | cons name names ih =>
    rw [dotAtFile, not_or, not_exists] at h
    obtain ⟨hdot, hrest⟩ := h
    rw [strict, walk]
    by_cases hdir : atDirectory st = false
    · have hname : name ≠ dot ∧ name ≠ dotDot := by
        rw [← not_or]
        exact fun hor => hdot ⟨hor, hdir⟩
      rw [if_pos hdir, step_eq_enotdir.mpr ⟨hname.1, hname.2, hdir⟩]
    · rw [if_neg hdir]
      rcases hstep : step tree st name with e | st'
      · rfl
      · exact ih fun hmem => hrest st' ⟨hstep, hmem⟩

/-- The number of the node a walk ends at, as `populate` and `get_inode` report it. -/
def report : Except Errno (List Inode) → Errno × Option ℕ
  | .ok st => (.eok, st.head?.map (·.inodeNo))
  | .error e => (e, none)

theorem report_walk_eq_strict : report (walk tree st names) = report (strict tree st names) ↔
    (dotAtFile tree st names → lookupAtFile tree st names) := by
  by_cases hdot : dotAtFile tree st names
  · rw [strict_of_dotAtFile hdot, ← walk_eq_enotdir]
    simp only [hdot, forall_true_left]
    rcases hwalk : walk tree st names with e | st'
    · simp [report]
    · simp [report]
  · rw [strict_eq_walk hdot]
    exact ⟨fun _ h => absurd h hdot, fun _ => rfl⟩

end Reference
end Walk

/-! ## Resolving -/

section Resolving
variable {readInode : ℕ → Except Errno Inode} {tree : ℕ → Inode} {s : PathState}
  {names : List Utf8} {path name : Utf8} {uninit : Errno} {root : FilePathEntry} {n : Inode}

theorem getElem?_chainFrom (p : ℕ) {i : ℕ} (h : i < names.length) :
    (chainFrom (p + 1) p names)[i]? = some ⟨names[i], some (p + i), none, none⟩ := by
  induction names generalizing p i with
  | nil => exact absurd h (Nat.not_lt_zero _)
  | cons name names ih =>
    cases i with
    | zero => rfl
    | succ i =>
      have hi : i < names.length := by simpa using h
      rw [chainFrom, List.getElem?_cons_succ, ih (p + 1) hi]
      simp
      omega

theorem lastFrom_eq (p : ℕ) : lastFrom (p + 1) p names = p + names.length := by
  induction names generalizing p with
  | nil => rfl
  | cons name names ih =>
    rw [lastFrom, ih, List.length_cons]
    omega

theorem fresh_chainFrom (h : s.entries = [root] ++ chainFrom 1 0 names) : Fresh root names 0 s where
  length := by rw [h, List.length_append, length_chainFrom, List.length_singleton, Nat.add_comm]
  root := by rw [h]; rfl
  fresh i hi _ := by
    rw [h, List.singleton_append, List.getElem?_cons_succ, getElem?_chainFrom 0 hi, Nat.zero_add]

/-- Resolving a path with a component walks its components, with `.` and `..` on any node. -/
theorem resolve_gives (uninit : Errno) (htree : ∀ k, Readable readInode tree [tree k])
    (hread : Readable readInode tree [n]) (hroot : root = rootEntry name n)
    (hs : s.entries = [root]) (hne : components path ≠ []) :
    (resolve readInode uninit path 0).Gives s fun r _ =>
      r = report (walk tree [n] (components path)) := by
  rw [resolve, parsePath]
  have hlen : (path.drop 0).length < path.length + 1 := by simp
  refine (parseFrom_gives hlen).bind ?_
  simp only [hs, List.drop_zero, List.length_singleton]
  rintro _ s₁ ⟨rfl, hentries⟩
  have hfresh := fresh_chainFrom hentries
  have hlen := hfresh.length
  have hpos : 0 < (components path).length := List.length_pos_iff.mpr hne
  obtain ⟨i, hi⟩ := Nat.exists_eq_succ_of_ne_zero hpos.ne'
  rw [gives_get_bind, lastFrom_eq, Nat.zero_add, hi]
  have hpop := populate_gives (i := i) (k := s₁.entries.length) uninit htree hread hroot
    (by omega) (by omega) hfresh
  rw [List.take_of_length_le (by omega)] at hpop
  refine hpop.bind ?_
  intro err s₂ hend
  rcases hwalk : walk tree [n] (components path) with e | st
  · simp only [hwalk] at hend
    obtain ⟨rfl, hne⟩ := hend
    rw [if_neg hne, gives_pure, report]
  · simp only [hwalk] at hend
    obtain ⟨rfl, hstands, -, hfresh₂⟩ := hend
    rw [if_pos rfl]
    refine (hstands.getInode (by omega)).bind ?_
    rintro _ _ ⟨rfl, rfl⟩
    rw [gives_pure, report]

/-- Resolving a path in a filesystem whose root directory is `n`, held by an entry called
`name`, does what the reference walk from that directory does. -/
def FollowsWalk (readInode : ℕ → Except Errno Inode) (tree : ℕ → Inode) (uninit : Errno)
    (name : Utf8) (n : Inode) (path : Utf8) : Prop :=
  (resolve readInode uninit path 0 ⟨[rootEntry name n], none⟩).1 =
    .ok (report (strict tree [n] (components path)))

/-- The root directory lists its own inode under the name of the entry that holds it. -/
def NamesItself (tree : ℕ → Inode) (name : Utf8) (n : Inode) : Prop :=
  name ≠ dot ∧ name ≠ dotDot ∧
    ∃ c, n.children.find? (·.name = name) = some c ∧ (tree c.inode).inodeNo = n.inodeNo

/-- A path without components is the root entry itself, which is populated once more: its
own name is looked up in the root directory. -/
theorem populate_root (uninit : Errno) (hread : Readable readInode tree [n]) (hdir : n.type = .directory)
    (hs : s.entries = [rootEntry name n]) :
    (FilePathEntry.populate (fun _ => readInode) uninit 1 0).Gives s fun err s' =>
      if name = dot ∨ name = dotDot then
        err = .eok ∧ s'.entries = [{ rootEntry name n with ref := some 0 }]
      else match n.children.find? (·.name = name) with
        | none => err = .enoent
        | some c => err = .eok ∧ s'.entries = [rootEntry name (tree c.inode)] := by
  have hstands : Stands s.entries 0 [n] := by
    rw [hs]
    exact .root (e := rootEntry name n) rfl rfl rfl rfl
  have hget : s.entries[0]? = some ⟨name, none, none, some n⟩ := by rw [hs]; rfl
  rw [FilePathEntry.populate, gives_get_bind, hs]
  refine (hstands.logicalParent (by simp)).bind ?_
  rintro q s ⟨hq, -, rfl⟩
  obtain rfl : q = 0 := Nat.le_zero.mp hq
  refine (hstands.getInode (by simp)).bind ?_
  rintro _ s ⟨rfl, rfl⟩
  simp only [List.head?_cons, FilePathEntry.populateFrom]
  rw [gives_get_bind, gives_deref_bind hget]
  simp only
  by_cases hdot : name = dot
  · rw [if_pos hdot]
    simp [FilePathEntry.write, hs, hdot, rootEntry]
  by_cases hdotDot : name = dotDot
  · rw [if_neg hdot, if_pos hdotDot]
    refine (hstands.logicalParent (by simp [hs])).bind ?_
    rintro q s ⟨hq, -, rfl⟩
    obtain rfl : q = 0 := Nat.le_zero.mp hq
    simp [FilePathEntry.write, hs, hdotDot, rootEntry]
  · rw [if_neg hdot, if_neg hdotDot]
    simp only [hdot, hdotDot, or_self, if_false]
    refine (hstands.getInode (by simp [hs])).bind ?_
    rintro _ s ⟨rfl, rfl⟩
    rw [FilePathEntry.setErrorLoc, gives_modify_bind]
    simp only [List.head?_cons, hdir, ne_eq, not_true_eq_false, if_false]
    rcases hfind : n.children.find? (fun ie => ie.name = name) with _ | c
    · simp only [hfind, gives_pure]
    · have hmem : c ∈ n.children := List.mem_of_find?_eq_some hfind
      simp only [hfind, FilePathEntry.write, hread n List.mem_cons_self c hmem,
        gives_modify_bind, gives_pure, hs]
      simp [rootEntry]

/-- It is the root only when the root directory lists itself under that name. -/
theorem resolve_root (hread : Readable readInode tree [n]) (hdir : n.type = .directory)
    (hnil : components path = []) :
    FollowsWalk readInode tree uninit name n path ↔ NamesItself tree name n := by
  have hlen : (path.drop 0).length < path.length + 1 := by simp
  have hparse : (parsePath path 0).Gives ⟨[rootEntry name n], none⟩ fun r s =>
      r = 0 ∧ s.entries = [rootEntry name n] := by
    refine (parseFrom_gives hlen).mono ?_
    rintro r s ⟨rfl, hs⟩
    rw [List.drop_zero, hnil] at hs
    rw [List.drop_zero, hnil]
    exact ⟨rfl, hs⟩
  obtain ⟨_, s, hret, rfl, hs⟩ := hparse
  obtain ⟨err, s', hpop, hend⟩ := populate_root uninit hread hdir hs
  have hone : s.entries.length = 1 := by rw [hs]; rfl
  have hrun : resolve readInode uninit path 0 ⟨[rootEntry name n], none⟩ =
      (if err = .eok then do
        let inode ← FilePathEntry.getInode 1 0
        pure (err, inode.map (·.inodeNo))
      else pure (err, none) : PathM (Errno × Option ℕ)) s' := by
    rw [resolve, hret.bind_eq]
    change (do
      let err ← FilePathEntry.populate (fun _ => readInode) uninit s.entries.length 0
      if err = .eok then do
        let inode ← FilePathEntry.getInode s.entries.length 0
        pure (err, inode.map (·.inodeNo))
      else pure (err, none) : PathM (Errno × Option ℕ)) s = _
    rw [hone, hpop.bind_eq]
  rw [FollowsWalk, hrun, hnil, NamesItself, strict, report]
  split_ifs at hend with hname
  · -- The entry refers to itself, and `get_inode` follows it for ever.
    obtain ⟨rfl, hentries⟩ := hend
    have hget : s'.entries[0]? = some { rootEntry name n with ref := some 0 } := by
      rw [hentries]
      rfl
    have hinode : (FilePathEntry.getInode 1 0).Stops s' .diverge s' := by
      rw [FilePathEntry.getInode, Stops, (deref_returns hget).bind_eq]
      rfl
    rw [if_pos rfl, hinode.bind_eq]
    refine ⟨fun h => by simp at h, fun h => ?_⟩
    exact (hname.elim h.1 h.2.1).elim
  · rw [not_or] at hname
    rcases hfind : n.children.find? (fun ie => ie.name = name) with _ | c
    · simp only [hfind] at hend
      rw [if_neg (by rw [hend]; simp)]
      refine ⟨fun h => ?_, fun h => ?_⟩
      · have herr : err = .eok := congrArg Prod.fst (Except.ok.inj h)
        rw [hend] at herr
        cases herr
      · obtain ⟨-, -, c, hc, -⟩ := h
        cases hfind.symm.trans hc
    · simp only [hfind] at hend
      obtain ⟨rfl, hentries⟩ := hend
      have hstands : Stands s'.entries 0 [tree c.inode] := by
        rw [hentries]
        exact .root (e := rootEntry name (tree c.inode)) rfl rfl rfl rfl
      obtain ⟨_, _, hinode, rfl, rfl⟩ := hstands.getInode (k := 1) (by simp)
      rw [if_pos rfl, hinode.bind_eq]
      simp only [List.head?_cons, Option.map_some]
      constructor
      · intro h
        have hnumber := congrArg Prod.snd (Except.ok.inj h)
        exact ⟨hname.1, hname.2, c, hfind, Option.some.inj hnumber⟩
      · rintro ⟨-, -, d, hd, hnumber⟩
        obtain rfl := Option.some.inj (hfind.symm.trans hd)
        exact congrArg Except.ok (Prod.ext rfl (congrArg some hnumber))

/-- **Resolving a path does what the reference walk does** exactly when the path has a
component, or its root is listed in itself under its own name, and when a walk that meets `.`
or `..` at a file goes on to look a name up in one. -/
theorem followsWalk_iff (htree : ∀ k, Readable readInode tree [tree k])
    (hread : Readable readInode tree [n]) (hdir : n.type = .directory) (uninit : Errno)
    (name path : Utf8) : FollowsWalk readInode tree uninit name n path ↔
      (components path = [] → NamesItself tree name n) ∧
      (dotAtFile tree [n] (components path) → lookupAtFile tree [n] (components path)) := by
  by_cases hnil : components path = []
  · rw [resolve_root hread hdir hnil]
    simp [hnil, dotAtFile]
  · obtain ⟨r, s, hret, rfl⟩ := resolve_gives (s := ⟨[rootEntry name n], none⟩) uninit
      htree hread rfl rfl hnil
    rw [FollowsWalk, hret, ← report_walk_eq_strict]
    simp [hnil]

/-- A root directory with a directory `a` and a file `file`. -/
def smallTree : ℕ → Inode
  | 1 => ⟨1, .directory, [⟨1, dot⟩, ⟨1, dotDot⟩, ⟨2, ['a']⟩, ⟨3, ['f', 'i', 'l', 'e']⟩]⟩
  | 2 => ⟨2, .directory, [⟨2, dot⟩, ⟨1, dotDot⟩]⟩
  | k => ⟨k, .file, []⟩

def smallRead (k : ℕ) : Except Errno Inode :=
  if k = 1 ∨ k = 2 ∨ k = 3 then .ok (smallTree k) else .error .enoent

theorem smallTree_readable (k : ℕ) : Readable smallRead smallTree [smallTree k] := by
  intro n hn c hc
  rw [List.mem_singleton] at hn
  subst hn
  rcases k with _ | _ | _ | k
  · simp [smallTree] at hc
  · simp only [smallTree, List.mem_cons, List.not_mem_nil, or_false] at hc
    rcases hc with rfl | rfl | rfl | rfl <;> rfl
  · simp only [smallTree, List.mem_cons, List.not_mem_nil, or_false] at hc
    rcases hc with rfl | rfl <;> rfl
  · simp [smallTree] at hc

theorem followsWalk_iff_small : FollowsWalk smallRead smallTree .eok [] (smallTree 1)
      ['.', '/', 'f', 'i', 'l', 'e'] ↔
    (components ['.', '/', 'f', 'i', 'l', 'e'] = [] → NamesItself smallTree [] (smallTree 1)) ∧
    (dotAtFile smallTree [smallTree 1] (components ['.', '/', 'f', 'i', 'l', 'e']) →
      lookupAtFile smallTree [smallTree 1] (components ['.', '/', 'f', 'i', 'l', 'e'])) :=
  followsWalk_iff smallTree_readable (smallTree_readable 1) rfl .eok [] _

/-- The path `./file/.` names a file as a directory, and resolves to the file. -/
theorem not_followsWalk_dot : (∀ k, Readable smallRead smallTree [smallTree k]) ∧
    ¬ FollowsWalk smallRead smallTree .eok [] (smallTree 1)
      ['.', '/', 'f', 'i', 'l', 'e', '/', '.'] := by
  refine ⟨smallTree_readable, ?_⟩
  rw [FollowsWalk]
  decide

end Resolving

end Cantos
