import Cantos.Fs.Resolution
import Cantos.Mem.State

/-!
# The names of a parsed path

`parse_path` on the bytes of a path, with `find` and `substr` as they compute with `size_t`:
the entries it makes carry the components of the path, one behind the other.  Two paths that
are joined with a slash have the components of both.

## Main definitions

* `CString`: the bytes of a `Utf8`, which fit into memory with their null byte.
* `CString.find`, `CString.substr`, `CString.parsePath`
* `Named`: the names between an entry and one it is behind.

## Main results

* `CString.parsePath_some`: the bytes of a path are parsed as its characters are.
* `CString.parsePath_names`
-/

namespace Cantos

open Exec

/-- The bytes of a string in front of its null byte. -/
structure CString where
  chars : List Char
  nulFree : '\x00' ∉ chars
  /-- The null byte has an address behind them. -/
  fits : chars.length + 1 < 2 ^ 32

/-- `Utf8::npos` -/
def npos : ℕ := 2 ^ 32 - 1

namespace CString

/-- The loop of `find`, over the bytes that are left and the null byte. -/
def findFrom (c : Char) : List Char → (pos : ℕ) → ℕ
  | [], _ => npos
  | d :: rest, pos => if d = c then pos else findFrom c rest (pos + 1)

/-- `find(c, pos)` -/
def find (s : CString) (c : Char) (pos : ℕ) : ℕ := findFrom c ((s.chars ++ ['\x00']).drop pos) pos

/-- `substr(pos, len)` -/
def substr (s : CString) (pos len : ℕ) : List Char :=
  let len := if len > sub32 s.chars.length pos then sub32 s.chars.length pos else len
  (s.chars.drop pos).take len

/-- A new entry behind `parent`, which may be null, when the name has bytes. -/
def append (fname : Utf8) (parent : Option ℕ) : PathM (Option ℕ) := do
  if fname.length ≠ 0 then do
    let s ← Exec.get
    Exec.set { s with entries := s.entries ++ [⟨fname, parent, none, none⟩] }
    pure (some s.entries.length)
  else pure parent

/-- The loop of `parse_path`, and the rest of the string behind it. -/
def parseFrom (path : CString) : (k oldpos : ℕ) → Option ℕ → PathM (Option ℕ)
  | 0, _, _ => Exec.stop .diverge
  | k + 1, oldpos, parent =>
      let pos := path.find '/' oldpos
      if pos ≠ npos then do
        let parent ← append (path.substr oldpos (sub32 pos oldpos)) parent
        parseFrom path k (add32 pos 1) parent
      else append (path.substr oldpos npos) parent

/-- `parse_path` -/
def parsePath (path : CString) (base : Option ℕ) : PathM (Option ℕ) :=
  parseFrom path (path.chars.length + 1) 0 base

end CString

/-- The names of the entries from `base` outwards to another one, without that of `base`. -/
inductive Named (entries : List FilePathEntry) (base : Option ℕ) : Option ℕ → List Utf8 → Prop
  | base : Named entries base base []
  | entry {i : ℕ} {e : FilePathEntry} {names : List Utf8} (get : entries[i]? = some e)
      (ne : some i ≠ base) (rest : Named entries base e.parent names) :
      Named entries base (some i) (names ++ [e.name])

section Components
variable {path a b : Utf8}

/-- What is in front of a slash and what is behind it. -/
theorem components_append_slash (a b : Utf8) :
    components (a ++ '/' :: b) = components a ++ components b := by
  rw [components, components, components, List.splitOn_append_cons_self, List.filter_append]

theorem components_replicate (n : ℕ) : components (List.replicate n '/') = [] := by
  induction n with
  | zero => rfl
  | succ n ih =>
    have hcons := components_append_slash [] (List.replicate n '/')
    rw [List.nil_append] at hcons
    rw [List.replicate_succ, hcons, ih]
    rfl

/-- Slashes in front of a path, behind it, and repeated ones do not matter. -/
theorem components_slashes (a b : Utf8) (n : ℕ) :
    components (List.replicate n '/' ++ a) = components a ∧
      components (a ++ List.replicate n '/') = components a ∧
      components (a ++ '/' :: (List.replicate n '/' ++ b)) = components (a ++ '/' :: b) := by
  have hfront : ∀ a : Utf8, components (List.replicate n '/' ++ a) = components a := by
    intro a
    cases n with
    | zero => rfl
    | succ n =>
      rw [List.replicate_succ', List.append_assoc, List.singleton_append, components_append_slash,
        components_replicate, List.nil_append]
  refine ⟨hfront a, ?_, ?_⟩
  · cases n with
    | zero => rw [List.replicate_zero, List.append_nil]
    | succ n =>
      rw [List.replicate_succ, components_append_slash, components_replicate, List.append_nil]
  · rw [components_append_slash, components_append_slash, hfront]

end Components

/-- Entries that are added do not change the names. -/
theorem Named.append {entries : List FilePathEntry} {base parent : Option ℕ} {names : List Utf8}
    (h : Named entries base parent names) (more : List FilePathEntry) :
    Named (entries ++ more) base parent names := by
  induction h with
  | base => exact .base
  | @entry i e _ get ne _ ih =>
    have hlt : i < entries.length := (List.getElem?_eq_some_iff.mp get).1
    exact .entry ((List.getElem?_append_left hlt).trans get) ne ih

namespace CString

section Find
variable {path : CString} {c : Char} {l pre post : List Char} {pos i : ℕ}

theorem findFrom_of_notMem (h : c ∉ l) : findFrom c l pos = npos := by
  induction l generalizing pos with
  | nil => rfl
  | cons d rest ih =>
    rw [List.mem_cons, not_or] at h
    rw [findFrom, if_neg (Ne.symm h.1), ih h.2]

theorem findFrom_append (h : c ∉ pre) : findFrom c (pre ++ c :: post) pos = pos + pre.length := by
  induction pre generalizing pos with
  | nil => exact if_pos rfl
  | cons d pre ih =>
    rw [List.mem_cons, not_or] at h
    rw [List.cons_append, findFrom, if_neg (Ne.symm h.1), ih h.2, List.length_cons]
    omega

/-- A slash is found where the first one is, and else none is there. -/
theorem find_slash (path : CString) (hpos : pos ≤ path.chars.length) :
    (∃ pre post, path.chars.drop pos = pre ++ '/' :: post ∧ '/' ∉ pre ∧
        path.find '/' pos = pos + pre.length) ∨
      '/' ∉ path.chars.drop pos ∧ path.find '/' pos = npos := by
  have hdrop : (path.chars ++ ['\x00']).drop pos = path.chars.drop pos ++ ['\x00'] :=
    List.drop_append_of_le_length hpos
  by_cases hmem : '/' ∈ path.chars.drop pos
  · obtain ⟨pre, post, hsplit, hpre⟩ := List.eq_append_cons_of_mem hmem
    refine .inl ⟨pre, post, hsplit, hpre, ?_⟩
    rw [find, hdrop, hsplit, List.append_assoc, List.cons_append, findFrom_append hpre]
  · refine .inr ⟨hmem, ?_⟩
    rw [find, hdrop, findFrom_of_notMem]
    simp [hmem]

/-- The length of what is left of a path is computed without a wrap. -/
theorem sub32_length (path : CString) (hpos : pos ≤ path.chars.length) :
    sub32 path.chars.length pos = (path.chars.drop pos).length := by
  have := path.fits
  rw [sub32, List.length_drop]
  omega

theorem substr_eq (path : CString) (hpos : pos ≤ path.chars.length) (len : ℕ) :
    path.substr pos len = (path.chars.drop pos).take len := by
  rw [substr, sub32_length path hpos]
  split_ifs with hlen
  · rw [List.take_of_length_le (Nat.le_refl _), List.take_of_length_le (Nat.le_of_lt hlen)]
  · rfl

end Find

/-! ## Offsets and indices -/

section Agreement
variable {path : CString} {pos k : ℕ}

/-- The index of a slash, or `npos`. -/
theorem find_eq (path : CString) (hpos : pos ≤ path.chars.length) :
    path.find '/' pos = (Utf8.find path.chars '/' pos).getD npos := by
  rcases path.find_slash hpos with ⟨pre, post, hdrop, hpre, hfind⟩ | ⟨hnone, hfind⟩
  · have hfirst : pre.findIdx? (· = '/') = none := by
      rw [List.findIdx?_eq_none_iff]
      intro c hc
      exact decide_eq_false (ne_of_mem_of_not_mem hc hpre)
    rw [hfind, Utf8.find, hdrop, List.findIdx?_append, hfirst, List.findIdx?_cons]
    simp
  · have hfirst : (path.chars.drop pos).findIdx? (· = '/') = none := by
      rw [List.findIdx?_eq_none_iff]
      intro c hc
      exact decide_eq_false (ne_of_mem_of_not_mem hc hnone)
    rw [hfind, Utf8.find, hfirst]
    rfl

theorem append_some (fname : Utf8) (parent : ℕ) :
    append fname (some parent) = appendName fname parent >>= fun r => pure (some r) := by
  rw [append, appendName]
  split_ifs
  · rfl
  · rfl

theorem parseFrom_some (path : CString) (hpos : pos ≤ path.chars.length) (parent : ℕ) :
    path.parseFrom k pos (some parent) =
      Cantos.parseFrom path.chars k pos parent >>= fun r => pure (some r) := by
  induction k generalizing pos parent with
  | zero => rfl
  | succ k ih =>
    have hfits := path.fits
    rw [parseFrom, Cantos.parseFrom, path.find_eq hpos]
    rcases hfind : Utf8.find path.chars '/' pos with _ | i
    · have hall : ∀ n, path.chars.length ≤ n → path.substr pos n = path.chars.drop pos := by
        intro n hn
        rw [path.substr_eq hpos, List.take_of_length_le]
        rw [List.length_drop]
        omega
      have hrest : Utf8.substr path.chars pos path.chars.length = path.chars.drop pos := by
        rw [Utf8.substr, List.take_of_length_le (by simp)]
      rw [Option.getD_none, if_neg (not_not.mpr rfl), hall npos (by rw [npos]; omega), hrest]
      exact append_some _ parent
    · obtain ⟨pre, post, hdrop, -, rfl⟩ := find_some hfind
      have hlen := congrArg List.length hdrop
      rw [List.length_drop, List.length_append, List.length_cons] at hlen
      have hne : pos + pre.length ≠ npos := by
        rw [npos]
        omega
      have hsub : sub32 (pos + pre.length) pos = pre.length := by
        rw [sub32]
        omega
      have hadd : add32 (pos + pre.length) 1 = pos + pre.length + 1 := Nat.mod_eq_of_lt (by omega)
      simp only [Option.getD_some, if_pos hne, hsub, hadd, Nat.add_sub_cancel_left,
        path.substr_eq hpos, append_some, bind_bind]
      have hnext : pos + pre.length + 1 ≤ path.chars.length := by omega
      exact congrArg (appendName (Utf8.substr path.chars pos pre.length) parent >>= ·)
        (funext fun r => ih hnext r)

/-- With an entry for its base, a path is parsed as its characters are in `parsePath`. -/
theorem parsePath_some (path : CString) (base : ℕ) :
    path.parsePath (some base) = Cantos.parsePath path.chars base >>= fun r => pure (some r) :=
  path.parseFrom_some (Nat.zero_le _) base

end Agreement

section Parse
variable {path : CString} {base parent : Option ℕ} {names : List Utf8} {s : PathState} {k pos : ℕ}

/-- An entry that is made carries its name. -/
theorem append_gives (h : Named s.entries base parent names)
    (hbase : ∀ b ∈ base, b < s.entries.length) (fname : Utf8) :
    (append fname parent).Gives s fun r s' => s.entries <+: s'.entries ∧
      Named s'.entries base r (names ++ if fname = [] then [] else [fname]) := by
  rw [CString.append]
  by_cases hnil : fname = []
  · simpa [hnil] using h
  · rw [if_pos (by simpa using hnil), gives_get_bind, gives_set_bind, gives_pure, if_neg hnil]
    refine ⟨List.prefix_append _ _, .entry (e := ⟨fname, parent, none, none⟩) ?_ ?_ (h.append _)⟩
    · exact List.getElem?_concat_length
    · rintro rfl
      exact absurd (hbase _ rfl) (Nat.lt_irrefl _)

/-- The rest of a path adds its components. -/
theorem parseFrom_gives (hk : (path.chars.drop pos).length < k) (hpos : pos ≤ path.chars.length)
    (h : Named s.entries base parent names) (hbase : ∀ b ∈ base, b < s.entries.length) :
    (path.parseFrom k pos parent).Gives s fun r s' => s.entries <+: s'.entries ∧
      Named s'.entries base r (names ++ components (path.chars.drop pos)) := by
  induction k generalizing pos parent names s with
  | zero => exact absurd hk (Nat.not_lt_zero _)
  | succ k ih =>
    have hfits := path.fits
    rw [parseFrom]
    rcases path.find_slash hpos with ⟨pre, post, hdrop, hpre, hfind⟩ | ⟨hnone, hfind⟩
    · have hlen := congrArg List.length hdrop
      rw [List.length_drop, List.length_append, List.length_cons] at hlen
      have hnext : path.chars.drop (pos + pre.length + 1) = post := by
        rw [Nat.add_assoc, ← List.drop_drop, hdrop, ← List.drop_drop, List.drop_left]
        rfl
      have hne : pos + pre.length ≠ npos := by
        rw [npos]
        omega
      have hsub : sub32 (pos + pre.length) pos = pre.length := by
        rw [sub32]
        omega
      have hadd : add32 (pos + pre.length) 1 = pos + pre.length + 1 := Nat.mod_eq_of_lt (by omega)
      simp only [hfind, if_pos hne, hsub, hadd]
      rw [path.substr_eq hpos, hdrop, List.take_left, components_append_slash,
        components_of_notMem hpre, ← List.append_assoc]
      refine (append_gives h hbase pre).bind ?_
      rintro r s₁ ⟨hpre, hnamed⟩
      have hpost : (path.chars.drop (pos + pre.length + 1)).length < k := by
        rw [hnext]
        rw [List.length_drop] at hk
        omega
      have hrest := ih hpost (by omega) hnamed fun b hb =>
        (hbase b hb).trans_le hpre.length_le
      rw [hnext] at hrest
      refine hrest.mono ?_
      rintro r s₂ ⟨hpre', hnamed'⟩
      exact ⟨hpre.trans hpre', hnamed'⟩
    · have hnpos : ¬ path.find '/' pos ≠ npos := not_not.mpr hfind
      simp only [if_neg hnpos]
      have htake : (path.chars.drop pos).take npos = path.chars.drop pos := by
        refine List.take_of_length_le ?_
        rw [List.length_drop, npos]
        omega
      rw [path.substr_eq hpos, htake, components_of_notMem hnone]
      exact append_gives h hbase _

theorem parsePath_gives (path : CString) (h : Named s.entries base parent names)
    (hbase : ∀ b ∈ base, b < s.entries.length) :
    (path.parsePath parent).Gives s fun r s' => s.entries <+: s'.entries ∧
      Named s'.entries base r (names ++ components path.chars) := by
  have hk : (path.chars.drop 0).length < path.chars.length + 1 := by simp
  have hpos : 0 ≤ path.chars.length := Nat.zero_le _
  exact parseFrom_gives hk hpos h hbase

/-- **Parsing is compositional.**  The entries behind `base` carry the components of the path; a
path that is joined from two carries those of the first and of the second, as parsing the
second behind the first does; and slashes more or less make no difference. -/
theorem parsePath_names (s : PathState) (base : Option (Fin s.entries.length)) :
    (∀ path : CString, (path.parsePath (base.map Fin.val)).Gives s fun r s' =>
        s.entries <+: s'.entries ∧
          Named s'.entries (base.map Fin.val) r (components path.chars)) ∧
      (∀ a b path : CString, path.chars = a.chars ++ '/' :: b.chars →
        ∃ names, (path.parsePath (base.map Fin.val)).Gives s (fun r s' =>
            Named s'.entries (base.map Fin.val) r names) ∧
          (a.parsePath (base.map Fin.val) >>= fun p => b.parsePath p).Gives s fun r s' =>
            Named s'.entries (base.map Fin.val) r names) ∧
      ∀ (a b : Utf8) (n : ℕ), components (List.replicate n '/' ++ a) = components a ∧
        components (a ++ List.replicate n '/') = components a ∧
        components (a ++ '/' :: (List.replicate n '/' ++ b)) = components (a ++ '/' :: b) := by
  have hbase : ∀ b ∈ base.map Fin.val, b < s.entries.length := by
    intro b hb
    obtain ⟨i, -, rfl⟩ := Option.map_eq_some_iff.mp hb
    exact i.isLt
  have hparse : ∀ path : CString, (path.parsePath (base.map Fin.val)).Gives s fun r s' =>
      s.entries <+: s'.entries ∧ Named s'.entries (base.map Fin.val) r (components path.chars) :=
    fun path => path.parsePath_gives .base hbase
  refine ⟨hparse, fun a b path hpath => ⟨components a.chars ++ components b.chars, ?_, ?_⟩,
    components_slashes⟩
  · refine (hparse path).mono ?_
    rintro r s' ⟨-, hnamed⟩
    rwa [hpath, components_append_slash] at hnamed
  · refine (hparse a).bind ?_
    rintro r s₁ ⟨hpre, hnamed⟩
    refine (b.parsePath_gives hnamed fun i hi => (hbase i hi).trans_le hpre.length_le).mono ?_
    rintro r' s₂ ⟨-, hnamed'⟩
    exact hnamed'

end Parse

end CString

end Cantos
