import Mathlib.Data.List.Nodup
import Mathlib.Logic.Function.Basic

/-!
# Cached copies of a table

Several caches hold copies of the entries of tables, each as it was at some time.  An entry
that is `absent` is never cached.  A copy may differ from the entry as long as it is still to
be dropped.

## Main definitions

* `Caches.UpTo`: the copies are those of the entries, up to what is still to be dropped.
* `Caches.Access`, `Caches.Safe`: a list of writes and drops that leaves no old copy.
-/

namespace Cantos.Caches

variable {κ α β : Type} {absent : β}

/-- Every copy is that of the current entry, or is still to be dropped. -/
def UpTo (absent : β) (current : κ → α → β) (cache : κ → α → Option β)
    (dropped : κ → α → Prop) : Prop :=
  ∀ c a v, cache c a = some v → v ≠ absent ∧ (v = current c a ∨ dropped c a)

section UpTo
variable {current current' : κ → α → β} {cache : κ → α → Option β} {dropped dropped' : κ → α → Prop}

/-- An entry may change when it was absent, or when its copies are still to be dropped. -/
theorem UpTo.change (h : UpTo absent current cache dropped)
    (hchange : ∀ c a, current' c a = current c a ∨ current c a = absent ∨ dropped' c a)
    (hdropped : ∀ c a, dropped c a → dropped' c a) : UpTo absent current' cache dropped' := by
  intro c a v hv
  obtain ⟨hne, heq | hd⟩ := h c a v hv
  · refine ⟨hne, ?_⟩
    rcases hchange c a with hsame | habsent | hd
    · exact .inl (heq.trans hsame.symm)
    · exact absurd (heq.trans habsent) hne
    · exact .inr hd
  · exact ⟨hne, .inr (hdropped c a hd)⟩

variable [DecidableEq κ] {c₀ : κ}

/-- A cache is emptied, and may belong to another table then. -/
theorem UpTo.flush (h : UpTo absent current cache dropped)
    (hcurrent : ∀ c ≠ c₀, current' c = current c)
    (hdropped : ∀ c ≠ c₀, ∀ a, dropped c a → dropped' c a) :
    UpTo absent current' (Function.update cache c₀ fun _ => none) dropped' := by
  intro c a v hv
  by_cases hc : c = c₀
  · subst hc
    rw [Function.update_self] at hv
    cases hv
  · rw [Function.update_of_ne hc] at hv
    obtain ⟨hne, hcopy⟩ := h c a v hv
    rw [hcurrent c hc]
    exact ⟨hne, hcopy.imp_right (hdropped c hc a)⟩

variable [DecidableEq α] {a₀ : α}

/-- A copy is dropped. -/
theorem UpTo.drop (h : UpTo absent current cache dropped)
    (hdropped : ∀ c a, dropped c a → dropped' c a ∨ c = c₀ ∧ a = a₀) :
    UpTo absent current (Function.update cache c₀ (Function.update (cache c₀) a₀ none))
      dropped' := by
  intro c a v hv
  by_cases hc : c = c₀
  · subst hc
    rw [Function.update_self] at hv
    by_cases ha : a = a₀
    · subst ha
      rw [Function.update_self] at hv
      cases hv
    · rw [Function.update_of_ne ha] at hv
      obtain ⟨hne, hcopy⟩ := h c a v hv
      exact ⟨hne, hcopy.imp_right fun hd => (hdropped c a hd).resolve_right fun heq => ha heq.2⟩
  · rw [Function.update_of_ne hc] at hv
    obtain ⟨hne, hcopy⟩ := h c a v hv
    exact ⟨hne, hcopy.imp_right fun hd => (hdropped c a hd).resolve_right fun heq => hc heq.1⟩

/-- An entry that is not absent is cached. -/
theorem UpTo.fill (h : UpTo absent current cache dropped) (hne : current c₀ a₀ ≠ absent) :
    UpTo absent current
      (Function.update cache c₀ (Function.update (cache c₀) a₀ (some (current c₀ a₀))))
      dropped := by
  intro c a v hv
  by_cases hc : c = c₀
  · subst hc
    rw [Function.update_self] at hv
    by_cases ha : a = a₀
    · subst ha
      rw [Function.update_self] at hv
      obtain rfl := Option.some.inj hv
      exact ⟨hne, .inl rfl⟩
    · rw [Function.update_of_ne ha] at hv
      exact h c a v hv
  · rw [Function.update_of_ne hc] at hv
    exact h c a v hv

end UpTo

/-! ## Lists of writes and drops -/

/-- An entry is written, or a copy of it is dropped. -/
inductive Access (κ α β : Type)
  | write (a : α) (v : β)
  | drop (c : κ) (a : α)
  deriving DecidableEq

open Access

variable {table : α → β} {l l' : List (Access κ α β)} {a : α}

/-- The entries that are written. -/
def targets : List (Access κ α β) → List α
  | [] => []
  | write a _ :: rest => a :: targets rest
  | drop _ _ :: rest => targets rest

theorem targets_append : targets (l ++ l') = targets l ++ targets l' := by
  induction l with
  | nil => rfl
  | cons x l ih =>
    cases x with
    | write a v => exact congrArg _ ih
    | drop c a => exact ih

variable [DecidableEq α]

/-- The table after the accesses. -/
def writes : List (Access κ α β) → (α → β) → α → β
  | [], table => table
  | write a v :: rest, table => writes rest (Function.update table a v)
  | drop _ _ :: rest, table => writes rest table

/-- Every entry that is written was absent, or is dropped from all caches afterwards. -/
def Safe (absent : β) : (α → β) → List (Access κ α β) → Prop
  | _, [] => True
  | table, write a v :: rest =>
      (table a = absent ∨ ∀ c, drop c a ∈ rest) ∧
        Safe absent (Function.update table a v) rest
  | table, drop _ _ :: rest => Safe absent table rest

theorem writes_append : writes (l ++ l') table = writes l' (writes l table) := by
  induction l generalizing table with
  | nil => rfl
  | cons x l ih => cases x <;> exact ih

theorem writes_of_notMem (h : a ∉ targets l) : writes l table a = table a := by
  induction l generalizing table with
  | nil => rfl
  | cons x l ih =>
    cases x with
    | write b v =>
      rw [targets, List.mem_cons, not_or] at h
      rw [writes, ih h.2, Function.update_of_ne h.1]
    | drop c b => exact ih h

/-- Drops write nothing. -/
theorem writes_drops (cs : List κ) (a : α) :
    writes (cs.map (drop · a) ++ l) table = writes l table := by
  induction cs with
  | nil => rfl
  | cons c cs ih => exact ih

omit [DecidableEq α] in
theorem targets_drops (cs : List κ) (a : α) : targets (cs.map (drop · a) ++ l) = targets l := by
  induction cs with
  | nil => rfl
  | cons c cs ih => exact ih

theorem Safe.drops {cs : List κ} (h : Safe absent table l) :
    Safe absent table (cs.map (drop · a) ++ l) := by
  induction cs with
  | nil => exact h
  | cons c cs ih => exact ih

/-- The entries that a list of writes to different places leaves. -/
theorem writes_map {γ : Type} [DecidableEq γ] {place : γ → α} (hplace : Function.Injective place)
    (value : γ → β) (es : List γ) (e : γ) :
    writes (es.map fun e => (write (place e) (value e) : Access κ α β)) table (place e) =
      if e ∈ es then value e else table (place e) := by
  induction es generalizing table with
  | nil => rfl
  | cons e' es ih =>
    rw [List.map_cons, writes, ih]
    by_cases he : e = e'
    · subst he
      simp [Function.update_self]
    · rw [Function.update_of_ne (hplace.ne he)]
      simp [he]

omit [DecidableEq α] in
theorem targets_map {γ : Type} (place : γ → α) (value : γ → β) (es : List γ) :
    targets (es.map fun e => (write (place e) (value e) : Access κ α β)) = es.map place := by
  induction es with
  | nil => rfl
  | cons e es ih => exact congrArg _ ih

/-- Entries that are absent can be written once. -/
theorem Safe.of_absent (hnodup : (targets l).Nodup) (h : ∀ a ∈ targets l, table a = absent) :
    Safe absent table l := by
  induction l generalizing table with
  | nil => trivial
  | cons x l ih =>
    cases x with
    | write b v =>
      obtain ⟨hb, hnodup⟩ := List.nodup_cons.mp hnodup
      refine ⟨.inl (h b List.mem_cons_self), ih hnodup fun a ha => ?_⟩
      have hne : a ≠ b := fun heq => hb (heq ▸ ha)
      rw [Function.update_of_ne hne]
      exact h a (List.mem_cons_of_mem b ha)
    | drop c b => exact ih hnodup h

theorem Safe.append (h : Safe absent table l)
    (h' : Safe absent (writes l table) l') : Safe absent table (l ++ l') := by
  induction l generalizing table with
  | nil => exact h'
  | cons x l ih =>
    cases x with
    | write b v =>
      exact ⟨h.1.imp_right fun hd c => List.mem_append_left l' (hd c), ih h.2 h'⟩
    | drop c b => exact ih h h'

end Cantos.Caches
