import Mathlib.Data.List.Basic
import Mathlib.Logic.Function.Basic

/-!
# Memory with a list written into it

A loop that stores the elements of a list one behind the other leaves the memory patched with
the list.

## Main definitions

* `Patch.patch`
-/

namespace Cantos.Patch

variable {α : Type} {mem : ℕ → α} {p a i : ℕ} {l : List α} {b : α}

/-- Memory with a list at an address. -/
def patch (mem : ℕ → α) (p : ℕ) (l : List α) : ℕ → α := fun a =>
  if a < p then mem a else l[a - p]?.getD (mem a)

@[simp] theorem patch_nil : patch mem p [] = mem := by
  funext a
  simp [patch]

theorem patch_of_lt (ha : a < p) : patch mem p l a = mem a := if_pos ha

theorem patch_of_le (ha : p + l.length ≤ a) : patch mem p l a = mem a := by
  rw [patch, if_neg (by omega), List.getElem?_eq_none (by omega), Option.getD_none]

theorem patch_add (hb : l[i]? = some b) : patch mem p l (p + i) = b := by
  rw [patch, if_neg (by omega), Nat.add_sub_cancel_left, hb, Option.getD_some]

/-- The first element is stored first. -/
theorem patch_cons : patch mem p (b :: l) = patch (Function.update mem p b) (p + 1) l := by
  funext a
  rcases Nat.lt_trichotomy a p with hlt | rfl | hgt
  · rw [patch_of_lt hlt, patch_of_lt (by omega), Function.update_of_ne (Nat.ne_of_lt hlt)]
  · rw [patch_of_lt (Nat.lt_succ_self a), Function.update_self]
    simp [patch]
  · obtain ⟨k, rfl⟩ := Nat.exists_eq_add_of_lt hgt
    have hsub : p + k + 1 - p = k + 1 := by omega
    have hsub' : p + k + 1 - (p + 1) = k := by omega
    rw [patch, patch, if_neg (by omega), if_neg (by omega), hsub, hsub', List.getElem?_cons_succ,
      Function.update_of_ne (by omega)]

end Cantos.Patch
