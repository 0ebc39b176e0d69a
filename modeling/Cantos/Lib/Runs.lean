import Mathlib.Algebra.BigOperators.Group.List.Basic
import Mathlib.Algebra.GroupWithZero.Nat
import Mathlib.Data.List.Pairwise
import Mathlib.Data.Nat.Basic
import Mathlib.Tactic.Common

/-!
# Sorted lists of runs

A run is a half-open interval `[lo x, hi x)` of numbers.  A list of runs is
coalesced when it is strictly increasing and every run ends before the next one
begins, with a gap: it is then the only such list with its set of numbers.

`insertRun` puts a run between two parts of a list and joins it with the neighbours
it touches, on the right and then on the left.

What a list of runs amounts to is measured by a `Weight`, any quantity that is
additive when an interval is cut in two.  Cutting, joining and moving runs keep
every weight; the weight `point a` says how often `a` is covered, and `length` is
the number of elements.

## Main definitions

* `Runs.Coalesced`: nonempty runs in increasing order, with a gap after each.
* `Runs.joinRight`, `Runs.insertRun`: insertion with joining.
* `Weight`, `weigh`: additive measures of runs; `Weight.point`, `Weight.length`.
-/

namespace Cantos.Runs

variable {α : Type} (lo hi : α → ℕ)

/-- Nonempty runs in increasing order, with a gap after each. -/
structure Coalesced (l : List α) : Prop where
  pos : ∀ x ∈ l, lo x < hi x
  gap : l.Pairwise fun x y => hi x < lo y

/-- `x` in front of `after`, joined with the first run of it when the two touch. -/
def joinRight (join : α → α → α) (x : α) : List α → List α
  | [] => [x]
  | y :: post => if hi x = lo y then join x y :: post else x :: y :: post

/-- `x` between `before` and `after`, joined with the neighbours it touches. -/
def insertRun (join : α → α → α) : List α → α → List α → List α
  | [], x, after => joinRight lo hi join x after
  | [p], x, after => joinRight lo hi join p (joinRight lo hi join x after)
  | p :: q :: before, x, after => p :: insertRun join (q :: before) x after

variable {lo hi} {l pre post before after : List α} {x y : α} {a : ℕ}

theorem coalesced_nil : Coalesced lo hi [] := ⟨by simp, List.Pairwise.nil⟩

theorem coalesced_singleton (h : lo x < hi x) : Coalesced lo hi [x] :=
  ⟨by simpa using h, List.pairwise_singleton _ _⟩

theorem coalesced_append : Coalesced lo hi (pre ++ post) ↔
    Coalesced lo hi pre ∧ Coalesced lo hi post ∧ ∀ x ∈ pre, ∀ y ∈ post, hi x < lo y := by
  constructor
  · rintro ⟨hp, hg⟩
    obtain ⟨h₁, h₂, h₃⟩ := List.pairwise_append.mp hg
    exact ⟨⟨fun x hx => hp x (List.mem_append_left _ hx), h₁⟩,
      ⟨fun x hx => hp x (List.mem_append_right _ hx), h₂⟩, h₃⟩
  · rintro ⟨h₁, h₂, h₃⟩
    refine ⟨fun x hx => ?_, List.pairwise_append.mpr ⟨h₁.gap, h₂.gap, h₃⟩⟩
    rcases List.mem_append.mp hx with hx | hx
    · exact h₁.pos x hx
    · exact h₂.pos x hx

theorem coalesced_cons : Coalesced lo hi (x :: post) ↔
    lo x < hi x ∧ (∀ y ∈ post, hi x < lo y) ∧ Coalesced lo hi post := by
  constructor
  · rintro ⟨hp, hg⟩
    obtain ⟨h₁, h₂⟩ := List.pairwise_cons.mp hg
    exact ⟨hp x List.mem_cons_self, h₁, fun y hy => hp y (List.mem_cons_of_mem _ hy), h₂⟩
  · rintro ⟨h₁, h₂, h₃⟩
    refine ⟨fun y hy => ?_, List.pairwise_cons.mpr ⟨h₂, h₃.gap⟩⟩
    rcases List.mem_cons.mp hy with rfl | hy
    · exact h₁
    · exact h₃.pos y hy

theorem Coalesced.remove (h : Coalesced lo hi (pre ++ x :: post)) :
    Coalesced lo hi (pre ++ post) := by
  obtain ⟨h₁, h₂, h₃⟩ := coalesced_append.mp h
  exact coalesced_append.mpr
    ⟨h₁, (coalesced_cons.mp h₂).2.2, fun u hu v hv => h₃ u hu v (List.mem_cons_of_mem _ hv)⟩

/-- A run may be replaced by a nonempty part of it. -/
theorem Coalesced.replace (h : Coalesced lo hi (pre ++ x :: post)) (hlo : lo x ≤ lo y)
    (hhi : hi y ≤ hi x) (hpos : lo y < hi y) : Coalesced lo hi (pre ++ y :: post) := by
  obtain ⟨h₁, h₂, h₃⟩ := coalesced_append.mp h
  obtain ⟨-, h₄, h₅⟩ := coalesced_cons.mp h₂
  refine coalesced_append.mpr ⟨h₁, coalesced_cons.mpr ⟨hpos, fun v hv => ?_, h₅⟩, ?_⟩
  · exact lt_of_le_of_lt hhi (h₄ v hv)
  · intro u hu v hv
    rcases List.mem_cons.mp hv with rfl | hv
    · exact lt_of_lt_of_le (h₃ u hu x List.mem_cons_self) hlo
    · exact h₃ u hu v (List.mem_cons_of_mem _ hv)

/-- The last run may be moved to the right at its end. -/
theorem Coalesced.extend_last (h : Coalesced lo hi (pre ++ [x])) (hlo : lo y = lo x)
    (hhi : hi x ≤ hi y) : Coalesced lo hi (pre ++ [y]) := by
  obtain ⟨h₁, h₂, h₃⟩ := coalesced_append.mp h
  have hx : lo x < hi x := h₂.pos x List.mem_cons_self
  refine coalesced_append.mpr ⟨h₁, coalesced_singleton (by omega), fun u hu v hv => ?_⟩
  obtain rfl := List.mem_singleton.mp hv
  rw [hlo]
  exact h₃ u hu x List.mem_cons_self

/-- A run behind all others may be appended. -/
theorem Coalesced.concat (h : Coalesced lo hi l) (hgap : ∀ z ∈ l, hi z < lo x)
    (hpos : lo x < hi x) : Coalesced lo hi (l ++ [x]) :=
  coalesced_append.mpr ⟨h, coalesced_singleton hpos, fun u hu v hv => by
    obtain rfl := List.mem_singleton.mp hv
    exact hgap u hu⟩

/-- In a coalesced list the runs from the first one that does not begin before `a`
all do not. -/
theorem Coalesced.le_of_mem_dropWhile (h : Coalesced lo hi l)
    (hy : y ∈ l.dropWhile fun z => lo z < a) : a ≤ lo y := by
  induction l with
  | nil => simp at hy
  | cons z l ih =>
    obtain ⟨hz, hgap, hl⟩ := coalesced_cons.mp h
    by_cases hza : lo z < a
    · rw [List.dropWhile_cons_of_pos (by simpa using hza)] at hy
      exact ih hl hy
    · rw [List.dropWhile_cons_of_neg (by simpa using hza)] at hy
      rcases List.mem_cons.mp hy with rfl | hy
      · omega
      · have := hgap y hy
        omega

theorem dropWhile_congr {p q : α → Bool} (h : ∀ z ∈ l, p z = q z) :
    l.dropWhile p = l.dropWhile q := by
  induction l with
  | nil => rfl
  | cons z l ih =>
    rw [List.dropWhile_cons, List.dropWhile_cons, h z List.mem_cons_self,
      ih fun z hz => h z (List.mem_cons_of_mem _ hz)]

theorem lt_of_mem_takeWhile (hy : y ∈ l.takeWhile fun z => lo z < a) : lo y < a := by
  induction l with
  | nil => simp at hy
  | cons z l ih =>
    by_cases hza : lo z < a
    · rw [List.takeWhile_cons_of_pos (by simpa using hza)] at hy
      rcases List.mem_cons.mp hy with rfl | hy
      · exact hza
      · exact ih hy
    · rw [List.takeWhile_cons_of_neg (by simpa using hza)] at hy
      simp at hy

/-- A run that ends at the bound of all runs of a coalesced list is the last one. -/
theorem Coalesced.eq_last (h : Coalesced lo hi (pre ++ x :: post)) {b : ℕ}
    (hb : ∀ z ∈ pre ++ x :: post, hi z ≤ b) (hx : hi x = b) : post = [] := by
  cases post with
  | nil => rfl
  | cons z post =>
    obtain ⟨-, h₂, -⟩ := coalesced_append.mp h
    have hz : hi x < lo z := (coalesced_cons.mp h₂).2.1 z List.mem_cons_self
    have hpos : lo z < hi z := h.pos z (by simp)
    have hle : hi z ≤ b := hb z (by simp)
    omega

/-! ## Weights -/

/-- A measure of half-open intervals that adds up where an interval is cut. -/
structure Weight where
  /-- The measure of `[a, b)`. -/
  of : ℕ → ℕ → ℕ
  add : ∀ {a b c : ℕ}, a ≤ b → b ≤ c → of a b + of b c = of a c

/-- The number of elements. -/
def Weight.length : Weight := ⟨fun a b => b - a, by omega⟩

/-- `1` for the intervals that contain `x`. -/
def Weight.point (x : ℕ) : Weight where
  of a b := if a ≤ x ∧ x < b then 1 else 0
  add := by
    intro a b c hab hbc
    split_ifs <;> omega

theorem Weight.of_self (w : Weight) (a : ℕ) : w.of a a = 0 := by
  have := w.add (le_refl a) (le_refl a)
  omega

@[simp] theorem length_of (a b : ℕ) : Weight.length.of a b = b - a := rfl

theorem point_of (x a b : ℕ) :
    (Weight.point x).of a b = if a ≤ x ∧ x < b then 1 else 0 := rfl

theorem point_of_mem {x a b : ℕ} (h : a ≤ x ∧ x < b) : (Weight.point x).of a b = 1 := if_pos h

theorem point_of_le_one (x a b : ℕ) : (Weight.point x).of a b ≤ 1 := by
  rw [point_of]
  split_ifs <;> omega

variable (w : Weight)

/-- The weights of the runs of a list, added up. -/
def weigh (lo hi : α → ℕ) (l : List α) : ℕ := (l.map fun x => w.of (lo x) (hi x)).sum

@[simp] theorem weigh_nil : weigh w lo hi [] = 0 := rfl

@[simp] theorem weigh_cons :
    weigh w lo hi (x :: post) = w.of (lo x) (hi x) + weigh w lo hi post := by
  simp [weigh]

@[simp] theorem weigh_append :
    weigh w lo hi (pre ++ post) = weigh w lo hi pre + weigh w lo hi post := by
  simp [weigh]

theorem weigh_perm (h : pre.Perm post) : weigh w lo hi pre = weigh w lo hi post :=
  (h.map _).sum_eq

/-- Runs apart from each other below `b` have a total length of at most `b`. -/
theorem Coalesced.weigh_length_le (h : Coalesced lo hi l) {b : ℕ} (hb : ∀ x ∈ l, hi x ≤ b) :
    ∀ {a : ℕ}, a ≤ b → (∀ x ∈ l, a ≤ lo x) → weigh .length lo hi l + a ≤ b := by
  induction l with
  | nil =>
    intro a hab _
    simpa using hab
  | cons x l ih =>
    intro a _ ha
    obtain ⟨hpos, hgap, hl⟩ := coalesced_cons.mp h
    have hrest := ih hl (fun y hy => hb y (List.mem_cons_of_mem x hy))
      (hb x List.mem_cons_self) fun y hy => (hgap y hy).le
    have hx := ha x List.mem_cons_self
    simp only [weigh_cons, length_of]
    omega

/-- A number is covered as soon as one run contains it. -/
theorem one_le_weigh_point (hx : x ∈ l) (ha : lo x ≤ a ∧ a < hi x) :
    1 ≤ weigh (.point a) lo hi l := by
  obtain ⟨pre, post, rfl⟩ := List.append_of_mem hx
  rw [weigh_append, weigh_cons, point_of_mem ha]
  omega

theorem exists_of_one_le_weigh_point (h : 1 ≤ weigh (.point a) lo hi l) :
    ∃ x ∈ l, lo x ≤ a ∧ a < hi x := by
  induction l with
  | nil => simp at h
  | cons x l ih =>
    by_cases hx : lo x ≤ a ∧ a < hi x
    · exact ⟨x, List.mem_cons_self, hx⟩
    · rw [weigh_cons, point_of, if_neg hx, zero_add] at h
      obtain ⟨y, hy, hya⟩ := ih h
      exact ⟨y, List.mem_cons_of_mem _ hy, hya⟩

/-- Two runs of a list that covers a number once only do not share it. -/
theorem apart_of_weigh_point (h : weigh (.point a) lo hi l ≤ 1) (hx : x ∈ l) (hy : y ∈ l)
    (hne : x ≠ y) (hxa : lo x ≤ a ∧ a < hi x) : ¬ (lo y ≤ a ∧ a < hi y) := by
  intro hya
  obtain ⟨pre, post, rfl⟩ := List.append_of_mem hx
  have hrest : y ∈ pre ++ post := by
    rcases List.mem_append.mp hy with hy | hy
    · exact List.mem_append_left _ hy
    · exact List.mem_append_right _ ((List.mem_cons.mp hy).resolve_left hne.symm)
  have hone := one_le_weigh_point hrest hya
  rw [weigh_append, weigh_cons, point_of_mem hxa] at h
  rw [weigh_append] at hone
  omega

/-- Nothing is covered below the first run. -/
theorem Coalesced.first_le (h : Coalesced lo hi (x :: l)) (hx : lo x < hi x)
    (ha : 1 ≤ weigh (.point a) lo hi (x :: l)) : lo x ≤ a := by
  obtain ⟨z, hz, hza, -⟩ := exists_of_one_le_weigh_point ha
  rcases List.mem_cons.mp hz with rfl | hz
  · exact hza
  · have hgap := (coalesced_cons.mp h).2.1 z hz
    omega

/-- Where the first run ends there is a gap. -/
theorem Coalesced.not_covered_hi (h : Coalesced lo hi (x :: l)) :
    ¬ 1 ≤ weigh (.point (hi x)) lo hi (x :: l) := by
  intro hone
  obtain ⟨z, hz, hza, hzb⟩ := exists_of_one_le_weigh_point hone
  rcases List.mem_cons.mp hz with rfl | hz
  · omega
  · have hgap := (coalesced_cons.mp h).2.1 z hz
    omega

/-- A coalesced list is determined by the numbers it covers. -/
theorem Coalesced.ext {l' : List α} (h : Coalesced lo hi l) (h' : Coalesced lo hi l')
    (hw : ∀ a, weigh (.point a) lo hi l = weigh (.point a) lo hi l') :
    l.map (fun x => (lo x, hi x)) = l'.map fun x => (lo x, hi x) := by
  induction l generalizing l' with
  | nil =>
    cases l' with
    | nil => rfl
    | cons y l' =>
      have hpos := h'.pos y List.mem_cons_self
      have hone := one_le_weigh_point (l := y :: l') (a := lo y) List.mem_cons_self ⟨le_rfl, hpos⟩
      rw [← hw, weigh_nil] at hone
      omega
  | cons x l ih =>
    obtain ⟨hx, hgap, hl⟩ := coalesced_cons.mp h
    cases l' with
    | nil =>
      have hone := one_le_weigh_point (l := x :: l) (a := lo x) List.mem_cons_self ⟨le_rfl, hx⟩
      rw [hw, weigh_nil] at hone
      omega
    | cons y l' =>
      obtain ⟨hy, hgap', hl'⟩ := coalesced_cons.mp h'
      -- Each first run begins where the other one does, and ends there too.
      have hlo : lo x = lo y :=
        le_antisymm (h.first_le hx (hw _ ▸ one_le_weigh_point List.mem_cons_self ⟨le_rfl, hy⟩))
          (h'.first_le hy (hw _ ▸ one_le_weigh_point List.mem_cons_self ⟨le_rfl, hx⟩))
      have hhi : hi x = hi y := by
        refine le_antisymm (le_of_not_gt fun hlt => ?_) (le_of_not_gt fun hlt => ?_)
        · exact h'.not_covered_hi (hw _ ▸ one_le_weigh_point List.mem_cons_self ⟨by omega, hlt⟩)
        · exact h.not_covered_hi (hw _ ▸ one_le_weigh_point List.mem_cons_self ⟨by omega, hlt⟩)
      rw [List.map_cons, List.map_cons, hlo, hhi]
      congr 1
      refine ih hl hl' fun a => ?_
      have ha := hw a
      rw [weigh_cons, weigh_cons, hlo, hhi] at ha
      exact Nat.add_left_cancel ha

/-! ## Insertion -/

section Insert
variable {join : α → α → α} (hlo : ∀ u v, lo (join u v) = lo u)
  (hhi : ∀ u v, hi u = lo v → hi (join u v) = hi v)

theorem insertRun_append_singleton {p : α} : insertRun lo hi join (pre ++ [p]) x after =
    pre ++ joinRight lo hi join p (joinRight lo hi join x after) := by
  induction pre with
  | nil => rfl
  | cons q pre ih =>
    cases pre with
    | nil => rfl
    | cons r pre => rw [List.cons_append, List.cons_append, insertRun, ← List.cons_append, ih]; rfl

/-- The runs after a join carry what the runs before it carried. -/
theorem exists_of_mem_joinRight {γ : Type} {f : α → γ} (hf : ∀ u v, f (join u v) = f u)
    (hy : y ∈ joinRight lo hi join x after) : ∃ z ∈ x :: after, f y = f z := by
  cases after with
  | nil => exact ⟨y, hy, rfl⟩
  | cons z post =>
    rw [joinRight] at hy
    split_ifs at hy
    · rcases List.mem_cons.mp hy with rfl | hy
      · exact ⟨x, List.mem_cons_self, hf x z⟩
      · exact ⟨y, List.mem_cons_of_mem _ (List.mem_cons_of_mem _ hy), rfl⟩
    · exact ⟨y, hy, rfl⟩

theorem exists_of_mem_insertRun {γ : Type} {f : α → γ} (hf : ∀ u v, f (join u v) = f u)
    (hy : y ∈ insertRun lo hi join before x after) : ∃ z ∈ x :: (before ++ after), f y = f z := by
  rcases List.eq_nil_or_concat before with rfl | ⟨pre, p, rfl⟩
  · exact exists_of_mem_joinRight hf hy
  · rw [List.concat_eq_append, insertRun_append_singleton] at hy
    rw [List.concat_eq_append]
    rcases List.mem_append.mp hy with hy | hy
    · exact ⟨y, by simp [hy], rfl⟩
    · obtain ⟨z, hz, hyz⟩ := exists_of_mem_joinRight hf hy
      rcases List.mem_cons.mp hz with rfl | hz
      · exact ⟨z, by simp, hyz⟩
      · obtain ⟨u, hu, hzu⟩ := exists_of_mem_joinRight hf hz
        refine ⟨u, ?_, hyz.trans hzu⟩
        rcases List.mem_cons.mp hu with rfl | hu
        · exact List.mem_cons_self
        · simp [hu]

/-- What the runs after an insertion carry, in order, is among what the runs before carried. -/
theorem map_joinRight_sublist {γ : Type} {f : α → γ} (hf : ∀ u v, f (join u v) = f u) :
    ((joinRight lo hi join x after).map f).Sublist ((x :: after).map f) := by
  cases after with
  | nil => exact List.Sublist.refl _
  | cons z post =>
    rw [joinRight]
    split_ifs
    · rw [List.map_cons, hf]
      exact ((List.sublist_cons_self z post).map f).cons_cons (f x)
    · exact List.Sublist.refl _

include hlo in
theorem le_of_mem_joinRight (hx : lo x < hi x) (ha : ∀ y ∈ after, hi x ≤ lo y)
    (hy : y ∈ joinRight lo hi join x after) : lo x ≤ lo y := by
  cases after with
  | nil => rw [List.mem_singleton.mp hy]
  | cons z post =>
    by_cases h : hi x = lo z
    · rw [joinRight, if_pos h] at hy
      rcases List.mem_cons.mp hy with rfl | hy
      · rw [hlo]
      · have := ha y (List.mem_cons_of_mem _ hy)
        omega
    · rw [joinRight, if_neg h] at hy
      rcases List.mem_cons.mp hy with rfl | hy
      · exact le_rfl
      · have := ha y hy
        omega

include hlo hhi

theorem coalesced_joinRight (hx : lo x < hi x) (h : Coalesced lo hi after)
    (ha : ∀ y ∈ after, hi x ≤ lo y) : Coalesced lo hi (joinRight lo hi join x after) := by
  cases after with
  | nil => exact coalesced_singleton hx
  | cons z post =>
    obtain ⟨hz, hgap, hpost⟩ := coalesced_cons.mp h
    by_cases hxz : hi x = lo z
    · rw [joinRight, if_pos hxz]
      refine coalesced_cons.mpr ⟨?_, ?_, hpost⟩
      · rw [hlo, hhi x z hxz]
        omega
      · rw [hhi x z hxz]
        exact hgap
    · rw [joinRight, if_neg hxz]
      refine coalesced_cons.mpr ⟨hx, fun y hy => ?_, h⟩
      have hxz' : hi x < lo z := lt_of_le_of_ne (ha z List.mem_cons_self) hxz
      rcases List.mem_cons.mp hy with rfl | hy
      · exact hxz'
      · have := hgap y hy
        omega

/-- Insertion between two parts that `x` does not overlap keeps the list coalesced. -/
theorem coalesced_insertRun (hx : lo x < hi x) (hl : Coalesced lo hi (before ++ after))
    (hb : ∀ p ∈ before, hi p ≤ lo x) (ha : ∀ y ∈ after, hi x ≤ lo y) :
    Coalesced lo hi (insertRun lo hi join before x after) := by
  obtain ⟨hb', ha', hba⟩ := coalesced_append.mp hl
  have hr := coalesced_joinRight hlo hhi hx ha' ha
  rcases List.eq_nil_or_concat before with rfl | ⟨pre, p, rfl⟩
  · exact hr
  rw [List.concat_eq_append] at *
  obtain ⟨h₁, h₂, h₃⟩ := coalesced_append.mp hb'
  have hle : ∀ z ∈ joinRight lo hi join x after, lo x ≤ lo z :=
    fun z hz => le_of_mem_joinRight hlo hx ha hz
  have hp : lo p < hi p := h₂.pos p List.mem_cons_self
  have hpx : hi p ≤ lo x := hb p (by simp)
  have hpr : ∀ z ∈ joinRight lo hi join x after, hi p ≤ lo z :=
    fun z hz => le_trans hpx (hle z hz)
  rw [insertRun_append_singleton]
  refine coalesced_append.mpr ⟨h₁, coalesced_joinRight hlo hhi hp hr hpr, fun u hu v hv => ?_⟩
  exact lt_of_lt_of_le (h₃ u hu p List.mem_cons_self) (le_of_mem_joinRight hlo hp hpr hv)

theorem weigh_joinRight (hx : lo x ≤ hi x) (h : ∀ y ∈ after, lo y ≤ hi y) :
    weigh w lo hi (joinRight lo hi join x after) =
      w.of (lo x) (hi x) + weigh w lo hi after := by
  cases after with
  | nil => simp [joinRight]
  | cons z post =>
    have hz : lo z ≤ hi z := h z List.mem_cons_self
    by_cases hxz : hi x = lo z
    · rw [joinRight, if_pos hxz, weigh_cons, weigh_cons, hlo, hhi x z hxz, ← Nat.add_assoc]
      rw [← w.add (hxz ▸ hx : lo x ≤ lo z) hz, hxz]
    · rw [joinRight, if_neg hxz, weigh_cons]

theorem le_joinRight (hx : lo x ≤ hi x) (h : ∀ y ∈ after, lo y ≤ hi y) :
    ∀ y ∈ joinRight lo hi join x after, lo y ≤ hi y := by
  cases after with
  | nil => simpa [joinRight] using hx
  | cons z post =>
    have hz := h z List.mem_cons_self
    intro y hy
    by_cases hxz : hi x = lo z
    · rw [joinRight, if_pos hxz] at hy
      rcases List.mem_cons.mp hy with rfl | hy
      · rw [hlo, hhi x z hxz]
        omega
      · exact h y (List.mem_cons_of_mem _ hy)
    · rw [joinRight, if_neg hxz] at hy
      rcases List.mem_cons.mp hy with rfl | hy
      · exact hx
      · exact h y hy

/-- Insertion adds the weight of `x` to the list. -/
theorem weigh_insertRun (hx : lo x ≤ hi x) (hl : ∀ y ∈ before ++ after, lo y ≤ hi y) :
    weigh w lo hi (insertRun lo hi join before x after) =
      w.of (lo x) (hi x) + weigh w lo hi (before ++ after) := by
  have ha : ∀ y ∈ after, lo y ≤ hi y := fun y hy => hl y (List.mem_append_right _ hy)
  have hr := weigh_joinRight w hlo hhi hx ha
  rcases List.eq_nil_or_concat before with rfl | ⟨pre, p, rfl⟩
  · exact hr
  rw [List.concat_eq_append] at *
  have hp : lo p ≤ hi p := hl p (by simp)
  rw [insertRun_append_singleton, weigh_append,
    weigh_joinRight w hlo hhi hp (le_joinRight hlo hhi hx ha), hr, weigh_append, weigh_append,
    weigh_cons, weigh_nil]
  omega

end Insert

end Cantos.Runs
