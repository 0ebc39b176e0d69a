import Mathlib.Data.List.Induction
import Mathlib.Data.Nat.Basic

/-!
# Text broken into lines

A text is broken at every newline, and after every line that is full.  The newlines are not
part of the lines, and the last line is the one that the next character goes to.

## Main definitions

* `Transcript.breakFrom`, `Transcript.lines`
* `Transcript.extend`: what one more character does to the last line.
-/

namespace Cantos.Transcript

variable {α : Type} (width : ℕ) (newline : α → Prop) [DecidablePred newline]

/-- The lines of a text behind the beginning of a line. -/
def breakFrom (line : List α) : List α → List (List α)
  | [] => [line]
  | c :: text =>
      if newline c then line :: breakFrom [] text
      else if line.length + 1 = width then (line ++ [c]) :: breakFrom [] text
      else breakFrom (line ++ [c]) text

/-- The lines of a text. -/
def lines (text : List α) : List (List α) := breakFrom width newline [] text

/-- The last line, after one more character. -/
def extend (line : List α) (c : α) : List (List α) :=
  if newline c then [line, []]
  else if line.length + 1 = width then [line ++ [c], []]
  else [line ++ [c]]

variable {width newline} {line text : List α}

/-- One more character changes the last line only, which is never full. -/
theorem breakFrom_split (hline : line.length < width) : ∃ front last,
    breakFrom width newline line text = front ++ [last] ∧ last.length < width ∧
      ∀ c, breakFrom width newline line (text ++ [c]) = front ++ extend width newline last c := by
  induction text generalizing line with
  | nil =>
    refine ⟨[], line, rfl, hline, fun c => ?_⟩
    simp only [List.nil_append, breakFrom, extend]
  | cons a text ih =>
    have hnil : ([] : List α).length < width := Nat.lt_of_le_of_lt (Nat.zero_le _) hline
    simp only [List.cons_append, breakFrom]
    split_ifs with hnewline hfull
    · obtain ⟨front, last, heq, hlast, hmore⟩ := ih hnil
      exact ⟨line :: front, last, congrArg _ heq, hlast, fun c => congrArg _ (hmore c)⟩
    · obtain ⟨front, last, heq, hlast, hmore⟩ := ih hnil
      exact ⟨(line ++ [a]) :: front, last, congrArg _ heq, hlast, fun c => congrArg _ (hmore c)⟩
    · refine ih ?_
      rw [List.length_append, List.length_singleton]
      omega

theorem lines_split (hwidth : 0 < width) (text : List α) : ∃ front last,
    lines width newline text = front ++ [last] ∧ last.length < width ∧
      ∀ c, lines width newline (text ++ [c]) = front ++ extend width newline last c :=
  breakFrom_split hwidth

/-- No line is longer than the width. -/
theorem length_le_of_mem (hwidth : 0 < width) {l : List α} (hl : l ∈ lines width newline text) :
    l.length ≤ width := by
  induction text using List.reverseRecOn with
  | nil =>
    obtain rfl := List.mem_singleton.mp hl
    exact Nat.zero_le _
  | append_singleton text c ih =>
    obtain ⟨front, last, heq, hlast, hmore⟩ := @lines_split _ width newline _ hwidth text
    rw [hmore, List.mem_append] at hl
    rcases hl with hl | hl
    · exact ih (heq ▸ List.mem_append_left _ hl)
    · unfold extend at hl
      split_ifs at hl with hnewline hfull <;>
        simp only [List.mem_cons, List.not_mem_nil, or_false] at hl
      · rcases hl with rfl | rfl
        · exact Nat.le_of_lt hlast
        · exact Nat.zero_le _
      · rcases hl with rfl | rfl
        · rw [List.length_append, List.length_singleton, hfull]
        · exact Nat.zero_le _
      · rw [hl, List.length_append, List.length_singleton]
        exact hlast

end Cantos.Transcript
