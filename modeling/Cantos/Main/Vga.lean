import Cantos.Lib.Transcript
import Mathlib.Data.BitVec
import Mathlib.Data.List.Infix
import Mathlib.Logic.Function.Basic

/-!
# The text console

`_append` writes a character at the cursor, and moves the rows of the screen up when the cursor
leaves it.  The screen then shows the end of everything that was written.

The buffer is the entry at every index from `terminal_buffer` on.

## Main definitions

* `Terminal.append`
* `EntryStream.write`, `StringStream.write`
* `Terminal.Shows`: the screen shows the last of some lines.
-/

namespace Cantos.Vga

/-- A character and its colour, a `uint16_t`. -/
abbrev Entry := BitVec 16

/-- What `terminal_buffer` points to. -/
abbrev Buffer := ℕ → Entry

/-- `WIDTH` -/
def width : ℕ := 80
/-- `HEIGHT` -/
def height : ℕ := 25

/-- `' '` -/
def space : Entry := 0x20

/-- `add_colour` -/
def addColour (uc colour : BitVec 8) : Entry := uc.setWidth 16 ||| colour.setWidth 16 <<< 8

/-- `(c & 0xff) == '\n'` -/
def IsNewline (c : Entry) : Prop := c &&& 0xff = 0x0a

instance : DecidablePred IsNewline := fun _ => inferInstanceAs (Decidable (_ = _))

/-- The variables of the console; `installed` says that `terminal_buffer` is not null, and `puts`
has every index that `put_at` was called for. -/
structure Terminal where
  row : ℕ
  column : ℕ
  installed : Bool
  buffer : Buffer
  puts : List ℕ

/-- The last `k` turns of a loop that stores an entry in cell after cell, the next one being for
the cell `i`. -/
def fill (entry : Entry) : (k i : ℕ) → Buffer → Buffer
  | 0, _, buffer => buffer
  | k + 1, i, buffer => fill entry k (i + 1) (Function.update buffer i entry)

/-- The last `k` turns of the outer loop of `init`, the next one being for the row `y`. -/
def clear : (k y : ℕ) → Buffer → Buffer
  | 0, _, buffer => buffer
  | k + 1, y, buffer => clear k (y + 1) (fill space width (y * width) buffer)

/-- `vga::init`; `memory` is what lies at the address that is installed. -/
def init (memory : Buffer) : Terminal where
  row := 0
  column := 0
  installed := true
  buffer := clear height 0 memory
  puts := []

/-- The last `k` turns of the first loop of `_maybe_wrap`. -/
def moveUp : (k i : ℕ) → Buffer → Buffer
  | 0, _, buffer => buffer
  | k + 1, i, buffer => moveUp k (i + 1) (Function.update buffer (i - width) (buffer i))

namespace Terminal

variable (t : Terminal)

/-- `put_at` -/
def putAt (c : Entry) (x y : ℕ) : Terminal :=
  { t with
    buffer := Function.update t.buffer (y * width + x) c
    puts := t.puts ++ [y * width + x] }

/-- `_maybe_wrap` -/
def maybeWrap (colour : Entry) : Terminal :=
  let colour := colour &&& 0xff00
  if t.row ≥ height then
    let buffer := moveUp (height * width - width) width t.buffer
    { t with
      buffer := fill colour (height * width - (height - 1) * width) ((height - 1) * width) buffer
      row := height - 1 }
  else t

/-- `_append` up to `_maybe_wrap`. -/
def advance (c : Entry) : Terminal :=
  if IsNewline c then { t with row := t.row + 1, column := 0 }
  else
    let t := t.putAt c t.column t.row
    if t.column + 1 ≥ width then { t with column := 0, row := t.row + 1 }
    else { t with column := t.column + 1 }

/-- `_append` -/
def append (c : Entry) : Terminal := if t.installed then (t.advance c).maybeWrap c else t

end Terminal

/-- `EntryStream::write`, which returns `EOK`, with the number that it writes to `written`. -/
def EntryStream.write (t : Terminal) (buff : List Entry) : Terminal × ℕ :=
  (buff.foldl Terminal.append t, buff.length)

/-- `StringStream::write` -/
def StringStream.write (t : Terminal) (buff : List (BitVec 8)) (colour : BitVec 8) :
    Terminal × ℕ :=
  (buff.foldl (fun t uc => t.append (addColour uc colour)) t, buff.length)

/-- A call of one of the two. -/
inductive Write
  | entries (buff : List Entry)
  | string (buff : List (BitVec 8)) (colour : BitVec 8)

namespace Write

/-- The console after a call. -/
def run (t : Terminal) : Write → Terminal
  | entries buff => (EntryStream.write t buff).1
  | string buff colour => (StringStream.write t buff colour).1

/-- The first `n` turns of the loop of a call. -/
def take (n : ℕ) : Write → Write
  | entries buff => entries (buff.take n)
  | string buff colour => string (buff.take n) colour

/-- The characters of a call, with their colours. -/
def text : Write → List Entry
  | entries buff => buff
  | string buff colour => buff.map (addColour · colour)

end Write

/-! ## The transcript -/

/-- Everything that was written, in lines. -/
def transcript (text : List Entry) : List (List Entry) :=
  Transcript.lines width IsNewline text

/-- A space or a null character, in any colour. -/
def Blank (entry : Entry) : Prop := entry &&& 0xff = 0x20 ∨ entry &&& 0xff = 0

/-- The entry in a row, if there is one. -/
def entryAt (rows : List (List Entry)) (r x : ℕ) : Option Entry := rows[r]?.bind (·[x]?)

/-- A cell of the screen holds an entry, or is blank. -/
def Holds (cell : Entry) : Option Entry → Prop
  | some entry => cell = entry
  | none => Blank cell

/-- The cells of the screen hold the rows, and all the others are blank. -/
def Displays (buffer : Buffer) (rows : List (List Entry)) : Prop :=
  ∀ r < height, ∀ x < width, Holds (buffer (r * width + x)) (entryAt rows r x)

/-- The cursor is on the screen, nothing was written outside of it, and its rows up to the cursor
are the last ones of the lines. -/
structure Terminal.Shows (t : Terminal) (lines : List (List Entry)) : Prop where
  row : t.row < height
  column : t.column < width
  puts : ∀ i ∈ t.puts, i < width * height
  rows : ∃ rows, rows <:+ lines ∧ rows.length = t.row + 1 ∧ (∀ row ∈ rows, row.length ≤ width) ∧
    Displays t.buffer rows

/-! ## The loops -/

variable {k i j y : ℕ} {entry c : Entry} {buffer memory : Buffer}

theorem fill_apply : fill entry k i buffer j = if i ≤ j ∧ j < i + k then entry else buffer j := by
  induction k generalizing i buffer with
  | zero => rw [fill, if_neg (by omega)]
  | succ k ih =>
    rw [fill, ih]
    by_cases hij : j = i
    · rw [if_neg (by omega), if_pos (by omega), hij, Function.update_self]
    · rw [Function.update_of_ne hij]
      exact if_congr (by omega) rfl rfl

/-- Every cell gets the entry that is a row below it: that one is not overwritten before. -/
theorem moveUp_apply (hi : width ≤ i) : moveUp k i buffer j =
    if i ≤ j + width ∧ j + width < i + k then buffer (j + width) else buffer j := by
  induction k generalizing i buffer with
  | zero => rw [moveUp, if_neg (by omega)]
  | succ k ih =>
    rw [moveUp, ih (by omega)]
    by_cases hij : j + width = i
    · have hj : j = i - width := by omega
      rw [if_neg (by omega), if_pos (by omega), hij, hj, Function.update_self]
    · have hsame : Function.update buffer (i - width) (buffer i) j = buffer j :=
        Function.update_of_ne (by omega) _ _
      rw [hsame]
      split_ifs with h h' h'
      · exact Function.update_of_ne (by omega) _ _
      · omega
      · omega
      · rfl

theorem clear_apply : clear k y buffer j =
    if y * width ≤ j ∧ j < (y + k) * width then space else buffer j := by
  induction k generalizing y buffer with
  | zero => rw [clear, Nat.add_zero, if_neg (by omega)]
  | succ k ih =>
    have hnext : (y + 1) * width = y * width + width := Nat.succ_mul y width
    have hend : (y + (k + 1)) * width = (y + 1 + k) * width := by rw [Nat.add_right_comm, add_assoc]
    have hle : (y + 1) * width ≤ (y + 1 + k) * width :=
      Nat.mul_le_mul_right _ (Nat.le_add_right _ _)
    rw [clear, ih, fill_apply, hend]
    split_ifs <;> first | rfl | omega

/-! ## Rows of the screen -/

variable {rows upper front lines : List (List Entry)} {top last : List Entry} {r x : ℕ}
  {t : Terminal} {text : List Entry}

theorem getElem?_concat_of_lt {α : Type} {l : List α} {a : α} (h : l.length < r) :
    (l ++ [a])[r]? = none := by
  refine List.getElem?_eq_none ?_
  rw [List.length_append, List.length_singleton]
  exact h

theorem entryAt_append_nil : entryAt (rows ++ [[]]) r x = entryAt rows r x := by
  unfold entryAt
  rcases Nat.lt_trichotomy r rows.length with hlt | rfl | hgt
  · rw [List.getElem?_append_left hlt]
  · rw [List.getElem?_concat_length, List.getElem?_eq_none le_rfl]
    rfl
  · rw [getElem?_concat_of_lt hgt, List.getElem?_eq_none hgt.le]

/-- The entry that is added is behind the last one. -/
theorem entryAt_append_self :
    entryAt (upper ++ [last ++ [c]]) upper.length last.length = some c := by
  rw [entryAt, List.getElem?_concat_length, Option.bind_some, List.getElem?_concat_length]

/-- The others stay in their places. -/
theorem entryAt_append_of_ne (hne : ¬ (r = upper.length ∧ x = last.length)) :
    entryAt (upper ++ [last ++ [c]]) r x = entryAt (upper ++ [last]) r x := by
  unfold entryAt
  rcases Nat.lt_trichotomy r upper.length with hlt | rfl | hgt
  · rw [List.getElem?_append_left hlt, List.getElem?_append_left hlt]
  · rw [List.getElem?_concat_length, List.getElem?_concat_length, Option.bind_some,
      Option.bind_some]
    rcases Nat.lt_or_gt_of_ne (fun hx => hne ⟨rfl, hx⟩) with hlt | hgt
    · exact List.getElem?_append_left hlt
    · rw [getElem?_concat_of_lt hgt, List.getElem?_eq_none hgt.le]
  · rw [getElem?_concat_of_lt hgt, getElem?_concat_of_lt hgt]

theorem blank_space : Blank space := .inl (by decide)

theorem blank_colour (c : Entry) : Blank (c &&& 0xff00) := by
  have hzero : (0xff00 : Entry) &&& 0xff = 0#16 := by decide
  refine .inr ?_
  rw [BitVec.and_assoc, hzero]
  exact BitVec.and_zero

theorem displays_clear : Displays (clear height 0 memory) [[]] := by
  intro r hr x hx
  have hin : 0 * width ≤ r * width + x ∧ r * width + x < (0 + height) * width := by
    simp only [width, height] at *
    omega
  have hnone : entryAt [[]] r x = none := @entryAt_append_nil [] r x
  rw [clear_apply, if_pos hin, hnone]
  exact blank_space

theorem Displays.newline (h : Displays buffer rows) : Displays buffer (rows ++ [[]]) := by
  intro r hr x hx
  rw [entryAt_append_nil]
  exact h r hr x hx

theorem Displays.put (h : Displays buffer (upper ++ [last])) (hlast : last.length < width) :
    Displays (Function.update buffer (upper.length * width + last.length) c)
      (upper ++ [last ++ [c]]) := by
  intro r hr x hx
  by_cases hat : r = upper.length ∧ x = last.length
  · obtain ⟨rfl, rfl⟩ := hat
    rw [Function.update_self, entryAt_append_self]
    rfl
  · have hne : r * width + x ≠ upper.length * width + last.length := by
      simp only [width] at *
      omega
    rw [Function.update_of_ne hne, entryAt_append_of_ne hat]
    exact h r hr x hx

/-- The first row is lost when the cursor is below the screen. -/
theorem Displays.wrap (h : Displays buffer (top :: upper ++ [[]]))
    (hlength : upper.length = height - 1) :
    Displays (fill (c &&& 0xff00) (height * width - (height - 1) * width) ((height - 1) * width)
      (moveUp (height * width - width) width buffer)) (upper ++ [[]]) := by
  intro r hr x hx
  rw [fill_apply, moveUp_apply le_rfl]
  by_cases hbottom : r = upper.length
  · have hin : (height - 1) * width ≤ r * width + x ∧ r * width + x <
        (height - 1) * width + (height * width - (height - 1) * width) := by
      simp only [width, height] at *
      omega
    have hnone : entryAt upper r x = none := by
      rw [entryAt, List.getElem?_eq_none hbottom.ge]
      rfl
    rw [if_pos hin, entryAt_append_nil, hnone]
    exact blank_colour c
  · have hout : ¬ ((height - 1) * width ≤ r * width + x ∧ r * width + x <
        (height - 1) * width + (height * width - (height - 1) * width)) := by
      simp only [width, height] at *
      omega
    have hmoved : width ≤ r * width + x + width ∧ r * width + x + width <
        width + (height * width - width) := by
      simp only [width, height] at *
      omega
    have hrow : r * width + x + width = (r + 1) * width + x := by
      rw [Nat.succ_mul, Nat.add_right_comm]
    rw [if_neg hout, if_pos hmoved, hrow]
    exact h (r + 1) (by omega) x hx

/-! ## The invariant -/

/-- The cursor is at the end of the last line, on the screen or below it. -/
structure Terminal.Aligned (t : Terminal) (front : List (List Entry)) (last : List Entry) :
    Prop where
  installed : t.installed = true
  column : t.column = last.length
  puts : ∀ i ∈ t.puts, i < width * height
  rows : ∃ upper, upper <:+ front ∧ upper.length = t.row ∧ Displays t.buffer (upper ++ [last])

theorem advance_of_newline (hc : IsNewline c) :
    t.advance c = { t with row := t.row + 1, column := 0 } := if_pos hc

theorem advance_of_full (hc : ¬ IsNewline c) (hfull : width ≤ t.column + 1) :
    t.advance c = { t.putAt c t.column t.row with column := 0, row := t.row + 1 } :=
  (if_neg hc).trans (if_pos hfull)

theorem advance_of_not_full (hc : ¬ IsNewline c) (hfull : ¬ width ≤ t.column + 1) :
    t.advance c = { t.putAt c t.column t.row with column := t.column + 1 } :=
  (if_neg hc).trans (if_neg hfull)

namespace Terminal.Aligned

theorem init (memory : Buffer) : (init memory).Aligned [] [] :=
  { installed := rfl
    column := rfl
    puts := fun _ hi => absurd hi List.not_mem_nil
    rows := ⟨[], List.nil_suffix, rfl, displays_clear⟩ }

/-- A new line is begun. -/
theorem newLine (h : t.Aligned front last) :
    Aligned { t with row := t.row + 1, column := 0 } (front ++ [last]) [] := by
  obtain ⟨upper, hsuffix, hlength, hdisplays⟩ := h.rows
  refine { h with column := rfl, rows := ⟨upper ++ [last], ?_, ?_, hdisplays.newline⟩ }
  · obtain ⟨earlier, rfl⟩ := hsuffix
    exact ⟨earlier, (List.append_assoc ..).symm⟩
  · rw [List.length_append, List.length_singleton, hlength]

/-- A character is written at the cursor. -/
theorem putAt (h : t.Aligned front last) (hrow : t.row < height) (hlast : last.length < width) :
    Aligned { t.putAt c t.column t.row with column := t.column + 1 } front (last ++ [c]) := by
  obtain ⟨upper, hsuffix, hlength, hdisplays⟩ := h.rows
  refine
    { installed := h.installed
      column := by rw [List.length_append, List.length_singleton, h.column]
      puts := fun i hi => ?_
      rows := ⟨upper, hsuffix, hlength, ?_⟩ }
  · rcases List.mem_append.mp hi with hi | hi
    · exact h.puts i hi
    · have hcolumn := h.column
      rw [List.mem_singleton.mp hi]
      simp only [width, height] at *
      omega
  · have hput := hdisplays.put (c := c) hlast
    rwa [hlength, ← h.column] at hput

/-- What `_append` does in front of `_maybe_wrap`. -/
theorem advance (h : t.Aligned front last) (hrow : t.row < height) (hlast : last.length < width)
    (c : Entry) : ∃ front' last', front ++ Transcript.extend width IsNewline last c =
        front' ++ [last'] ∧ (t.advance c).Aligned front' last' ∧
      ((t.advance c).row < height ∨ (t.advance c).row = height ∧ last' = []) := by
  have hcolumn := h.column
  have hnext : t.row + 1 < height ∨ t.row + 1 = height :=
    Nat.lt_or_eq_of_le (Nat.succ_le_of_lt hrow)
  by_cases hnewline : IsNewline c
  · rw [Transcript.extend, if_pos hnewline, advance_of_newline hnewline]
    exact ⟨front ++ [last], [], List.append_cons .., h.newLine,
      hnext.imp_right fun heq => ⟨heq, rfl⟩⟩
  · rw [Transcript.extend, if_neg hnewline]
    by_cases hfull : last.length + 1 = width
    · rw [if_pos hfull, advance_of_full hnewline (by omega)]
      exact ⟨front ++ [last ++ [c]], [], List.append_cons .., (h.putAt hrow hlast).newLine,
        hnext.imp_right fun heq => ⟨heq, rfl⟩⟩
    · rw [if_neg hfull, advance_of_not_full hnewline (by omega)]
      exact ⟨front, last ++ [c], rfl, h.putAt hrow hlast, .inl hrow⟩

/-- The cursor is back on the screen. -/
theorem maybeWrap (h : t.Aligned front last)
    (hrow : t.row < height ∨ t.row = height ∧ last = []) (c : Entry) :
    (t.maybeWrap c).Aligned front last ∧ (t.maybeWrap c).row < height := by
  unfold Terminal.maybeWrap
  rcases hrow with hrow | ⟨hrow, rfl⟩
  · rw [if_neg hrow.not_ge]
    exact ⟨h, hrow⟩
  · rw [if_pos hrow.ge]
    refine ⟨{ h with rows := ?_ }, Nat.sub_lt (by decide : 0 < height) Nat.one_pos⟩
    obtain ⟨upper, hsuffix, hlength, hdisplays⟩ := h.rows
    cases upper with
    | nil => exact absurd (hlength.trans hrow) (by decide)
    | cons top upper =>
      have hlength' : upper.length = height - 1 := by
        rw [← hrow, ← hlength, List.length_cons, Nat.add_sub_cancel]
      exact ⟨upper, (List.suffix_cons top upper).trans hsuffix, hlength',
        hdisplays.wrap hlength'⟩

/-- One character. -/
theorem append (h : t.Aligned front last) (hrow : t.row < height) (hlast : last.length < width)
    (c : Entry) : ∃ front' last', front ++ Transcript.extend width IsNewline last c =
      front' ++ [last'] ∧ (t.append c).Aligned front' last' ∧ (t.append c).row < height := by
  obtain ⟨front', last', hlines, haligned, hrow'⟩ := h.advance hrow hlast c
  rw [Terminal.append, if_pos h.installed]
  exact ⟨front', last', hlines, haligned.maybeWrap hrow' c⟩

end Terminal.Aligned

/-- One more character, after which a line is extended or begun. -/
theorem transcript_split (h : transcript text = front ++ [last]) : last.length < width ∧
    ∀ c, transcript (text ++ [c]) = front ++ Transcript.extend width IsNewline last c := by
  obtain ⟨front', last', hlines, hsplit⟩ :=
    @Transcript.lines_split _ width IsNewline _ (by decide) text
  obtain ⟨rfl, hsingle⟩ := List.append_inj' (hlines.symm.trans h) rfl
  obtain rfl := List.singleton_inj.mp hsingle
  exact hsplit

/-- Any number of characters. -/
theorem aligned_foldl (memory : Buffer) (text : List Entry) : ∃ front last,
    transcript text = front ++ [last] ∧
      (text.foldl Terminal.append (init memory)).Aligned front last ∧
      (text.foldl Terminal.append (init memory)).row < height := by
  induction text using List.reverseRecOn with
  | nil => exact ⟨[], [], rfl, .init memory, by show 0 < height; decide⟩
  | append_singleton text c ih =>
    obtain ⟨front, last, hlines, haligned, hrow⟩ := ih
    obtain ⟨hlast, hmore⟩ := transcript_split hlines
    rw [List.foldl_append, List.foldl_cons, List.foldl_nil, hmore]
    exact haligned.append hrow hlast c

theorem shows_foldl (memory : Buffer) (text : List Entry) :
    (text.foldl Terminal.append (init memory)).Shows (transcript text) := by
  have hwidth : 0 < width := by decide
  obtain ⟨front, last, hlines, haligned, hrow⟩ := aligned_foldl memory text
  have hlast := (transcript_split hlines).1
  obtain ⟨upper, ⟨earlier, rfl⟩, hlength, hdisplays⟩ := haligned.rows
  have hsuffix : upper ++ [last] <:+ transcript text :=
    ⟨earlier, by rw [hlines, List.append_assoc]⟩
  exact
    { row := hrow
      column := haligned.column.trans_lt hlast
      puts := haligned.puts
      rows := ⟨upper ++ [last], hsuffix, by rw [List.length_append, List.length_singleton, hlength],
        fun row hmem => Transcript.length_le_of_mem hwidth (hsuffix.subset hmem), hdisplays⟩ }

/-! ## Calls -/

theorem Write.run_eq (t : Terminal) (w : Write) : w.run t = w.text.foldl Terminal.append t := by
  cases w with
  | entries buff => rfl
  | string buff colour =>
    unfold Write.run Write.text StringStream.write
    rw [List.foldl_map]

theorem foldl_run (t : Terminal) (ws : List Write) :
    ws.foldl Write.run t = (ws.flatMap Write.text).foldl Terminal.append t := by
  induction ws generalizing t with
  | nil => rfl
  | cons w ws ih => rw [List.foldl_cons, ih, Write.run_eq, List.flatMap_cons, List.foldl_append]

/-- After any calls, and every character of one more, the screen shows the last lines of what was
written. -/
theorem shows_transcript (memory : Buffer) (ws : List Write) (w : Write) (n : ℕ) :
    ((w.take n).run (ws.foldl Write.run (init memory))).Shows
      (transcript (ws.flatMap Write.text ++ (w.take n).text)) := by
  rw [Write.run_eq, foldl_run, ← List.foldl_append]
  exact shows_foldl memory _

/-- A line that is full and a newline leave an empty line. -/
example : transcript (List.replicate 80 0x41 ++ [0x0a, 0x42]) =
    [List.replicate 80 0x41, [], [0x42]] := by
  decide

end Cantos.Vga
