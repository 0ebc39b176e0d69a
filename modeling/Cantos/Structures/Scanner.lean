import Cantos.Structures.Format
import Cantos.Mem.State

/-!
# How far the formatters read

The loop of both formatters over the memory that the format string lies in, with the index
it reads at and the bytes that it has read.  The null byte is tested for in the condition
of the outer loop only: the byte behind a `%` and behind its `l`s is read, and the index goes
on behind it, whatever it is.

## Main definitions

* `FormatMemory`: a string with its null byte, and the memory behind it.
* `scan`: the loop, as `walkFormat` runs it on the bytes of the string.
* `Utf8.ScansInside`, `Stream.ScansInside`: it ends without a read behind the null byte.
* `endsInSpecifier`
-/

namespace Cantos

/-- A format string in memory. -/
structure FormatMemory where
  chars : List Char
  nulFree : '\x00' ∉ chars
  /-- The null byte has an address behind them. -/
  fits : chars.length + 1 < 2 ^ 32
  /-- The memory behind the null byte. -/
  behind : ℕ → Char

/-- `fmt[k]` -/
def FormatMemory.get (fmt : FormatMemory) (k : ℕ) : Char :=
  if k = fmt.chars.length then '\x00' else fmt.chars.getD k (fmt.behind k)

/-- Where a run of the loop is. -/
inductive ScanEnd (σ : Type)
  | done (s : σ)
  /-- `va_arg` does not find an argument of the type. -/
  | undefined
  | running
  deriving DecidableEq

/-- What a run of the loop has read, and where it is. -/
structure Scan (σ : Type) where
  reads : List ℕ
  ending : ScanEnd σ

/-- One more read, in front of the others. -/
def Scan.after {σ : Type} (p : ℕ) (r : Scan σ) : Scan σ := { r with reads := p :: r.reads }

/-- The loop of `format` and of `writef`, from the index `p` on; `fuel` is for the reads, and
`length` is `none` at the condition of the loop and a number at `cur = fmt[++p]`. -/
def scan {σ : Type} (mem : ℕ → Char) (put : Char → σ → σ)
    (specifier : Char → ℕ → List Arg → σ → Option (List Arg × σ)) :
    (fuel p : ℕ) → (length : Option ℕ) → (ap : List Arg) → σ → Scan σ
  | 0, _, _, _, _ => ⟨[], .running⟩
  | fuel + 1, p, none, ap, s =>
      let cur := mem p
      if cur = '\x00' then ⟨[p], .done s⟩
      else if cur = '%' then (scan mem put specifier fuel (add32 p 1) (some 0) ap s).after p
      else (scan mem put specifier fuel (add32 p 1) none ap (put cur s)).after p
  | fuel + 1, p, some length, ap, s =>
      let cur := mem p
      if cur = 'l' then
        (scan mem put specifier fuel (add32 p 1)
          (some (if length + 1 > 2 then 2 else length + 1)) ap s).after p
      else
        -- The `switch` has no case for the null byte, and the loop goes on behind it.
        match specifier cur length ap s with
        | none => ⟨[p], .undefined⟩
        | some (ap, s) => (scan mem put specifier fuel (add32 p 1) none ap s).after p

/-- The loop ends, and reads nothing behind the null byte. -/
def ScansInside {σ : Type} (fmt : FormatMemory) (put : Char → σ → σ)
    (specifier : Char → ℕ → List Arg → σ → Option (List Arg × σ)) (s : σ) : Prop :=
  ∀ ap, ∃ fuel, (scan fmt.get put specifier fuel 0 none ap s).ending ≠ .running ∧
    ∀ k ∈ (scan fmt.get put specifier fuel 0 none ap s).reads, k ≤ fmt.chars.length

/-- `Utf8::format` stays inside of its format string. -/
def Utf8.ScansInside (fmt : FormatMemory) : Prop :=
  Cantos.ScansInside fmt (fun cur => Utf8.Out.push [cur]) Utf8.specifier ⟨[], []⟩

/-- `Stream::writef` stays inside of its format string. -/
def Stream.ScansInside (fmt : FormatMemory) : Prop :=
  Cantos.ScansInside fmt (fun cur => Stream.Out.write [cur]) Stream.specifier ⟨[], 0, []⟩

/-- The rest of a format string ends in a specifier; `inside` when it begins in one. -/
def endsInSpecifier : (rest : List Char) → (inside : Bool) → Bool
  | [], inside => inside
  | cur :: rest, false => endsInSpecifier rest (cur = '%')
  | cur :: rest, true => endsInSpecifier rest (cur = 'l')

/-- The format string ends right behind a `%`, or behind the `l`s of one. -/
def FormatMemory.EndsInSpecifier (fmt : FormatMemory) : Prop :=
  endsInSpecifier fmt.chars false = true

instance (fmt : FormatMemory) : Decidable fmt.EndsInSpecifier :=
  inferInstanceAs (Decidable (_ = true))

/-- Where the loop is when `walkFormat` is through. -/
def ScanEnd.ofWalk {σ : Type} : Option σ → ScanEnd σ
  | some s => .done s
  | none => .undefined

section Scan
variable {σ : Type} {fmt : FormatMemory} {put : Char → σ → σ}
  {specifier : Char → ℕ → List Arg → σ → Option (List Arg × σ)} {rest : List Char} {cur : Char}
  {p fuel : ℕ} {length : Option ℕ} {ap : List Arg} {s : σ}

@[simp] theorem Scan.reads_after (p : ℕ) (r : Scan σ) : (r.after p).reads = p :: r.reads := rfl

@[simp] theorem Scan.ending_after (p : ℕ) (r : Scan σ) : (r.after p).ending = r.ending := rfl

@[simp] theorem FormatMemory.get_length (fmt : FormatMemory) :
    fmt.get fmt.chars.length = '\x00' := if_pos rfl

/-- The byte at an index of the string. -/
theorem FormatMemory.get_of_drop (h : fmt.chars.drop p = cur :: rest) :
    fmt.get p = cur ∧ cur ≠ '\x00' ∧ p < fmt.chars.length ∧ add32 p 1 = p + 1 ∧
      fmt.chars.drop (p + 1) = rest := by
  have hlen := congrArg List.length h
  rw [List.length_drop, List.length_cons] at hlen
  have hlt : p < fmt.chars.length := by omega
  have hcur : fmt.chars[p] = cur := by
    have hdrop := List.drop_eq_getElem_cons hlt
    rw [h] at hdrop
    exact (List.cons.inj hdrop).1.symm
  have hfits := fmt.fits
  refine ⟨?_, ?_, hlt, Nat.mod_eq_of_lt (by omega), ?_⟩
  · rw [FormatMemory.get, if_neg (Nat.ne_of_lt hlt), List.getD_eq_getElem?_getD,
      List.getElem?_eq_getElem hlt, hcur, Option.getD_some]
  · rintro rfl
    exact fmt.nulFree (hcur ▸ List.getElem_mem hlt)
  · rw [← List.drop_drop, h]
    rfl

theorem FormatMemory.eq_length_of_drop (h : fmt.chars.drop p = []) (hp : p ≤ fmt.chars.length) :
    p = fmt.chars.length :=
  Nat.le_antisymm hp (List.drop_eq_nil_iff.mp h)

/-- A string that does not end in a specifier is scanned as it is walked. -/
theorem scan_eq_walk (hrest : fmt.chars.drop p = rest) (hp : p ≤ fmt.chars.length)
    (hend : endsInSpecifier rest length.isSome = false) (hfuel : rest.length < fuel) :
    (scan fmt.get put specifier fuel p length ap s).ending =
        .ofWalk (walkFormat put specifier rest length ap s) ∧
      ∀ k ∈ (scan fmt.get put specifier fuel p length ap s).reads, k ≤ fmt.chars.length := by
  induction rest generalizing p length ap s fuel with
  | nil =>
    cases length with
    | some _ => cases hend
    | none =>
      obtain ⟨fuel, rfl⟩ := Nat.exists_eq_succ_of_ne_zero (Nat.ne_of_gt hfuel)
      obtain rfl := fmt.eq_length_of_drop hrest hp
      simp [scan, walkFormat, ScanEnd.ofWalk]
  | cons cur rest ih =>
    obtain ⟨fuel, rfl⟩ := Nat.exists_eq_succ_of_ne_zero (Nat.ne_of_gt (Nat.zero_lt_of_lt hfuel))
    obtain ⟨hget, hne, hlt, hadd, hdrop⟩ := fmt.get_of_drop hrest
    have hfuel' : rest.length < fuel := Nat.lt_of_succ_lt_succ hfuel
    have hstep : ∀ {length ap s}, endsInSpecifier rest length.isSome = false →
        ((scan fmt.get put specifier fuel (p + 1) length ap s).after p).ending =
            .ofWalk (walkFormat put specifier rest length ap s) ∧
          ∀ k ∈ ((scan fmt.get put specifier fuel (p + 1) length ap s).after p).reads,
            k ≤ fmt.chars.length := by
      intro length ap s hend
      obtain ⟨hending, hreads⟩ := @ih (p + 1) fuel length ap s hdrop hlt hend hfuel'
      refine ⟨hending, fun k hk => ?_⟩
      rcases List.mem_cons.mp hk with rfl | hk
      · exact Nat.le_of_lt hlt
      · exact hreads k hk
    cases length with
    | none =>
      simp only [scan, walkFormat, hget, if_neg hne, hadd]
      by_cases hcur : cur = '%'
      · rw [if_pos hcur, if_pos hcur]
        exact hstep (by simpa [endsInSpecifier, hcur] using hend)
      · rw [if_neg hcur, if_neg hcur]
        exact hstep (by simpa [endsInSpecifier, hcur] using hend)
    | some length =>
      simp only [scan, walkFormat, hget, hadd]
      by_cases hcur : cur = 'l'
      · rw [if_pos hcur, if_pos hcur]
        exact hstep (by simpa [endsInSpecifier, hcur] using hend)
      · rw [if_neg hcur, if_neg hcur]
        cases specifier cur length ap s with
        | none =>
          refine ⟨rfl, fun k hk => ?_⟩
          rw [List.mem_singleton.mp hk]
          exact Nat.le_of_lt hlt
        | some r => exact hstep (by simpa [endsInSpecifier, hcur] using hend)

/-- Every specifier goes on when it finds the arguments `demand`, and none is in demand for
the null byte. -/
structure Demands (specifier : Char → ℕ → List Arg → σ → Option (List Arg × σ))
    (demand : Char → ℕ → List Arg) : Prop where
  goesOn : ∀ cur length ap s, length ≤ 2 →
    ∃ s', specifier cur length (demand cur length ++ ap) s = some (ap, s')
  nul : ∀ length, demand '\x00' length = []

/-- With some arguments, the byte behind the null byte is read when the loop gets through. -/
def ScansPast (fmt : FormatMemory) (put : Char → σ → σ)
    (specifier : Char → ℕ → List Arg → σ → Option (List Arg × σ)) (p : ℕ) (length : Option ℕ)
    (ap : List Arg) : Prop :=
  ∀ s fuel, (scan fmt.get put specifier fuel p length ap s).ending = .running ∨
    fmt.chars.length + 1 ∈ (scan fmt.get put specifier fuel p length ap s).reads

/-- A round that goes on at the next byte. -/
theorem ScansPast.of_step {length' : Option ℕ} {ap' : List Arg}
    (h : ScansPast fmt put specifier (p + 1) length' ap')
    (hstep : ∀ s fuel, ∃ s', scan fmt.get put specifier (fuel + 1) p length ap s =
      (scan fmt.get put specifier fuel (p + 1) length' ap' s').after p) :
    ScansPast fmt put specifier p length ap := by
  intro s fuel
  cases fuel with
  | zero => exact .inl rfl
  | succ fuel =>
    obtain ⟨s', hs'⟩ := hstep s fuel
    rw [hs']
    exact (h s' fuel).imp_right (List.mem_cons_of_mem p)

/-- The null byte as a specifier. -/
theorem scansPast_nul {demand : Char → ℕ → List Arg} (hd : Demands specifier demand) {n : ℕ}
    (hn : n ≤ 2) : ScansPast fmt put specifier fmt.chars.length (some n) [] := by
  have hadd : add32 fmt.chars.length 1 = fmt.chars.length + 1 := Nat.mod_eq_of_lt fmt.fits
  intro s fuel
  rcases fuel with _ | _ | fuel
  · exact .inl rfl
  all_goals
    obtain ⟨s', hs'⟩ := hd.goesOn '\x00' n [] s hn
    rw [hd.nul, List.append_nil] at hs'
    simp only [scan, fmt.get_length, hs', if_neg (show '\x00' ≠ 'l' by decide), hadd]
  · exact .inl rfl
  · -- The condition of the outer loop is evaluated behind the null byte.
    refine .inr (List.mem_cons_of_mem _ ?_)
    split_ifs <;> exact List.mem_cons_self

/-- A string that ends in a specifier is read up to the byte behind the null byte, with
arguments for the specifiers in front. -/
theorem exists_scansPast {demand : Char → ℕ → List Arg} (hd : Demands specifier demand)
    (hrest : fmt.chars.drop p = rest) (hp : p ≤ fmt.chars.length)
    (hend : endsInSpecifier rest length.isSome = true) (hlength : ∀ n ∈ length, n ≤ 2) :
    ∃ ap, ScansPast fmt put specifier p length ap := by
  induction rest generalizing p length with
  | nil =>
    cases length with
    | none => cases hend
    | some length =>
      obtain rfl := fmt.eq_length_of_drop hrest hp
      exact ⟨[], scansPast_nul hd (hlength _ rfl)⟩
  | cons cur rest ih =>
    obtain ⟨hget, hne, hlt, hadd, hdrop⟩ := fmt.get_of_drop hrest
    cases length with
    | none =>
      by_cases hcur : cur = '%'
      · obtain ⟨ap, hap⟩ := @ih (p + 1) (some 0) hdrop hlt
          (by simpa [endsInSpecifier, hcur] using hend) (by simp)
        refine ⟨ap, hap.of_step fun s fuel => ⟨s, ?_⟩⟩
        simp only [scan, hget, if_neg hne, if_pos hcur, hadd]
      · obtain ⟨ap, hap⟩ := @ih (p + 1) none hdrop hlt
          (by simpa [endsInSpecifier, hcur] using hend) (by simp)
        refine ⟨ap, hap.of_step fun s fuel => ⟨put cur s, ?_⟩⟩
        simp only [scan, hget, if_neg hne, if_neg hcur, hadd]
    | some length =>
      by_cases hcur : cur = 'l'
      · have hle : ∀ n ∈ some (if length + 1 > 2 then 2 else length + 1), n ≤ 2 := by
          intro n hn
          obtain rfl := Option.some.inj hn
          split_ifs <;> omega
        obtain ⟨ap, hap⟩ := @ih (p + 1) _ hdrop hlt
          (by simpa [endsInSpecifier, hcur] using hend) hle
        refine ⟨ap, hap.of_step fun s fuel => ⟨s, ?_⟩⟩
        simp only [scan, hget, if_pos hcur, hadd]
      · obtain ⟨ap, hap⟩ := @ih (p + 1) none hdrop hlt
          (by simpa [endsInSpecifier, hcur] using hend) (by simp)
        refine ⟨demand cur length ++ ap, hap.of_step fun s fuel => ?_⟩
        obtain ⟨s', hs'⟩ := hd.goesOn cur length ap s (hlength _ rfl)
        exact ⟨s', by simp only [scan, hget, if_neg hcur, hs', hadd]⟩

theorem scansInside_iff_of_demands {demand : Char → ℕ → List Arg} (hd : Demands specifier demand)
    (fmt : FormatMemory) (s : σ) :
    ScansInside fmt put specifier s ↔ ¬ fmt.EndsInSpecifier := by
  constructor
  · intro h hend
    have hlength : ∀ n ∈ (none : Option ℕ), n ≤ 2 := nofun
    obtain ⟨ap, hap⟩ := @exists_scansPast σ fmt put specifier fmt.chars 0 none demand hd rfl
      (Nat.zero_le _) hend hlength
    obtain ⟨fuel, hended, hreads⟩ := h ap
    rcases hap s fuel with hrunning | hmem
    · exact hended hrunning
    · exact absurd (hreads _ hmem) (Nat.not_succ_le_self _)
  · intro h ap
    have hwalk := @scan_eq_walk σ fmt put specifier fmt.chars 0 (fmt.chars.length + 1) none ap s rfl
      (Nat.zero_le _) (Bool.eq_false_of_not_eq_true h) (Nat.lt_succ_self _)
    refine ⟨_, ?_, hwalk.2⟩
    rw [hwalk.1]
    cases walkFormat put specifier fmt.chars none ap s <;> exact nofun

end Scan

/-! ## The arguments of a specifier -/

/-- A number of the type that `length` modifiers ask for. -/
def demandNumber : (length : ℕ) → Arg
  | 0 => .uint 0
  | 1 => .ulong 0
  | _ => .ulonglong 0

/-- The arguments that a specifier of `writef` takes. -/
def Stream.demand (cur : Char) (length : ℕ) : List Arg :=
  if isNumber cur then [demandNumber length]
  else if cur = 'n' then [.slot 0]
  else if cur = 's' then [.str []]
  else []

/-- The arguments that a specifier of `format` takes. -/
def Utf8.demand (cur : Char) (length : ℕ) : List Arg :=
  if cur = 'S' then [.utf8 []] else Stream.demand cur length

theorem exists_value_demandNumber {length : ℕ} (h : length ≤ 2) :
    ∃ val, (demandNumber length).value length = some val := by
  rcases length with _ | _ | _ | length
  · exact ⟨_, rfl⟩
  · exact ⟨_, rfl⟩
  · exact ⟨_, rfl⟩
  · omega

theorem Stream.demands : Demands Stream.specifier Stream.demand where
  goesOn cur length ap s h := by
    unfold Stream.specifier Stream.demand
    obtain ⟨val, hval⟩ := exists_value_demandNumber h
    by_cases hnumber : isNumber cur = true
    · simp [hnumber, hval]
    · by_cases hn : cur = 'n'
      · simp [hn, isNumber]
      · by_cases hs : cur = 's'
        · simp [hs, isNumber]
        · rw [if_neg hnumber, if_neg hnumber, if_neg hn, if_neg hs]
          split <;> simp_all
  nul length := rfl

theorem Utf8.demands : Demands Utf8.specifier Utf8.demand where
  goesOn cur length ap s h := by
    unfold Utf8.specifier Utf8.demand Stream.demand
    obtain ⟨val, hval⟩ := exists_value_demandNumber h
    by_cases hnumber : isNumber cur = true
    · have hS : cur ≠ 'S' := by
        rintro rfl
        exact absurd hnumber (by decide)
      simp [hnumber, hval, hS]
    · by_cases hS : cur = 'S'
      · simp [hS, isNumber]
      · by_cases hn : cur = 'n'
        · simp [hn, isNumber]
        · by_cases hs : cur = 's'
          · simp [hs, isNumber]
          · rw [if_neg hnumber, if_neg hS, if_neg hnumber, if_neg hn, if_neg hs]
            split <;> simp_all
  nul length := rfl

/-- **Scanning stops at the null byte** unless the format string ends in a specifier. -/
theorem scansInside_iff (fmt : FormatMemory) :
    (Utf8.ScansInside fmt ↔ ¬ fmt.EndsInSpecifier) ∧
      (Stream.ScansInside fmt ↔ ¬ fmt.EndsInSpecifier) :=
  ⟨scansInside_iff_of_demands Utf8.demands fmt _, scansInside_iff_of_demands Stream.demands fmt _⟩

/-- `%l`, in front of zeros. -/
def percentL : FormatMemory := ⟨['%', 'l'], by decide, by decide, fun _ => '\x00'⟩

theorem not_scansInside_percentL :
    ¬ ∀ fmt : FormatMemory, Utf8.ScansInside fmt ∧ Stream.ScansInside fmt := by
  intro h
  have hend : percentL.EndsInSpecifier := by decide
  exact (scansInside_iff_of_demands Utf8.demands percentL _).mp (h percentL).1 hend

end Cantos
