import Cantos.Smp.Tlb

/-!
# Coherence of the TLBs

The entries of a page that is in no installation are 0, so that no TLB has it.  `kinstall`
and `kinstall_append` write such entries only, where the sections are undisturbed; this is why
it does no harm that `kinstall` invalidates the physical addresses.  `kuninstall` and
`Map::invlpg` invalidate what was written.

## Main definitions

* `Sectioned`: what a critical section writes, and that it leaves no old copy.
* `Tlbs.Inv`
-/

namespace Cantos

open Caches Exec Linked Runs

/-! ## The writes of a section -/

section Writes
variable {cpus : ℕ} {cpu : Fin cpus} {s s' : Mem} {t : ℕ → ℕ} {p e : ℕ}
  {l : List (TlbAccess cpus)} {memBase flags k i entry base : ℕ} {chain : List Page}

theorem kernelPage_injective : Function.Injective kernelPage := fun _ _ h => Nat.add_left_cancel h

theorem kernelEntries_page (s : Mem) (e : ℕ) : kernelEntries s (kernelPage e) = s.page.table e := by
  rw [kernelEntries, kernelPage, if_pos (Nat.le_add_right _ _), Nat.add_sub_cancel_left]

/-- A function of pages is known by its values for the kernel and for the user. -/
theorem eq_kernelEntries (huser : ∀ p < firstPage, t p = 0)
    (hkernel : ∀ e, t (kernelPage e) = s.page.table e) : t = kernelEntries s := by
  funext p
  by_cases hp : firstPage ≤ p
  · obtain ⟨e, rfl⟩ := Nat.exists_eq_add_of_le hp
    exact (hkernel e).trans (kernelEntries_page s e).symm
  · rw [kernelEntries, if_neg hp]
    exact huser p (not_le.mp hp)

theorem nodup_pages (entry n : ℕ) : ((List.range' entry n).map kernelPage).Nodup :=
  List.Nodup.map kernelPage_injective (List.nodup_range' 1)

theorem writes_user {n : ℕ} (hl : targets l = (List.range' entry n).map kernelPage)
    (hp : p < firstPage) : writes l t p = t p := by
  refine writes_of_notMem fun hmem => ?_
  rw [hl] at hmem
  obtain ⟨e, -, rfl⟩ := List.mem_map.mp hmem
  exact absurd hp (Nat.le_add_right _ _).not_gt

theorem targets_appendAccesses : targets (appendAccesses s s' : List (TlbAccess cpus)) =
    (List.range' s.page.cursor (s'.page.cursor - s.page.cursor)).map kernelPage :=
  targets_map _ _ _

theorem writes_appendAccesses (hle : s.page.cursor ≤ s'.page.cursor) :
    writes (appendAccesses s s' : List (TlbAccess cpus)) t (kernelPage e) =
      if s.page.cursor ≤ e ∧ e < s'.page.cursor then s'.page.table e else t (kernelPage e) := by
  refine (writes_map kernelPage_injective _ _ e).trans (if_congr ?_ rfl rfl)
  rw [List.mem_range'_1]
  omega

theorem targets_runAccesses : targets (runAccesses cpu memBase flags k i entry) =
    (List.range' entry k).map kernelPage := by
  induction k generalizing i entry with
  | zero => rfl
  | succ k ih =>
    rw [runAccesses, targets, invlpgAll, targets_drops, ih]
    rfl

theorem writes_runAccesses : writes (runAccesses cpu memBase flags k i entry) t (kernelPage e) =
    if entry ≤ e ∧ e < entry + k then tableEntry memBase (i + (e - entry)) flags
    else t (kernelPage e) := by
  induction k generalizing i entry t with
  | zero => rw [runAccesses, writes, if_neg (by omega)]
  | succ k ih =>
    rw [runAccesses, writes, invlpgAll, writes_drops, ih]
    by_cases he : e = entry
    · subst he
      rw [if_neg (by omega), if_pos (by omega), Function.update_self, Nat.sub_self, Nat.add_zero]
    · rw [Function.update_of_ne (kernelPage_injective.ne he)]
      by_cases hin : entry + 1 ≤ e ∧ e < entry + 1 + k
      · rw [if_pos hin, if_pos (by omega)]
        congr 1
        omega
      · rw [if_neg hin, if_neg (by omega)]

/-- The entries that `kinstall` writes where the runs have the same length. -/
theorem targets_chainAccesses {n : ℕ} (hall : ∀ page ∈ chain, page.consecutive = n) :
    targets (chainAccesses cpu n flags chain entry) =
      (List.range' entry (Page.count chain)).map kernelPage := by
  induction chain generalizing entry with
  | nil => rfl
  | cons page next ih =>
    rw [chainAccesses, targets_append, targets_runAccesses,
      ih fun q hq => hall q (List.mem_cons_of_mem _ hq), ← List.map_append, Page.count,
      hall page List.mem_cons_self, List.range'_append_1]

theorem writes_chainAccesses {n : ℕ} (hall : ∀ page ∈ chain, page.consecutive = n) :
    writes (chainAccesses cpu n flags chain entry) t (kernelPage e) =
      if entry ≤ e ∧ e < entry + Page.count chain then Page.entryAt flags chain (e - entry)
      else t (kernelPage e) := by
  induction chain generalizing entry t with
  | nil => rw [chainAccesses, writes, Page.count, if_neg (by omega)]
  | cons page next ih =>
    have hpage : page.consecutive = n := hall page List.mem_cons_self
    rw [chainAccesses, writes_append, ih fun q hq => hall q (List.mem_cons_of_mem _ hq),
      writes_runAccesses, Page.count, Page.entryAt, hpage]
    by_cases hfirst : entry ≤ e ∧ e < entry + n
    · rw [if_neg (by omega), if_pos hfirst, if_pos (by omega), if_pos (by omega), Nat.zero_add]
    · by_cases hrest : entry + n ≤ e ∧ e < entry + n + Page.count next
      · rw [if_pos hrest, if_pos (by omega), if_neg (by omega), Nat.sub_sub]
      · rw [if_neg hrest, if_neg hfirst, if_neg (by omega)]

theorem targets_clearAccesses : targets (clearAccesses cpu k entry base) =
    (List.range' entry k).map kernelPage := by
  induction k generalizing entry base with
  | zero => rfl
  | succ k ih =>
    rw [clearAccesses, targets, invlpgAll, targets_drops, ih]
    rfl

theorem writes_clearAccesses : writes (clearAccesses cpu k entry base) t (kernelPage e) =
    if entry ≤ e ∧ e < entry + k then 0 else t (kernelPage e) := by
  induction k generalizing entry base t with
  | zero => rw [clearAccesses, writes, if_neg (by omega)]
  | succ k ih =>
    rw [clearAccesses, writes, invlpgAll, writes_drops, ih]
    by_cases he : e = entry
    · subst he
      rw [if_neg (by omega), if_pos (by omega), Function.update_self]
    · rw [Function.update_of_ne (kernelPage_injective.ne he)]
      exact if_congr (by omega) rfl rfl

theorem kernelPage_tableIndex (h : Aligned base) :
    base / pageSize = kernelPage (tableIndex base) := by
  obtain ⟨hle, hmod⟩ := h
  simp only [kernelPage, firstPage, tableIndex, kernelVmBase_eq, sizes] at *
  omega

theorem mem_invlpgAll (cpu cpu' : Fin cpus) (addr : ℕ) :
    Access.drop cpu' (addr / pageSize) ∈ invlpgAll cpu addr := by
  refine List.mem_map_of_mem ?_
  by_cases h : cpu' = cpu
  · exact h ▸ List.mem_cons_self
  · exact List.mem_cons_of_mem _ (List.mem_filter.mpr ⟨List.mem_finRange cpu', by simpa using h⟩)

/-- `kuninstall` invalidates every page that it clears. -/
theorem safe_clearAccesses (h : Aligned base) :
    Safe 0 t (clearAccesses cpu k (tableIndex base) base) := by
  induction k generalizing base t with
  | zero => trivial
  | succ k ih =>
    have hnext : tableIndex base + 1 = tableIndex (base + pageSize) := by
      have hadd := @tableIndex_add base 1 h
      rwa [Nat.one_mul, eq_comm] at hadd
    have halign : Aligned (base + pageSize) := by
      have hadd := h.add 1
      rwa [Nat.one_mul] at hadd
    rw [clearAccesses, hnext]
    refine ⟨.inr fun cpu' => List.mem_append_left _ ?_, (ih halign).drops⟩
    rw [← kernelPage_tableIndex h]
    exact mem_invlpgAll cpu cpu' base

end Writes

/-! ## Sections -/

/-- The entries behind the cursor are 0. -/
def Mem.Fresh (s : Mem) : Prop := ∀ e, s.page.cursor ≤ e → s.page.table e = 0

/-- The accesses of a section lead from the page tables before it to those behind it, and leave
no old copy of an entry. -/
structure Sectioned {cpus : ℕ} (s s' : Mem) (l : List (TlbAccess cpus)) : Prop where
  writes : writes l (kernelEntries s) = kernelEntries s'
  safe : Safe 0 (kernelEntries s) l
  fresh : s'.Fresh

section Sectioned
variable {cpus : ℕ} {cpu : Fin cpus} {s s' : Mem} {start depth head flags base : ℕ} {page : Page}
  {chain : List Page} {installed : List Installation}

theorem kernelEntries_user {p : ℕ} (hp : p < firstPage) : kernelEntries s p = 0 :=
  if_neg hp.not_ge

/-- A section that changes nothing. -/
theorem Sectioned.nil (hfresh : s.Fresh) : Sectioned s s ([] : List (TlbAccess cpus)) :=
  ⟨rfl, trivial, hfresh⟩

/-- What is written at the cursor was 0. -/
theorem safe_appendAccesses (hfresh : s.Fresh) :
    Safe 0 (kernelEntries s) (appendAccesses s s' : List (TlbAccess cpus)) := by
  refine .of_absent (targets_appendAccesses ▸ nodup_pages _ _) fun p hp => ?_
  rw [targets_appendAccesses] at hp
  obtain ⟨e, he, rfl⟩ := List.mem_map.mp hp
  rw [kernelEntries_page]
  exact hfresh e (List.mem_range'_1.mp he).1

/-- The section of a run of `kinstall_append`. -/
theorem Sectioned.append (hfresh : s.Fresh) (hle : s.page.cursor ≤ s'.page.cursor)
    (hsame : ∀ e, e < s.page.cursor ∨ s'.page.cursor ≤ e → s'.page.table e = s.page.table e) :
    Sectioned s s' (appendAccesses s s' : List (TlbAccess cpus)) where
  writes := by
    refine eq_kernelEntries (fun p hp => ?_) fun e => ?_
    · rw [writes_user targets_appendAccesses hp, kernelEntries_user hp]
    · rw [writes_appendAccesses hle, kernelEntries_page]
      split_ifs with h
      · rfl
      · exact (hsame e (by omega)).symm
  safe := safe_appendAccesses hfresh
  fresh e he := (hsame e (.inr he)).trans (hfresh e (hle.trans he))

/-- A section that fills entries below the cursor, behind what it writes at the cursor. -/
theorem Sectioned.fill {l : List (TlbAccess cpus)} {entry n : ℕ} (hfresh : s.Fresh)
    (hle : s.page.cursor ≤ s'.page.cursor) (hfit : entry + n ≤ s.page.cursor)
    (htargets : targets l = (List.range' entry n).map kernelPage)
    (hwrites : ∀ (t : ℕ → ℕ) e, Caches.writes l t (kernelPage e) =
      if entry ≤ e ∧ e < entry + n then s'.page.table e else t (kernelPage e))
    (hsafe : ∀ t : ℕ → ℕ, (∀ e, entry ≤ e → e < entry + n → t (kernelPage e) = s.page.table e) →
      Safe 0 t l)
    (hsame : ∀ e, ¬ (entry ≤ e ∧ e < entry + n) → e < s.page.cursor ∨ s'.page.cursor ≤ e →
      s'.page.table e = s.page.table e) :
    Sectioned s s' (appendAccesses s s' ++ l) where
  writes := by
    rw [writes_append]
    refine eq_kernelEntries (fun p hp => ?_) fun e => ?_
    · rw [writes_user htargets hp, writes_user targets_appendAccesses hp, kernelEntries_user hp]
    · rw [hwrites, writes_appendAccesses hle, kernelEntries_page]
      split_ifs with h h'
      · rfl
      · rfl
      · exact (hsame e h (by omega)).symm
  safe := by
    refine (safe_appendAccesses hfresh).append (hsafe _ fun e hge hlt => ?_)
    rw [writes_appendAccesses hle, if_neg (by omega), kernelEntries_page]
  fresh e he := by
    have hcursor := hle.trans he
    exact (hsame e (by omega) (.inr he)).trans (hfresh e hcursor)

/-- The section of `kinstall` that fills a hole. -/
theorem Sectioned.kinstall (hbook : Bookkept start installed s.page) (hfresh : s.Fresh)
    (h : (Page.kinstallSection depth head chain flags).Returns s (some base) s')
    (hquiet : s.TakesRight head chain) :
    Sectioned s s' (appendAccesses s s' ++
      chainAccesses cpu (Page.firstRun chain) flags chain (tableIndex base)) := by
  obtain ⟨slot, hfind, rfl, hle, hin, hsame⟩ := kinstallSection_kept h hquiet
  obtain ⟨hmem, hpages⟩ := holeFrom_mem hfind
  have hall := (hquiet slot hfind).1
  have hpos := hbook.slots.pos slot hmem
  have hlast := @Covers.lt_cursor_of_slot _ _ _ _ _ hbook.covers hmem (slot.hi - 1) (by omega)
  have hfit : slot.lo + Page.count chain ≤ s.page.cursor := by
    simp only [EmptySlot.hi] at hpos hlast
    omega
  refine .fill hfresh hle hfit (targets_chainAccesses hall) (fun t e => ?_) (fun t ht => ?_) hsame
  · rw [writes_chainAccesses hall]
    split_ifs with he he' he'
    · obtain ⟨k, rfl⟩ := Nat.exists_eq_add_of_le he.1
      have hk := hin k (by omega)
      simp only [EmptySlot.lo] at hk
      rw [hk, Nat.add_sub_cancel_left]
    · exact absurd he he'
    · exact absurd he' he
    · rfl
  · refine .of_absent (targets_chainAccesses hall ▸ nodup_pages _ _) fun p hp => ?_
    rw [targets_chainAccesses hall] at hp
    obtain ⟨e, he, rfl⟩ := List.mem_map.mp hp
    have he := List.mem_range'_1.mp he
    rw [ht e he.1 he.2]
    refine hbook.covers.cleared slot hmem e ⟨he.1, ?_⟩
    simp only [EmptySlot.hi, EmptySlot.lo] at *
    omega

/-- The section of `kuninstall` for a run. -/
theorem Sectioned.kuninstall {u : Unit} (hfresh : s.Fresh) (ha : Aligned base)
    (hfit : tableIndex base + page.consecutive ≤ s.page.cursor)
    (h : (Page.kuninstall depth base [page]).Returns s u s') :
    Sectioned s s' (appendAccesses s s' ++
      clearAccesses cpu page.consecutive (tableIndex base) base) := by
  obtain ⟨hle, hin, hsame⟩ := kuninstall_kept h hfit
  refine .fill hfresh hle hfit targets_clearAccesses (fun t e => ?_)
    (fun t _ => safe_clearAccesses ha) hsame
  rw [writes_clearAccesses]
  split_ifs with he
  · obtain ⟨k, rfl⟩ := Nat.exists_eq_add_of_le he.1
    exact (hin k (by omega)).symm
  · rfl

end Sectioned

/-! ## The bookkeeping -/

section Installs
variable {cpus : ℕ} {cpu : Fin cpus} {start : ℕ} {x y : Installs} {m : Installs.Move}

/-- What a section of an install does to the page tables. -/
theorem Installs.Inv.sectioned (h : x.Inv start) (hfresh : x.mem.Fresh)
    (hquiet : x.Undisturbed m) (hstep : x.step m = some y) :
    Sectioned x.mem y.mem (installAccesses cpu x.mem m) := by
  obtain ⟨heap, -, hbook⟩ := h.sound
  cases m with
  | kinstall chain flags | kinstallAppend chain flags | kuninstall i =>
    rw [Installs.step] at hstep
    split_ifs at hstep
    obtain rfl := Option.some.inj hstep
    exact .nil hfresh
  | enter depth call =>
    rw [Installs.step] at hstep
    split_ifs at hstep
    cases call with
    | search head chain flags =>
      rw [Installs.enter] at hstep
      split_ifs at hstep
      split at hstep
      next base mem hr =>
        obtain rfl := Option.some.inj hstep
        simp only [installAccesses, hr]
        exact .kinstall hbook hfresh hr hquiet
      next mem hr =>
        obtain rfl := Option.some.inj hstep
        obtain ⟨-, rfl⟩ | ⟨_, hbase, -⟩ :=
          Installs.section_cases hr h.mutex h.mem h.sound hquiet
        · simp only [installAccesses, hr]
          exact .nil hfresh
        · cases hbase
      next => cases hstep
    | append base mapped rest flags =>
      cases rest with
      | nil => cases hstep
      | cons page next =>
        rw [Installs.enter] at hstep
        split at hstep
        next first mem hr =>
          have hmem : y.mem = mem := by
            split_ifs at hstep <;> exact (Option.some.inj hstep) ▸ rfl
          obtain ⟨hle, hsame⟩ := appendSection_kept hr
          simp only [installAccesses, hr, hmem]
          exact .append hfresh hle hsame
        next => cases hstep
    | remove base rest flags =>
      cases rest with
      | nil => cases hstep
      | cons page next =>
        rename_i hcall
        have hpage := (h.positive _ hcall).2 page List.mem_cons_self
        have hfront := hbook.perm ((Installs.installed_perm hcall).symm.append_right heap)
        have ha : Aligned base := hfront.covers.aligned _ List.mem_cons_self
        have hlast := hfront.covers.lt_cursor_of_installed (e := tableIndex base +
          (page.consecutive - 1)) List.mem_cons_self (by
            simp only [Installation.hi, Installation.lo, Page.count]
            omega)
        rw [Installs.enter] at hstep
        split at hstep
        next u mem hr =>
          have hmem : y.mem = mem := by
            split_ifs at hstep <;> exact (Option.some.inj hstep) ▸ rfl
          simp only [installAccesses, hr, hmem]
          exact .kuninstall hfresh ha (by omega) hr
        next => cases hstep

end Installs

/-! ## The machine -/

namespace Tlbs

variable {cpus : ℕ} {start : ℕ} {x y : Tlbs cpus} {m : TlbMove cpus}

/-- A cached translation that an operation in progress is still to invalidate. -/
def Dropped (x : Tlbs cpus) (cpu : Fin cpus) (p : ℕ) : Prop :=
  firstPage ≤ p ∧ Access.drop cpu p ∈ x.pending ∨
    ∃ call ∈ x.calls, x.loaded cpu = some call.map ∧ call.written = some p

structure Inv (start : ℕ) (x : Tlbs cpus) : Prop where
  kernel : x.kernel.Inv start
  fresh : x.kernel.mem.Fresh
  tables : writes x.pending x.tables = kernelEntries x.kernel.mem
  safe : Safe 0 x.tables x.pending
  linked : ∀ cpu map, x.loaded cpu = some map → (x.maps map).usingCpu = some cpu
  user : ∀ call ∈ x.calls, (∀ w ∈ call.todo, w.1 < firstPage) ∧ ∀ p ∈ call.written, p < firstPage
  upTo : UpTo 0 x.current x.tlb x.Dropped

/-- A section begins. -/
theorem Inv.section (h : x.Inv start) (hpending : x.pending = []) {kernel : Installs}
    {l : List (TlbAccess cpus)} (hkernel : kernel.Inv start)
    (hl : Sectioned x.kernel.mem kernel.mem l) :
    Inv start { x with kernel, pending := l } := by
  have htables : x.tables = kernelEntries x.kernel.mem := by
    have h' := h.tables
    rwa [hpending] at h'
  refine ⟨hkernel, hl.fresh, ?_, ?_, h.linked, h.user, ?_⟩
  · dsimp only
    rw [htables]
    exact hl.writes
  · dsimp only
    rw [htables]
    exact hl.safe
  · refine h.upTo.change (fun cpu p => .inl rfl) fun cpu p hdropped => ?_
    rcases hdropped with ⟨-, hdrop⟩ | huser
    · rw [hpending] at hdrop
      cases hdrop
    · exact .inr huser

/-- A write of a section is to an entry that was 0, or whose translations are still to be
invalidated. -/
theorem Inv.perform {access : TlbAccess cpus} {rest : List (TlbAccess cpus)} (h : x.Inv start)
    (hpending : x.pending = access :: rest) :
    Inv start { x.perform access with pending := rest } := by
  have htables := h.tables
  have hsafe := h.safe
  rw [hpending] at htables hsafe
  cases access with
  | write p v =>
    refine ⟨h.kernel, h.fresh, htables, hsafe.2, h.linked, h.user, ?_⟩
    refine h.upTo.change (fun cpu q => ?_) fun cpu q hdropped => ?_
    · by_cases hq : q = p
      · subst hq
        by_cases hkernel : firstPage ≤ q
        · rcases hsafe.1 with hzero | hdrop
          · exact .inr (.inl (by rw [current, if_pos hkernel, hzero]))
          · exact .inr (.inr (.inl ⟨hkernel, hdrop cpu⟩))
        · left
          simp only [Tlbs.perform, current, if_neg hkernel]
      · left
        simp only [Tlbs.perform, current, Function.update_of_ne hq]
    · refine hdropped.imp_left fun ⟨hkernel, hdrop⟩ => ⟨hkernel, ?_⟩
      rw [hpending] at hdrop
      exact (List.mem_cons.mp hdrop).resolve_left (by simp)
  | drop cpu p =>
    refine ⟨h.kernel, h.fresh, htables, hsafe, h.linked, h.user, ?_⟩
    refine UpTo.drop h.upTo fun cpu' q hdropped => ?_
    rcases hdropped with ⟨hkernel, hdrop⟩ | huser
    · rw [hpending] at hdrop
      rcases List.mem_cons.mp hdrop with heq | hdrop
      · obtain ⟨rfl, rfl⟩ := Access.drop.inj heq
        exact .inr ⟨rfl, rfl⟩
      · exact .inl (.inl ⟨hkernel, hdrop⟩)
    · exact .inl (.inr huser)

theorem Inv.fill (h : x.Inv start) {cpu : Fin cpus} {p : ℕ} (hp : (x.current cpu p).testBit 0) :
    Inv start { x with
      tlb := Function.update x.tlb cpu
        (Function.update (x.tlb cpu) p (some (x.current cpu p))) } := by
  refine ⟨h.kernel, h.fresh, h.tables, h.safe, h.linked, h.user, h.upTo.fill fun hzero => ?_⟩
  rw [hzero] at hp
  exact absurd hp (by decide)

theorem Inv.begin (h : x.Inv start) {call : UserCall} (hwritten : call.written = none)
    (hy : x.begin call = some y) : y.Inv start := by
  unfold Tlbs.begin at hy
  split_ifs at hy with htodo
  obtain rfl := Option.some.inj hy
  refine ⟨h.kernel, h.fresh, h.tables, h.safe, h.linked, fun c hc => ?_, ?_⟩
  · rcases List.mem_cons.mp hc with rfl | hc
    · exact ⟨htodo, by simp [hwritten]⟩
    · exact h.user c hc
  · refine h.upTo.change (fun cpu p => .inl rfl) fun cpu p hdropped => hdropped.imp_right ?_
    rintro ⟨c, hc, hrest⟩
    exact ⟨c, List.mem_cons_of_mem _ hc, hrest⟩

/-- What a map keeps when it is replaced, all maps keep. -/
theorem setMap_congr {α : Type} {map : ℕ} {u : UserMap cpus} (f : UserMap cpus → α)
    (hu : f u = f (x.maps map)) (map' : ℕ) : f ((x.setMap map u).maps map') = f (x.maps map') := by
  show f (Function.update x.maps map u map') = f (x.maps map')
  by_cases hmap : map' = map
  · subst hmap
    rw [Function.update_self, hu]
  · rw [Function.update_of_ne hmap]

/-- A user call writes an entry, whose translation it is to invalidate. -/
theorem Inv.write (h : x.Inv start) {call : UserCall} (hcall : call ∈ x.calls)
    (hy : x.write call = some y) : y.Inv start := by
  obtain ⟨map, todo, written⟩ := call
  cases todo with
  | nil => cases hy
  | cons w rest =>
    cases written with
    | some p => cases hy
    | none =>
      obtain ⟨p, e⟩ := w
      have hp : p < firstPage := (h.user _ hcall).1 (p, e) List.mem_cons_self
      obtain rfl := Option.some.inj hy
      refine ⟨h.kernel, h.fresh, h.tables, h.safe, fun cpu map' => ?_, fun c hc => ?_, ?_⟩
      · have hsame := @setMap_congr cpus x _ map
          ⟨(x.maps map).usingCpu, Function.update (x.maps map).entries p e⟩ UserMap.usingCpu rfl
          map'
        exact fun hloaded => hsame.trans (h.linked cpu map' hloaded)
      · rcases List.mem_cons.mp hc with rfl | hc
        · exact ⟨fun w hw => (h.user _ hcall).1 w (List.mem_cons_of_mem _ hw),
            fun q hq => Option.some.inj hq ▸ hp⟩
        · exact h.user c (List.mem_of_mem_erase hc)
      · refine h.upTo.change (fun cpu q => ?_) fun cpu q hdropped => ?_
        · by_cases hat : q = p ∧ x.loaded cpu = some map
          · obtain ⟨rfl, hloaded⟩ := hat
            exact .inr (.inr (.inr ⟨_, List.mem_cons_self, hloaded, rfl⟩))
          · left
            unfold current
            refine if_congr Iff.rfl rfl ?_
            show (x.loaded cpu).elim 0 _ = (x.loaded cpu).elim 0 _
            rcases hloaded : x.loaded cpu with _ | map'
            · rfl
            · simp only [Option.elim, setMap]
              by_cases hmap : map' = map
              · subst hmap
                have hq : q ≠ p := fun heq => hat ⟨heq, hloaded⟩
                rw [Function.update_self]
                exact Function.update_of_ne hq _ _
              · rw [Function.update_of_ne hmap]
        · refine hdropped.imp_right ?_
          rintro ⟨c, hc, hloaded, hwritten⟩
          have hne : c ≠ ⟨map, (p, e) :: rest, none⟩ := by
            rintro rfl
            cases hwritten
          exact ⟨c, List.mem_cons_of_mem _ ((List.mem_erase_of_ne hne).mpr hc), hloaded, hwritten⟩

/-- `Map::invlpg` invalidates on the CPU that has the map entered, where there is one. -/
theorem Inv.invlpg (h : x.Inv start) {call : UserCall} (hcall : call ∈ x.calls)
    (hy : x.invlpg call = some y) : y.Inv start := by
  obtain ⟨map, todo, written⟩ := call
  cases written with
  | none => cases hy
  | some p =>
    obtain rfl := Option.some.inj hy
    have hleft : ∀ c ∈ (if todo = [] then [] else [⟨map, todo, none⟩] : List UserCall),
        c = ⟨map, todo, none⟩ := by
      intro c hc
      split_ifs at hc
      · cases hc
      · exact List.mem_singleton.mp hc
    -- Of the calls, only this one is done with its page.
    have hkeep : ∀ cpu q, x.Dropped cpu q → Tlbs.Dropped { x with
        calls := (if todo = [] then [] else [⟨map, todo, none⟩]) ++
          x.calls.erase ⟨map, todo, some p⟩ } cpu q ∨ x.loaded cpu = some map ∧ q = p := by
      rintro cpu q (hkernel | ⟨c, hc, hloaded, hwritten⟩)
      · exact .inl (.inl hkernel)
      · by_cases hsame : c = ⟨map, todo, some p⟩
        · subst hsame
          exact .inr ⟨hloaded, (Option.some.inj hwritten).symm⟩
        · exact .inl (.inr ⟨c, List.mem_append_right _ ((List.mem_erase_of_ne hsame).mpr hc),
            hloaded, hwritten⟩)
    refine ⟨h.kernel, h.fresh, h.tables, h.safe, h.linked, fun c hc => ?_, ?_⟩
    · rcases List.mem_append.mp hc with hc | hc
      · obtain rfl := hleft c hc
        exact ⟨(h.user _ hcall).1, by simp⟩
      · exact h.user c (List.mem_of_mem_erase hc)
    · rcases husing : (x.maps map).usingCpu with _ | cpu₀
      · refine h.upTo.change (fun cpu q => .inl rfl) fun cpu q hdropped => ?_
        refine (hkeep cpu q hdropped).resolve_right fun ⟨hloaded, _⟩ => ?_
        cases husing.symm.trans (h.linked cpu map hloaded)
      · refine UpTo.drop h.upTo fun cpu q hdropped => (hkeep cpu q hdropped).imp_right ?_
        rintro ⟨hloaded, rfl⟩
        exact ⟨(Option.some.inj (husing.symm.trans (h.linked cpu map hloaded))).symm, rfl⟩

/-- CR3 is loaded on a CPU, and a map gets or loses it. -/
theorem Inv.load (h : x.Inv start) {cpu : Fin cpus} {map : ℕ} {using' : Option (Fin cpus)}
    {m : Option ℕ}
    (hlinked : ∀ cpu' map', Function.update x.loaded cpu m cpu' = some map' →
      (Function.update x.maps map ⟨using', (x.maps map).entries⟩ map').usingCpu = some cpu') :
    Inv start ((x.setMap map ⟨using', (x.maps map).entries⟩).load cpu m) := by
  refine ⟨h.kernel, h.fresh, h.tables, h.safe, hlinked, h.user, ?_⟩
  refine UpTo.flush h.upTo (fun cpu' hne => ?_) fun cpu' hne p hdropped => ?_
  · funext p
    unfold current
    refine if_congr Iff.rfl rfl ?_
    show (Function.update x.loaded cpu m cpu').elim 0 _ = _
    rw [Function.update_of_ne hne]
    rcases x.loaded cpu' with _ | map'
    · rfl
    · have hsame := @setMap_congr cpus x (ℕ → ℕ) map ⟨using', (x.maps map).entries⟩
        UserMap.entries rfl map'
      exact congrFun hsame p
  · refine hdropped.imp_right ?_
    rintro ⟨c, hc, hloaded, hwritten⟩
    refine ⟨c, hc, ?_, hwritten⟩
    show Function.update x.loaded cpu m cpu' = _
    rw [Function.update_of_ne hne, hloaded]

/-- A CPU loads or leaves a map that no other CPU has loaded. -/
theorem linked_load {cpu : Fin cpus} {map : ℕ} {using' : Option (Fin cpus)} {m : Option ℕ}
    (hlinked : ∀ cpu map, x.loaded cpu = some map → (x.maps map).usingCpu = some cpu)
    (hother : ∀ cpu', x.loaded cpu' = some map → cpu' = cpu)
    (hnew : ∀ map' ∈ m, map' = map ∧ using' = some cpu) (cpu' : Fin cpus) (map' : ℕ)
    (h : Function.update x.loaded cpu m cpu' = some map') :
    (Function.update x.maps map ⟨using', (x.maps map).entries⟩ map').usingCpu = some cpu' := by
  by_cases hcpu : cpu' = cpu
  · subst hcpu
    rw [Function.update_self] at h
    obtain ⟨rfl, husing⟩ := hnew map' h
    rw [Function.update_self, husing]
  · rw [Function.update_of_ne hcpu] at h
    have hmap : map' ≠ map := fun heq => hcpu (hother cpu' (heq ▸ h))
    rw [Function.update_of_ne hmap]
    exact hlinked cpu' map' h

theorem Inv.enter (h : x.Inv start) {cpu : Fin cpus} {map : ℕ}
    (hfree : (x.maps map).usingCpu = none) :
    Inv start ((x.setMap map ⟨some cpu, (x.maps map).entries⟩).load cpu (some map)) := by
  refine h.load (linked_load h.linked (fun cpu' hloaded => ?_) (by simp))
  cases hfree.symm.trans (h.linked cpu' map hloaded)

theorem Inv.exit (h : x.Inv start) {cpu : Fin cpus} {map : ℕ}
    (hown : ∀ cpu', x.loaded cpu' = some map → cpu' = cpu) :
    Inv start ((x.setMap map ⟨none, (x.maps map).entries⟩).load cpu none) :=
  h.load (linked_load h.linked hown (by simp))

/-- One move. -/
theorem Inv.step (h : x.Inv start) (hquiet : x.Undisturbed m) (hstep : x.step m = some y) :
    y.Inv start := by
  cases m with
  | install cpu m =>
    simp only [Tlbs.step] at hstep
    split_ifs at hstep with hpending
    obtain ⟨kernel, hkernel, rfl⟩ := Option.map_eq_some_iff.mp hstep
    exact h.section hpending (h.kernel.step_inv hquiet hkernel)
      (h.kernel.sectioned h.fresh hquiet hkernel)
  | access =>
    simp only [Tlbs.step] at hstep
    split at hstep
    next => cases hstep
    next access rest hpending =>
      obtain rfl := Option.some.inj hstep
      exact h.perform hpending
  | fill cpu p =>
    simp only [Tlbs.step] at hstep
    split_ifs at hstep with hpresent
    obtain rfl := Option.some.inj hstep
    exact h.fill hpresent
  | insert map chain addr flags min max => exact h.begin rfl hstep
  | clear map addr pages => exact h.begin rfl hstep
  | write call =>
    simp only [Tlbs.step] at hstep
    split_ifs at hstep with hcall
    exact h.write hcall hstep
  | invlpg call =>
    simp only [Tlbs.step] at hstep
    split_ifs at hstep with hcall
    exact h.invlpg hcall hstep
  | enter cpu map =>
    simp only [Tlbs.step] at hstep
    split_ifs at hstep with hguard
    obtain rfl := Option.some.inj hstep
    exact h.enter hguard
  | exit cpu map =>
    obtain rfl := Option.some.inj hstep
    exact h.exit hquiet

/-! ## Runs -/

open Steps (Along run)

variable {memTable : List Entry} {vmEnd : ℕ} {s : Mem} {ms : List (TlbMove cpus)}

/-- The page tables behind the cursor are empty after `kmem::init`. -/
theorem fresh_init (h : (Kmem.init vmEnd).Returns (bootMem memTable) () s) : s.Fresh := by
  obtain ⟨_, s₁, hinit, hbody⟩ := returns_bind.mp h
  obtain ⟨pagePointer, map, cursor, hs₁, -⟩ := pageInit_returns hinit
  obtain ⟨initial, s₂, hbump, hbody⟩ := returns_bind.mp hbody
  obtain ⟨memBase, s₃, happ, hwrite⟩ := returns_bind.mp hbody
  have hmutex : s₁.mutex = false := by
    rw [hs₁]
    rfl
  have htable : s₁.page.table = fun _ => 0 := by
    rw [hs₁]
    rfl
  obtain ⟨pageId, pointer, map, rfl⟩ := (allocNokmalloc_returns (.inr hmutex) hbump).state
  obtain ⟨-, hsame⟩ := appendSection_kept happ
  split_ifs at hwrite with hnull
  · exact absurd hwrite returns_stop
  obtain rfl := returns_modify.mp hwrite
  intro e he
  exact (hsame e (.inr he)).trans (congrFun htable e)

theorem start_inv (hinit : (Kmem.init vmEnd).Returns (bootMem memTable) () s) (ha : Aligned vmEnd) :
    Inv (tableIndex vmEnd) (Tlbs.start cpus s) := by
  obtain ⟨hmem, hmutex, -, hsound⟩ := Space.init_inv hinit ha
  refine ⟨⟨hmem, hmutex, by simp [Tlbs.start], hsound⟩, fresh_init hinit, rfl, trivial,
    fun cpu map => by simp [Tlbs.start], by simp [Tlbs.start], fun cpu p v hv => by cases hv⟩

open Space (runOf)

end Tlbs

end Cantos
