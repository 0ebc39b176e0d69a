import Cantos.Smp.Machine

/-!
# The holder of the memory lock

`kmalloc`, `kfree`, `alloc`, `kinstall` and `kuninstall` disable the interrupts before they
take `kmem::mutex`; `create`, `free`, `used` and `kinstall_append` take it as it is.  As long
as these are called with the interrupts off, the thread that holds the lock is never switched
out.

## Main definitions

* `Smp.Threads`, `Smp.Threads.step`: threads that make calls, and the CPUs they run on.
* `Smp.Threads.HolderRuns`: the holder of the lock runs, with the interrupts off.
* `Smp.Call.disables`: the call takes the lock only with the interrupts off.
-/

namespace Cantos.Smp

open Steps

/-- Threads, each with its own call. -/
structure Threads where
  smp : Smp
  /-- The thread a CPU runs. -/
  current : ℕ → Option ℕ
  /-- The CPU a thread runs on. -/
  running : ℕ → Option ℕ

namespace Threads

/-- The moves of a CPU. -/
inductive Move
  | call (c : ℕ) (f : Call)
  /-- The thread sets or clears the interrupt flag, between two calls. -/
  | interrupts (c : ℕ) (on : Bool)
  /-- The thread goes on with its call. -/
  | exec (c : ℕ)
  /-- The interrupt of a command. -/
  | command (c : ℕ)
  /-- A timer interrupt, or `task_yield` in `Mutex::lock`: the thread is switched out. -/
  | tick (c : ℕ)
  /-- `task_enter` -/
  | enter (c t : ℕ)
  deriving DecidableEq, Repr

/-- One move. -/
def step (s : Threads) : Move → Option Threads
  | .call c f =>
      match s.current c with
      | none => none
      | some t =>
          if (s.smp.proc t).code = [] then some { s with smp := s.smp.setCode t f.ops } else none
  | .interrupts c on =>
      match s.current c with
      | none => none
      | some t =>
          if (s.smp.proc t).code = [] then
            some { s with smp := s.smp.setFlags t on (s.smp.proc t).flags [] }
          else none
  | .exec c =>
      match s.current c with
      | none => none
      | some t => (s.smp.exec t c).map fun smp => { s with smp := smp }
  | .command c =>
      match s.current c with
      | none => if s.smp.pending c then some { s with smp := s.smp.handleCommand c } else none
      | some t =>
          if s.smp.pending c ∧ (s.smp.proc t).interrupts then
            some { s with smp := s.smp.handleCommand c }
          else none
  | .tick c =>
      match s.current c with
      | none => none
      | some t =>
          if (s.smp.proc t).interrupts then
            some { s with
              current := Function.update s.current c none
              running := Function.update s.running t none }
          else none
  | .enter c t =>
      if s.current c = none ∧ s.running t = none then
        some { s with
          current := Function.update s.current c (some t)
          running := Function.update s.running t (some c) }
      else none

/-- The thread that holds `kmem::mutex` is running, and its CPU takes no interrupts. -/
def HolderRuns (s : Threads) : Prop :=
  ∀ t, s.smp.holder .kmem = some t → ∃ c, s.current c = some t ∧ (s.smp.proc t).interrupts = false

end Threads

/-- The call takes `kmem::mutex` only with the interrupts off, when it is made with them on. -/
def Call.disables : Call → Bool
  | .create _ => false
  | .free entries => entries = []
  | .used entries => entries = 0
  | .kinstallAppend runs | .kinstallEnd runs => runs = 0
  | .insert _ pages => pages.all fun table =>
      match table with
      | some (_, none) => false
      | _ => true
  | _ => true

/-- A call that takes the lock as it is, is made with the interrupts off. -/
def Threads.keepsOff (s : Threads) : Move → Bool
  | .call c f =>
      f.disables || match s.current c with
        | none => true
        | some t => !(s.smp.proc t).interrupts
  | _ => true

/-- The code takes and gives the lock with the interrupts off, when it starts with this flag,
these pushed flags, and with the lock or without. -/
@[simp] def Guarded : Bool → List Bool → Bool → List Op → Prop
  | _, flags, held, [] => held = false ∧ flags = []
  | i, flags, held, .pushCli :: code => Guarded false (i :: flags) held code
  | _, [], _, .popFlags :: _ => True
  | _, i :: flags, held, .popFlags :: code => (held → i = false) ∧ Guarded i flags held code
  -- Who holds the lock waits for it forever.
  | i, flags, held, .lock .kmem :: code => held ∨ i = false ∧ Guarded i flags true code
  | i, flags, held, .unlock .kmem :: code => held ∧ Guarded i flags false code
  | i, flags, held, .lock .vm :: code | i, flags, held, .lock .command :: code
  | i, flags, held, .unlock .vm :: code | i, flags, held, .unlock .command :: code
  | i, flags, held, .commandAll :: code | i, flags, held, .send _ :: code
  | i, flags, held, .wait _ :: code | i, flags, held, .check _ :: code
  | i, flags, held, .enter _ :: code | i, flags, held, .exit _ :: code => Guarded i flags held code

section Guarded
variable {i held : Bool} {flags : List Bool} {code : List Op}

theorem guarded_sendCommand {proc : ℕ} :
    Guarded i flags held (sendCommand proc ++ code) ↔ Guarded i flags held code := by
  simp [sendCommand, Guarded]

theorem guarded_sendCommands {procs : List ℕ} :
    Guarded i flags held (procs.flatMap sendCommand ++ code) ↔ Guarded i flags held code := by
  induction procs with
  | nil => rfl
  | cons proc procs ih =>
    rw [List.flatMap_cons, List.append_assoc, guarded_sendCommand, ih]

/-- With the lock, the entries behind the first wait forever. -/
theorem guarded_grow (growths : List ℕ) (h : Guarded false flags true code) :
    Guarded false flags true (grow growths ++ code) := by
  induction growths with
  | nil => exact h
  | cons runs growths ih =>
    rw [grow, List.flatMap_cons, List.append_assoc]
    match runs with
    | 0 | 1 => simpa [kinstallAppend, grow] using ih
    | runs + 2 => simp [kinstallAppend, Guarded]

theorem guarded_sendCommandAlls (n : ℕ) (h : Guarded false flags true code) :
    Guarded false flags true ((List.replicate n sendCommandAll).flatten ++ code) := by
  induction n with
  | zero => exact h
  | succ n ih => simpa [List.replicate_succ, sendCommandAll, Guarded] using ih

/-- Code between `push_cli`, `lock` and `unlock`, `pop_flags`. -/
theorem guarded_locked {body : List Op}
    (hbody : ∀ code, Guarded false (i :: flags) true code →
      Guarded false (i :: flags) true (body ++ code))
    (h : Guarded i flags false code) :
    Guarded i flags false (locked body ++ code) := by
  simp only [locked, List.append_assoc, List.cons_append, List.nil_append, Guarded]
  exact .inr ⟨trivial, hbody _ ⟨rfl, by simp, h⟩⟩

theorem guarded_kmalloc (growths : List ℕ) (h : Guarded i flags false code) :
    Guarded i flags false (Smp.kmalloc growths ++ code) :=
  guarded_locked (fun _ => guarded_grow growths) h

theorem guarded_create (growths : List ℕ) (h : Guarded false flags false code) :
    Guarded false flags false (Smp.create growths ++ code) := by
  simp only [Smp.create, List.append_assoc, List.cons_append, List.nil_append, Guarded]
  exact .inr ⟨trivial, guarded_grow growths ⟨rfl, h⟩⟩

theorem guarded_free (entries : List (List ℕ)) (h : Guarded false flags false code) :
    Guarded false flags false (Smp.free entries ++ code) := by
  induction entries with
  | nil => exact h
  | cons growths entries ih =>
    rw [Smp.free, List.flatMap_cons, List.append_assoc]
    exact guarded_create growths ih

theorem guarded_used (entries : ℕ) (h : Guarded false flags false code) :
    Guarded false flags false (Smp.used entries ++ code) := by
  induction entries with
  | zero => exact h
  | succ entries ih =>
    rw [Smp.used, List.replicate_succ, List.flatten_cons, List.append_assoc]
    exact guarded_create [] ih

theorem guarded_kinstallAppend (runs : ℕ) (h : Guarded false flags false code) :
    Guarded false flags false (Smp.kinstallAppend true runs ++ code) := by
  induction runs with
  | zero => exact h
  | succ runs ih => simpa [Smp.kinstallAppend, Guarded] using ih

theorem guarded_alloc (runs : List (List ℕ)) (h : Guarded i flags false code) :
    Guarded i flags false (Smp.alloc runs ++ code) := by
  cases runs with
  | nil => exact h
  | cons growths runs =>
    rw [Smp.alloc]
    refine guarded_locked (fun code' h' => ?_) h
    rw [List.append_assoc]
    apply guarded_grow
    cases runs with
    | nil => exact h'
    | cons growths runs => simp [Smp.alloc, locked, Guarded]

theorem guarded_kinstallSlot (growths : List ℕ) (writes : ℕ) (h : Guarded i flags false code) :
    Guarded i flags false (Smp.kinstallSlot growths writes ++ code) := by
  rw [Smp.kinstallSlot]
  refine guarded_locked (fun code' h' => ?_) h
  rw [List.append_assoc]
  exact guarded_grow growths (guarded_sendCommandAlls writes h')

theorem guarded_kuninstall (entries : List (List ℕ × ℕ × List ℕ))
    (h : Guarded i flags false code) : Guarded i flags false (Smp.kuninstall entries ++ code) := by
  induction entries with
  | nil => exact h
  | cons entry entries ih =>
    rw [Smp.kuninstall, List.flatMap_cons, List.append_assoc]
    refine guarded_locked (fun code' h' => ?_) ih
    simp only [List.append_assoc]
    exact guarded_grow _ (guarded_sendCommandAlls _ (guarded_grow _ h'))

theorem guarded_mapInvlpg (map : ℕ) (h : Guarded i flags false code) :
    Guarded i flags false (mapInvlpg map ++ code) := by
  simpa [mapInvlpg, Guarded] using h

theorem guarded_clear (map pages : ℕ) (h : Guarded i flags false code) :
    Guarded i flags false (Smp.clear map pages ++ code) := by
  induction pages with
  | zero => exact h
  | succ pages ih =>
    rw [Smp.clear, List.replicate_succ, List.flatten_cons, List.append_assoc]
    exact guarded_mapInvlpg map ih

theorem guarded_newTable (growths : List ℕ) (slot : Option (List ℕ))
    (hslot : slot.isSome ∨ i = false) (h : Guarded i flags false code) :
    Guarded i flags false (newTable growths slot ++ code) := by
  cases slot with
  | some growths' =>
    rw [newTable, List.append_assoc]
    exact guarded_alloc _ (guarded_kinstallSlot growths' 1 h)
  | none =>
    have hoff : i = false := by simpa using hslot
    subst hoff
    rw [newTable, List.append_assoc, Smp.kinstallEnd, List.append_assoc]
    exact guarded_alloc _ (guarded_kmalloc [] (guarded_kinstallAppend 1 h))

theorem guarded_insert (map : ℕ) (pages : List (Option (List ℕ × Option (List ℕ))))
    (hpages : (Call.insert map pages).disables ∨ i = false) (h : Guarded i flags false code) :
    Guarded i flags false (Smp.insert map pages ++ code) := by
  induction pages with
  | nil => exact h
  | cons table pages ih =>
    rw [Smp.insert, List.flatMap_cons, List.append_assoc, List.append_assoc]
    have hrest : (Call.insert map pages).disables ∨ i = false := by
      apply hpages.imp_left
      simp +contextual [Call.disables]
    have hinvlpg := guarded_mapInvlpg map (ih hrest)
    match table with
    | none => exact hinvlpg
    | some (growths, slot) =>
      apply guarded_newTable growths slot _ hinvlpg
      apply hpages.imp_left
      cases slot <;> simp [Call.disables]

/-- The calls of the claim's interface, and those of the maps. -/
theorem Call.guarded (f : Call) (h : f.disables ∨ i = false) : Guarded i [] false f.ops := by
  rw [← List.append_nil f.ops]
  have hnil : Guarded i [] false [] := ⟨rfl, rfl⟩
  cases f with
  | kmalloc growths | kfree growths => exact guarded_kmalloc growths hnil
  | alloc runs => exact guarded_alloc runs hnil
  | kinstallSlot growths writes => exact guarded_kinstallSlot growths writes hnil
  | kuninstall entries => exact guarded_kuninstall entries hnil
  | insert map pages => exact guarded_insert map pages h hnil
  | clear map pages => exact guarded_clear map pages hnil
  | enter map | exit map => simp [Call.ops, Guarded]
  | create growths =>
    obtain rfl : i = false := by simpa [Call.disables] using h
    exact guarded_create growths hnil
  | free entries =>
    simp only [Call.disables, decide_eq_true_eq] at h
    rcases h with rfl | rfl
    · exact hnil
    · exact guarded_free entries hnil
  | used entries =>
    simp only [Call.disables, decide_eq_true_eq] at h
    rcases h with rfl | rfl
    · exact hnil
    · exact guarded_used entries hnil
  | kinstallAppend runs =>
    simp only [Call.disables, decide_eq_true_eq] at h
    rcases h with rfl | rfl
    · exact hnil
    · exact guarded_kinstallAppend runs hnil
  | kinstallEnd runs =>
    simp only [Call.disables, decide_eq_true_eq] at h
    show Guarded i [] false (Smp.kmalloc [] ++ Smp.kinstallAppend true runs ++ [])
    rw [List.append_assoc]
    apply guarded_kmalloc
    rcases h with rfl | rfl
    · exact hnil
    · exact guarded_kinstallAppend runs hnil

end Guarded

namespace Threads

/-- The invariant. -/
structure Off (s : Threads) : Prop where
  guarded : ∀ t, Guarded (s.smp.proc t).interrupts (s.smp.proc t).flags
    (s.smp.holder .kmem = some t) (s.smp.proc t).code
  holder : s.HolderRuns

section Invariant
variable {s s' : Threads} {c t : ℕ} {op : Op} {code : List Op} {smp : Smp}

/-- A step of one thread keeps what is known of the others. -/
theorem Off.update (h : Off s) (ht : s.current c = some t)
    (hproc : ∀ t' ≠ t, smp.proc t' = s.smp.proc t')
    (hholder : ∀ t' ≠ t, (smp.holder .kmem = some t' ↔ s.smp.holder .kmem = some t'))
    (hguarded : Guarded (smp.proc t).interrupts (smp.proc t).flags
      (smp.holder .kmem = some t) (smp.proc t).code)
    (hoff : smp.holder .kmem = some t → (smp.proc t).interrupts = false) :
    Off { s with smp := smp } where
  guarded t' := by
    by_cases heq : t' = t
    · subst heq
      exact hguarded
    · simpa only [hproc t' heq, hholder t' heq] using h.guarded t'
  holder t' hl := by
    by_cases heq : t' = t
    · subst heq
      exact ⟨c, ht, hoff hl⟩
    · simpa only [hproc t' heq] using h.holder t' ((hholder t' heq).mp hl)

/-- An operation that leaves the lock and the flag as they are. -/
theorem Off.setCode (h : Off s) (ht : s.current c = some t)
    (hproc : smp.proc = (s.smp.setCode t code).proc)
    (hholder : smp.holder .kmem = s.smp.holder .kmem)
    (hguarded : Guarded (s.smp.proc t).interrupts (s.smp.proc t).flags
      (s.smp.holder .kmem = some t) code) : Off { s with smp := smp } := by
  have hsame : smp.proc t = { s.smp.proc t with code := code } := by
    simp [hproc, Smp.setCode]
  apply h.update ht
  · intro t' hne
    simp [hproc, Smp.setCode, hne]
  · simp [hholder]
  · simpa only [hsame, hholder] using hguarded
  · intro hl
    obtain ⟨-, -, hi⟩ := h.holder t (hholder ▸ hl)
    rw [hsame]
    exact hi

/-- An operation that changes the flag. -/
theorem Off.setFlags {i : Bool} {flags : List Bool} (h : Off s) (ht : s.current c = some t)
    (hguarded : Guarded i flags (s.smp.holder .kmem = some t) code)
    (hoff : s.smp.holder .kmem = some t → i = false) :
    Off { s with smp := s.smp.setFlags t i flags code } := by
  have hproc : (s.smp.setFlags t i flags code).proc t = ⟨i, flags, code⟩ := by
    simp [Smp.setFlags]
  apply h.update ht
  · intro t' hne
    simp [Smp.setFlags, hne]
  · exact fun t' _ => Iff.rfl
  · rw [hproc]
    exact hguarded
  · rw [hproc]
    exact hoff

theorem Off.execOp (h : Off s) (ht : s.current c = some t) (hcode : (s.smp.proc t).code = op :: code)
    (hsmp : s.smp.execOp t c op code = some smp) : Off { s with smp := smp } := by
  have hg := h.guarded t
  rw [hcode] at hg
  cases op with
  | pushCli =>
    cases hsmp
    exact h.setFlags ht hg (fun _ => rfl)
  | popFlags =>
    simp only [Smp.execOp] at hsmp
    split at hsmp
    next => cases hsmp
    next i flags hflags =>
      cases hsmp
      rw [hflags] at hg
      exact h.setFlags ht hg.2 (by simpa using hg.1)
  | lock m =>
    simp only [Smp.execOp] at hsmp
    split_ifs at hsmp with hfree
    · cases hsmp
      rw [Option.isNone_iff_eq_none] at hfree
      cases m with
      | vm | command => exact h.setCode ht rfl rfl hg
      | kmem =>
        have hlock : (s.smp.proc t).interrupts = false ∧
            Guarded (s.smp.proc t).interrupts (s.smp.proc t).flags true code := by
          simpa [Guarded, hfree] using hg
        apply h.update ht
        · intro t' hne
          simp [Smp.setCode, setHolder, hne]
        · intro t' hne
          simp [Smp.setCode, setHolder, hfree, hne.symm]
        · simpa [Smp.setCode, setHolder] using hlock.2
        · simpa [Smp.setCode, setHolder] using hlock.1
    · cases hsmp
      exact h
  | unlock m =>
    cases hsmp
    cases m with
    | vm | command => exact h.setCode ht rfl rfl hg
    | kmem =>
      have hheld : s.smp.holder .kmem = some t := by simpa using hg.1
      apply h.update ht
      · intro t' hne
        simp [Smp.setCode, setHolder, hne]
      · intro t' hne
        simp [Smp.setCode, setHolder, hheld, hne.symm]
      · simpa [Smp.setCode, setHolder] using hg.2
      · simp [Smp.setCode, setHolder]
  | commandAll =>
    cases hsmp
    exact h.setCode ht rfl rfl (guarded_sendCommands.mpr hg)
  | check map =>
    simp only [Smp.execOp] at hsmp
    split at hsmp
    next => cases hsmp; exact h.setCode ht rfl rfl hg
    next proc hproc =>
      cases hsmp
      apply h.setCode ht rfl rfl
      split_ifs
      · exact hg
      · exact guarded_sendCommand.mpr hg
  | wait proc | enter map =>
    simp only [Smp.execOp] at hsmp
    split_ifs at hsmp
    all_goals cases hsmp
    all_goals first | exact h | exact h.setCode ht rfl rfl hg
  | send proc | exit map =>
    cases hsmp
    exact h.setCode ht rfl rfl hg

/-- One move. -/
theorem Off.step {m : Move} (h : Off s) (hm : s.keepsOff m) (hs' : s.step m = some s') : Off s' := by
  cases m with
  | call c f =>
    simp only [Threads.step] at hs'
    split at hs'
    next => cases hs'
    next t ht =>
      split_ifs at hs' with hcode
      cases hs'
      have hg := h.guarded t
      rw [hcode] at hg
      obtain ⟨hheld, hflags⟩ := hg
      apply h.setCode ht rfl rfl
      rw [hheld, hflags]
      apply f.guarded
      simpa [keepsOff, ht] using hm
  | interrupts c on =>
    simp only [Threads.step] at hs'
    split at hs'
    next => cases hs'
    next t ht =>
      split_ifs at hs' with hcode
      cases hs'
      have hg := h.guarded t
      rw [hcode] at hg
      exact h.setFlags ht hg fun hl => absurd hl (of_decide_eq_false hg.1)
  | exec c =>
    simp only [Threads.step] at hs'
    split at hs'
    next => cases hs'
    next t ht =>
      obtain ⟨smp, hsmp, rfl⟩ := Option.map_eq_some_iff.mp hs'
      rw [Smp.exec] at hsmp
      split at hsmp
      next => cases hsmp
      next op code hcode => exact h.execOp ht hcode hsmp
  | command c =>
    have hsame : Off { s with smp := s.smp.handleCommand c } := ⟨h.guarded, h.holder⟩
    simp only [Threads.step] at hs'
    split at hs' <;> split_ifs at hs' <;> cases hs' <;> exact hsame
  | tick c =>
    simp only [Threads.step] at hs'
    split at hs'
    next => cases hs'
    next t ht =>
      split_ifs at hs' with hi
      cases hs'
      refine ⟨h.guarded, fun t' hl => ?_⟩
      obtain ⟨c', hc', hoff⟩ := h.holder t' hl
      have hne : c' ≠ c := by
        rintro rfl
        obtain rfl : t = t' := by simpa [ht] using hc'
        simp [hoff] at hi
      exact ⟨c', by simpa [Function.update_of_ne hne] using hc', hoff⟩
  | enter c t =>
    simp only [Threads.step] at hs'
    split_ifs at hs' with hfree
    cases hs'
    refine ⟨h.guarded, fun t' hl => ?_⟩
    obtain ⟨c', hc', hoff⟩ := h.holder t' hl
    have hne : c' ≠ c := by
      rintro rfl
      simp [hfree.1] at hc'
    exact ⟨c', by simpa [Function.update_of_ne hne] using hc', hoff⟩

end Invariant

/-- No thread has been entered. -/
structure Boots (s : Threads) : Prop where
  rests : s.smp.Rests
  current : ∀ c, s.current c = none
  running : ∀ t, s.running t = none

theorem Boots.off {s : Threads} (h : Boots s) : Off s where
  guarded t := by
    rw [h.rests.code t, h.rests.flags t]
    simp [Guarded, h.rests.holder .kmem]
  holder t hl := by simp [h.rests.holder .kmem] at hl

/-- In every run in which the calls that take the lock as it is are made with the interrupts
off, the holder of the lock is running, and with the interrupts off. -/
theorem holderRuns_run {s s' : Threads} {ms : List Move} (h : Boots s)
    (hms : Along step (keepsOff · ·) s ms) (hrun : run step s ms = some s') : HolderRuns s' :=
  (invariant (fun _ _ _ => Off.step) h.off hms hrun).holder

def boot : Threads where
  smp := rest 2
  current _ := none
  running _ := none

theorem boot_boots : boot.Boots where
  rests := rest_rests 2
  current _ := rfl
  running _ := rfl

/-- A thread allocates, and disables the interrupts to make an entry. -/
def createMoves : List Move :=
  .enter 0 7 :: .call 0 (.kmalloc [1]) :: List.replicate 4 (.exec 0) ++
    [.interrupts 0 false, .call 0 (.create []), .exec 0]

theorem holderRuns_create : ∃ s', run step boot createMoves = some s' ∧ HolderRuns s' := by
  have hrun : (run step boot createMoves).isSome := by decide
  obtain ⟨s', hs'⟩ := Option.isSome_iff_exists.mp hrun
  exact ⟨s', hs', holderRuns_run boot_boots (by decide) hs'⟩

/-- A timer interrupt comes in while a thread holds the lock in `free`. -/
def freeMoves : List Move := [.enter 0 7, .call 0 (.free [[]]), .exec 0, .tick 0]

theorem not_holderRuns_free : ¬ ∀ ms s', run step boot ms = some s' → HolderRuns s' := by
  intro h
  have hrun : ∃ s' ∈ run step boot freeMoves, s'.smp.holder .kmem = some 7 ∧
      (s'.smp.proc 7).interrupts = true := by
    decide
  obtain ⟨s', hs', hholder, hi⟩ := hrun
  obtain ⟨c, -, hoff⟩ := h freeMoves s' hs' 7 hholder
  simp [hi] at hoff

end Threads

end Cantos.Smp
