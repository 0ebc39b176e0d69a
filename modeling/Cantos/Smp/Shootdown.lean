import Cantos.Smp.Machine

/-!
# Commands to other CPUs

`send_command` waits, with the locks of its caller, until the other CPU has taken an
interrupt.  A CPU that waits for one of these locks with its interrupts off never takes it.
This happens when a command is sent to a CPU that is in such a section, or when a CPU starts
one before it has taken the command; when neither happens, no CPU waits for a CPU that
waits for it.

## Main definitions

* `Smp.NoCycle`: no CPU waits for one that waits with its interrupts off.
* `Proc.takes`: the locks that are taken before the interrupts are on again.
* `Smp.keepsAway`: the moves that bring no CPU between a command and a lock of its sender.
-/

namespace Cantos.Smp

open Steps

/-- The moves of a CPU. -/
inductive Move
  | call (c : ℕ) (f : Call)
  /-- The CPU sets or clears the interrupt flag, between two calls. -/
  | interrupts (c : ℕ) (on : Bool)
  | exec (c : ℕ)
  /-- The interrupt of a command. -/
  | command (c : ℕ)
  deriving DecidableEq, Repr

/-- One move; CPU `c` executes `proc c`. -/
def step (s : Smp) : Move → Option Smp
  | .call c f =>
      if (s.proc c).code = [] then some (s.setFlags c (s.proc c).interrupts [] f.ops) else none
  | .interrupts c on => if (s.proc c).code = [] then some (s.setFlags c on [] []) else none
  | .exec c => s.exec c c
  | .command c =>
      if s.pending c ∧ (s.proc c).interrupts then some (s.handleCommand c) else none

/-- CPU `c` is in the loop of `send_command`, and `p` has not finished. -/
def Waits (s : Smp) (c p : ℕ) : Prop :=
  (∃ code, (s.proc c).code = .wait p :: code) ∧ s.commandFinished p = false

/-- CPU `p` waits with its interrupts off for a lock of `c`, or for a command of its own. -/
def Spins (s : Smp) (c p : ℕ) : Prop :=
  (s.proc p).interrupts = false ∧
    ((∃ m code, (s.proc p).code = .lock m :: code ∧ s.holder m = some c) ∨ ∃ q, s.Waits p q)

/-- No CPU waits for one that waits with its interrupts off. -/
def NoCycle (s : Smp) : Prop := ∀ c p, s.Waits c p → ¬ s.Spins c p

/-- Before the interrupts are on again, the code takes one of the locks, or sends a command. -/
def takes (held : Mutex → Bool) : List Bool → List Op → Bool
  | _, [] => false
  | flags, .pushCli :: code => takes held (false :: flags) code
  | false :: flags, .popFlags :: code => takes held flags code
  | _, .popFlags :: _ => false
  | flags, .lock m :: code => held m || takes held flags code
  | _, .commandAll :: _ | _, .send _ :: _ | _, .wait _ :: _ => true
  | flags, .unlock _ :: code | flags, .check _ :: code | flags, .enter _ :: code
  | flags, .exit _ :: code => takes held flags code

/-- The locks of a CPU. -/
def heldBy (s : Smp) (c : ℕ) (m : Mutex) : Bool := s.holder m = some c

/-- Some CPU waits for `c`, and this holds of it. -/
def forSender (s : Smp) (c : ℕ) (f : ℕ → Bool) : Bool :=
  match s.holder .command with
  | none => true
  | some sender =>
      match (s.proc sender).code with
      | .wait p :: _ => p ≠ c || s.commandFinished p || f sender
      | _ => true

/-- A command is sent to no CPU that takes a lock of the sender, or sends a command itself,
before its interrupts are on again; and a CPU that has not taken its command starts no such
section. -/
def keepsAway (s : Smp) : Move → Bool
  | .call c f =>
      (s.proc c).interrupts ||
        s.forSender c fun sender => !takes (s.heldBy sender) [] f.ops
  | .exec c =>
      match (s.proc c).code with
      | .send p :: _ =>
          (s.proc p).interrupts || !takes (s.heldBy c) (s.proc p).flags (s.proc p).code
      | .pushCli :: code =>
          s.forSender c fun sender =>
            !takes (s.heldBy sender) ((s.proc c).interrupts :: (s.proc c).flags) code
      -- `Map::invlpg` is about to send a command.
      | .check map :: _ =>
          s.forSender c fun _ => s.usingCpu map = none || s.usingCpu map = some c
      | _ => true
  | _ => true

/-- The operations a call is made of. -/
def Op.plain : Op → Bool
  | .lock .command | .unlock .command | .send _ | .wait _ => false
  | _ => true

/-- Code with the lock of the commands, or without; it is taken for one command at a time. -/
inductive Shape : Bool → List Op → Prop
  | nil : Shape false []
  | plain {op : Op} {code : List Op} (hop : op.plain) (h : Shape false code) :
      Shape false (op :: code)
  | lock {proc : ℕ} {code : List Op} (h : Shape false code) :
      Shape false (.lock .command :: .send proc :: .wait proc :: .unlock .command :: code)
  | send {proc : ℕ} {code : List Op} (h : Shape false code) :
      Shape true (.send proc :: .wait proc :: .unlock .command :: code)
  | wait {proc : ℕ} {code : List Op} (h : Shape false code) :
      Shape true (.wait proc :: .unlock .command :: code)
  | unlock {code : List Op} (h : Shape false code) : Shape true (.unlock .command :: code)

theorem Shape.append {xs code : List Op} (hxs : xs.all Op.plain) (h : Shape false code) :
    Shape false (xs ++ code) := by
  induction xs with
  | nil => exact h
  | cons op xs ih =>
    rw [List.all_cons, Bool.and_eq_true] at hxs
    exact .plain hxs.1 (ih hxs.2)

theorem Shape.sendCommands {code : List Op} (procs : List ℕ) (h : Shape false code) :
    Shape false (procs.flatMap sendCommand ++ code) := by
  induction procs with
  | nil => exact h
  | cons proc procs ih =>
    rw [List.flatMap_cons, List.append_assoc]
    exact .lock ih

@[simp] theorem plain_kinstallAppend (lock : Bool) (runs : ℕ) :
    (kinstallAppend lock runs).all Op.plain := by
  induction runs generalizing lock with
  | zero => rfl
  | succ runs ih => cases lock <;> simp [kinstallAppend, Op.plain, -List.all_eq_true, ih]

theorem plain_flatMap {α : Type} {f : α → List Op} (l : List α) (h : ∀ a, (f a).all Op.plain) :
    (l.flatMap f).all Op.plain := by
  rw [List.all_flatMap]
  exact List.all_eq_true.mpr fun a _ => h a

@[simp] theorem plain_grow (growths : List ℕ) : (grow growths).all Op.plain :=
  plain_flatMap growths (plain_kinstallAppend false)

@[simp] theorem plain_sendCommandAll : sendCommandAll.all Op.plain := rfl

@[simp] theorem plain_replicate {ops : List Op} (n : ℕ) (h : ops.all Op.plain) :
    (List.replicate n ops).flatten.all Op.plain := by
  simp [List.all_flatten, -List.all_eq_true, h]

@[simp] theorem plain_locked (body : List Op) : (locked body).all Op.plain = body.all Op.plain := by
  simp [locked, Op.plain]

@[simp] theorem plain_create (growths : List ℕ) : (create growths).all Op.plain := by
  simp [create, Op.plain, -List.all_eq_true]

@[simp] theorem plain_alloc (runs : List (List ℕ)) : (alloc runs).all Op.plain := by
  induction runs with
  | nil => rfl
  | cons growths runs ih => simp [alloc, -List.all_eq_true, ih]

@[simp] theorem plain_kinstallSlot (growths : List ℕ) (writes : ℕ) :
    (kinstallSlot growths writes).all Op.plain := by
  simp [kinstallSlot, -List.all_eq_true]

@[simp] theorem plain_kinstallEnd (runs : ℕ) : (kinstallEnd runs).all Op.plain := by
  simp [kinstallEnd, kmalloc, -List.all_eq_true]

@[simp] theorem plain_newTable (growths : List ℕ) (slot : Option (List ℕ)) :
    (newTable growths slot).all Op.plain := by
  cases slot <;> simp [newTable, -List.all_eq_true]

@[simp] theorem plain_mapInvlpg (map : ℕ) : (mapInvlpg map).all Op.plain := rfl

/-- No call has a command of its own. -/
theorem Call.plain_ops (f : Call) : f.ops.all Op.plain := by
  cases f with
  | free entries => exact plain_flatMap entries plain_create
  | kuninstall entries =>
    apply plain_flatMap
    simp [-List.all_eq_true]
  | insert map pages =>
    apply plain_flatMap
    rintro (_ | ⟨growths, slot⟩) <;> simp [-List.all_eq_true]
  | enter map | exit map => rfl
  | _ => simp [Call.ops, Smp.kmalloc, Smp.kfree, Smp.used, Smp.clear, -List.all_eq_true]

theorem takes_mono {held held' : Mutex → Bool} {flags : List Bool} {code : List Op}
    (hheld : ∀ m, held' m → held m) (h : takes held flags code = false) :
    takes held' flags code = false := by
  fun_induction takes held flags code <;> simp_all [takes]
  grind

/-- The invariant. -/
structure Away (s : Smp) : Prop where
  waits : ∀ c p, s.Waits c p → (s.proc p).interrupts = false →
    takes (s.heldBy c) (s.proc p).flags (s.proc p).code = false
  shape : ∀ c, Shape (s.holder .command = some c) (s.proc c).code
  flags : ∀ c, ∀ i ∈ ((s.proc c).interrupts :: (s.proc c).flags).dropLast, i = false

section Invariant
variable {s s' : Smp} {c p : ℕ} {b i : Bool} {flags : List Bool} {op : Op} {code : List Op}

theorem Away.noCycle (h : Away s) : NoCycle s := by
  rintro c p hwaits ⟨hoff, hspin⟩
  have htakes := h.waits c p hwaits hoff
  rcases hspin with ⟨m, code, hcode, hheld⟩ | ⟨q, ⟨code, hcode⟩, -⟩
  · simp [hcode, takes, heldBy, hheld] at htakes
  · simp [hcode, takes] at htakes

theorem Shape.of_plain (h : Shape b (op :: code)) (hop : op.plain) : b = false ∧ Shape false code := by
  cases h with
  | plain _ h => exact ⟨rfl, h⟩
  | lock | send | wait | unlock => cases hop

/-- Who waits has the lock of the commands. -/
theorem Away.holder_of_waits (h : Away s) (hw : s.Waits c p) : s.holder .command = some c := by
  obtain ⟨⟨code, hcode⟩, -⟩ := hw
  have hshape := h.shape c
  rw [hcode] at hshape
  generalize hb : decide (s.holder .command = some c) = b at hshape
  cases hshape with
  | plain hop => cases hop
  | wait => exact of_decide_eq_true hb

theorem Away.of_forSender {f : ℕ → Bool} (h : Away s) (hw : s.Waits c p) (hf : s.forSender p f) :
    f c := by
  obtain ⟨⟨code, hcode⟩, hfinished⟩ := id hw
  simpa [forSender, h.holder_of_waits hw, hcode, hfinished] using hf

/-- A step of one CPU keeps what is known of the others. -/
theorem Away.update (h : Away s) (hproc : ∀ c' ≠ c, s'.proc c' = s.proc c')
    (hheld : ∀ c' ≠ c, ∀ m, s'.heldBy c' m → s.heldBy c' m)
    (hcommand : ∀ c' ≠ c, (s'.holder .command = some c' ↔ s.holder .command = some c'))
    (hfinished : ∀ c' ≠ c, ∀ p code, (s.proc c').code = .wait p :: code →
      s'.commandFinished p = false → s.commandFinished p = false)
    (hshape : Shape (s'.holder .command = some c) (s'.proc c).code)
    (hflags : ∀ i ∈ ((s'.proc c).interrupts :: (s'.proc c).flags).dropLast, i = false)
    (hsender : ∀ p, s'.Waits c p → (s'.proc p).interrupts = false →
      takes (s'.heldBy c) (s'.proc p).flags (s'.proc p).code = false)
    (htarget : ∀ c' ≠ c, s.Waits c' c → (s'.proc c).interrupts = false →
      takes (s.heldBy c') (s'.proc c).flags (s'.proc c).code = false) : Away s' where
  waits c' p hw hoff := by
    by_cases hc : c' = c
    · subst hc
      exact hsender p hw hoff
    · have hold : s.Waits c' p := by
        obtain ⟨⟨code, hcode⟩, hfin⟩ := hw
        rw [hproc c' hc] at hcode
        exact ⟨⟨code, hcode⟩, hfinished c' hc p code hcode hfin⟩
      apply takes_mono (hheld c' hc)
      by_cases hp : p = c
      · subst hp
        exact htarget c' hc hold hoff
      · rw [hproc p hp] at hoff ⊢
        exact h.waits c' p hold hoff
  shape c' := by
    by_cases hc : c' = c
    · subst hc
      exact hshape
    · simpa only [hproc c' hc, hcommand c' hc] using h.shape c'
  flags c' := by
    by_cases hc : c' = c
    · subst hc
      exact hflags
    · simpa only [hproc c' hc] using h.flags c'

theorem Shape.not_waits (h : Shape false (s.proc c).code) : ¬ s.Waits c p := by
  rintro ⟨⟨code, hcode⟩, -⟩
  rw [hcode] at h
  cases h with
  | plain hop => cases hop

/-- A CPU that has not the lock of the commands changes its own state. -/
theorem Away.setProc (h : Away s) (hproc : s'.proc = Function.update s.proc c ⟨i, flags, code⟩)
    (hheld : ∀ c' ≠ c, ∀ m, s'.heldBy c' m → s.heldBy c' m)
    (hcommand : s'.holder .command = s.holder .command)
    (hfinished : s'.commandFinished = s.commandFinished)
    (hfree : s.holder .command ≠ some c) (hshape : Shape false code)
    (hflags : ∀ j ∈ (i :: flags).dropLast, j = false)
    (htarget : ∀ c' ≠ c, s.Waits c' c → i = false → takes (s.heldBy c') flags code = false) :
    Away s' := by
  have hself : s'.proc c = ⟨i, flags, code⟩ := by simp [hproc]
  have hshape' : Shape (s'.holder .command = some c) (s'.proc c).code := by
    simpa [hself, hcommand, hfree] using hshape
  refine h.update (c := c) (fun c' hc => by simp [hproc, hc]) hheld (fun c' _ => by rw [hcommand])
    (fun _ _ _ _ _ hfin => hfinished ▸ hfin) hshape' (by simpa [hself] using hflags) ?_ ?_
  · intro p hw
    have hnot : Shape false (s'.proc c).code := by simpa [hself] using hshape
    exact absurd hw hnot.not_waits
  · simpa only [hself] using htarget

theorem heldBy_unlock {m : Mutex} {c' : ℕ} :
    ∀ m', ((s.setHolder m none).setCode c code).heldBy c' m' → s.heldBy c' m' := by
  intro m' hm'
  by_cases heq : m' = m
  · subst heq
    simp [heldBy, setHolder, Smp.setCode] at hm'
  · simpa [heldBy, setHolder, Smp.setCode, Function.update_of_ne heq] using hm'

theorem heldBy_lock {m : Mutex} {c' : ℕ} (hc : c' ≠ c) :
    ∀ m', ((s.setHolder m (some c)).setCode c code).heldBy c' m' → s.heldBy c' m' := by
  intro m' hm'
  by_cases heq : m' = m
  · subst heq
    simp [heldBy, setHolder, Smp.setCode, Ne.symm hc] at hm'
  · simpa [heldBy, setHolder, Smp.setCode, Function.update_of_ne heq] using hm'

/-- What a CPU that another one waits for has ahead. -/
theorem Away.ahead (h : Away s) (hcode : (s.proc c).code = op :: code) (c' : ℕ) (hw : s.Waits c' c)
    (hoff : (s.proc c).interrupts = false) :
    takes (s.heldBy c') (s.proc c).flags (op :: code) = false :=
  hcode ▸ h.waits c' c hw hoff

/-- An operation that is not part of `send_command`. -/
theorem Away.execOp_plain (h : Away s) (hcode : (s.proc c).code = op :: code) (hop : op.plain)
    (hm : s.keepsAway (.exec c)) (hs' : s.execOp c c op code = some s') : Away s' := by
  have hold := h.shape c
  rw [hcode] at hold
  have hshape := (hold.of_plain hop).2
  have hfree : s.holder .command ≠ some c := of_decide_eq_false (hold.of_plain hop).1
  have hahead := fun c' => h.ahead hcode c'
  cases op with
  | send | wait => cases hop
  | pushCli =>
    cases hs'
    refine h.setProc rfl (fun _ _ _ => id) rfl rfl hfree hshape ?_ (fun c' _ hw _ => ?_)
    · intro j hj
      rw [List.dropLast_cons_of_ne_nil (by simp), List.mem_cons] at hj
      rcases hj with rfl | hj
      · rfl
      · exact h.flags c j hj
    · simp only [keepsAway, hcode] at hm
      simpa using h.of_forSender hw hm
  | popFlags =>
    simp only [Smp.execOp] at hs'
    split at hs'
    next => cases hs'
    next i flags hflags =>
      cases hs'
      have hlast := h.flags c
      rw [hflags, List.dropLast_cons_of_ne_nil (by simp)] at hlast
      refine h.setProc rfl (fun _ _ _ => id) rfl rfl hfree hshape ?_ (fun c' _ hw hi => ?_)
      · exact fun j hj => hlast j (List.mem_cons_of_mem _ hj)
      · have htakes := hahead c' hw (hlast _ List.mem_cons_self)
        simpa [hflags, hi, takes] using htakes
  | lock m =>
    simp only [Smp.execOp] at hs'
    split_ifs at hs'
    · cases hs'
      have hcommand : m ≠ .command := by
        rintro rfl
        cases hop
      refine h.setProc rfl (fun c' hc => heldBy_lock hc) ?_ rfl hfree hshape (h.flags c)
        (fun c' _ hw hoff => ?_)
      · simp [setHolder, Smp.setCode, hcommand.symm]
      · have htakes := hahead c' hw hoff
        simp only [takes, Bool.or_eq_false_iff] at htakes
        exact htakes.2
    · cases hs'
      exact h
  | unlock m =>
    cases hs'
    have hcommand : m ≠ .command := by
      rintro rfl
      cases hop
    refine h.setProc rfl (fun c' hc => heldBy_unlock) ?_ rfl hfree hshape (h.flags c)
      (fun c' _ hw hoff => hahead c' hw hoff)
    simp [setHolder, Smp.setCode, hcommand.symm]
  | commandAll =>
    cases hs'
    refine h.setProc rfl (fun _ _ _ => id) rfl rfl hfree (.sendCommands _ hshape) (h.flags c)
      (fun c' _ hw hoff => ?_)
    cases hahead c' hw hoff
  | check map =>
    simp only [Smp.execOp] at hs'
    simp only [keepsAway, hcode] at hm
    split at hs'
    next =>
      cases hs'
      exact h.setProc rfl (fun _ _ _ => id) rfl rfl hfree hshape (h.flags c)
        (fun c' _ hw hoff => hahead c' hw hoff)
    next proc hproc =>
      cases hs'
      refine h.setProc rfl (fun _ _ _ => id) rfl rfl hfree ?_ (h.flags c)
        (fun c' _ hw hoff => ?_)
      · split_ifs
        · exact hshape
        · exact .lock hshape
      · have howner : proc = c := by simpa [hproc] using h.of_forSender hw hm
        rw [if_pos howner]
        exact hahead c' hw hoff
  | enter map =>
    simp only [Smp.execOp] at hs'
    split_ifs at hs'
    cases hs'
    exact h.setProc rfl (fun _ _ _ => id) rfl rfl hfree hshape (h.flags c)
      (fun c' _ hw hoff => hahead c' hw hoff)
  | exit map =>
    cases hs'
    exact h.setProc rfl (fun _ _ _ => id) rfl rfl hfree hshape (h.flags c)
      (fun c' _ hw hoff => hahead c' hw hoff)

/-- An operation of `send_command`. -/
theorem Away.execOp_command (h : Away s) (hcode : (s.proc c).code = op :: code)
    (hop : op.plain = false) (hm : s.keepsAway (.exec c))
    (hs' : s.execOp c c op code = some s') : Away s' := by
  have hshape := h.shape c
  rw [hcode] at hshape
  generalize hb : decide (s.holder .command = some c) = b at hshape
  cases hshape with
  | plain hplain => simp [hop] at hplain
  | @lock p code hshape =>
    simp only [Smp.execOp] at hs'
    split_ifs at hs' with hnone
    · cases hs'
      rw [Option.isNone_iff_eq_none] at hnone
      have hself : ((s.setHolder .command (some c)).setCode c
          (.send p :: .wait p :: .unlock .command :: code)).proc c =
            { s.proc c with code := .send p :: .wait p :: .unlock .command :: code } := by
        simp [Smp.setCode, setHolder]
      refine h.update (c := c) ?_ (fun c' hc => heldBy_lock hc) ?_ (fun _ _ _ _ _ => id) ?_ ?_ ?_ ?_
      · intro c' hc
        simp [Smp.setCode, setHolder, hc]
      · intro c' hc
        simp [Smp.setCode, setHolder, hnone, Ne.symm hc]
      · rw [hself]
        simpa [Smp.setCode, setHolder] using Shape.send hshape
      · rw [hself]
        exact h.flags c
      · rintro q ⟨⟨code', hcode'⟩, -⟩
        rw [hself] at hcode'
        cases hcode'
      · intro c' _ hw
        have := h.holder_of_waits hw
        simp [hnone] at this
    · cases hs'
      exact h
  | @send p code hshape =>
    cases hs'
    have hcommand := of_decide_eq_true hb
    refine h.update (c := c) ?_ (fun _ _ _ => id) (fun _ _ => Iff.rfl) ?_ ?_ ?_ ?_ ?_
    · intro c' hc
      simp [Smp.setCode, hc]
    · intro c' hc q code' hcode' _
      have hwait := h.shape c'
      have hnot : decide (s.holder .command = some c') = false := by
        simp [hcommand, Ne.symm hc]
      rw [hcode', hnot] at hwait
      cases hwait with
      | plain hplain => cases hplain
    · simpa [Smp.setCode, hcommand] using Shape.wait hshape
    · simpa [Smp.setCode] using h.flags c
    · rintro q ⟨⟨code', hcode'⟩, -⟩ hoff
      obtain ⟨rfl, -⟩ : p = q ∧ _ := by simpa [Smp.setCode] using hcode'
      simp only [keepsAway, hcode, Bool.or_eq_true, Bool.not_eq_true'] at hm
      by_cases hp : p = c
      · -- The code of the sender has the command ahead.
        subst hp
        have hi : (s.proc p).interrupts = false := by simpa [Smp.setCode] using hoff
        simp [hi, hcode, takes] at hm
      · have hsame : ∀ code, (s.setCode c code).proc p = s.proc p := by
          simp [Smp.setCode, hp]
        rw [hsame] at hoff ⊢
        exact hm.resolve_left (by simp [hoff])
    · intro c' hc hw
      have hother := h.holder_of_waits hw
      rw [hcommand] at hother
      exact absurd (Option.some.inj hother).symm hc
  | @wait p code hshape =>
    have hcommand := of_decide_eq_true hb
    simp only [Smp.execOp] at hs'
    split_ifs at hs'
    · cases hs'
      refine h.update (c := c) ?_ (fun _ _ _ => id) (fun _ _ => Iff.rfl) (fun _ _ _ _ _ => id)
        ?_ ?_ ?_ ?_
      · intro c' hc
        simp [Smp.setCode, hc]
      · simpa [Smp.setCode, hcommand] using Shape.unlock hshape
      · simpa [Smp.setCode] using h.flags c
      · rintro q ⟨⟨code', hcode'⟩, -⟩
        simp [Smp.setCode] at hcode'
      · intro c' hc hw
        have hother := h.holder_of_waits hw
        rw [hcommand] at hother
        exact absurd (Option.some.inj hother).symm hc
    · cases hs'
      exact h
  | unlock hshape =>
    have hcommand := of_decide_eq_true hb
    cases hs'
    refine h.update (c := c) ?_ (fun _ _ => heldBy_unlock) ?_ (fun _ _ _ _ _ => id) ?_ ?_ ?_ ?_
    · intro c' hc
      simp [Smp.setCode, setHolder, hc]
    · intro c' hc
      simp [Smp.setCode, setHolder, hcommand, Ne.symm hc]
    · simpa [Smp.setCode, setHolder] using hshape
    · simpa [Smp.setCode, setHolder] using h.flags c
    · intro q hw
      have hnot : Shape false (((s.setHolder .command none).setCode c code).proc c).code := by
        simpa [Smp.setCode, setHolder] using hshape
      exact absurd hw hnot.not_waits
    · intro c' hc hw
      have hother := h.holder_of_waits hw
      rw [hcommand] at hother
      exact absurd (Option.some.inj hother).symm hc

/-- One move. -/
theorem Away.step {m : Move} (h : Away s) (hm : s.keepsAway m) (hs' : s.step m = some s') :
    Away s' := by
  have hrests : ∀ c, (s.proc c).code = [] → s.holder .command ≠ some c := by
    intro c hcode hcommand
    have hshape := h.shape c
    rw [hcode, decide_eq_true hcommand] at hshape
    cases hshape
  cases m with
  | call c f =>
    simp only [Smp.step] at hs'
    split_ifs at hs' with hcode
    cases hs'
    have hshape : Shape false f.ops := List.append_nil f.ops ▸ .append f.plain_ops .nil
    refine h.setProc rfl (fun _ _ _ => id) rfl rfl (hrests c hcode) hshape (by simp)
      (fun c' _ hw hoff => ?_)
    simp only [keepsAway, hoff, Bool.false_or] at hm
    simpa using h.of_forSender hw hm
  | interrupts c on =>
    simp only [Smp.step] at hs'
    split_ifs at hs' with hcode
    cases hs'
    exact h.setProc rfl (fun _ _ _ => id) rfl rfl (hrests c hcode) .nil (by simp)
      (fun _ _ _ _ => rfl)
  | exec c =>
    simp only [Smp.step, Smp.exec] at hs'
    split at hs'
    next => cases hs'
    next op code hcode =>
      by_cases hop : op.plain
      · exact h.execOp_plain hcode hop hm hs'
      · exact h.execOp_command hcode (by simpa using hop) hm hs'
  | command c =>
    simp only [Smp.step] at hs'
    split_ifs at hs'
    cases hs'
    refine ⟨fun c' p hw => h.waits c' p ⟨hw.1, ?_⟩, h.shape, h.flags⟩
    have hfin := hw.2
    by_cases hp : p = c
    · simp [handleCommand, hp] at hfin
    · simpa [handleCommand, hp] using hfin

end Invariant

theorem Rests.away {s : Smp} (h : Rests s) : Away s where
  waits c p hw := by
    obtain ⟨⟨code, hcode⟩, -⟩ := hw
    simp [h.code c] at hcode
  shape c := by
    rw [h.code c, h.holder .command]
    exact .nil
  flags c := by simp [h.flags c]

/-- In every run in which no CPU comes between a command and a lock of its sender, no CPU
waits for one that waits with its interrupts off. -/
theorem noCycle_run {s s' : Smp} {ms : List Move} (h : Rests s)
    (hms : Along step (keepsAway · ·) s ms) (hrun : run step s ms = some s') : NoCycle s' :=
  (invariant (fun _ _ _ => Away.step) h.away hms hrun).noCycle

/-- One CPU writes an entry into a slot, and the other takes the command and allocates. -/
def slotMoves : List Move :=
  .call 0 (.kinstallSlot [] 1) :: List.replicate 6 (.exec 0) ++
    .command 1 :: .call 1 (.kmalloc []) :: List.replicate 5 (.exec 0) ++ List.replicate 3 (.exec 1)

theorem noCycle_slot : ∃ s', run step (rest 2) slotMoves = some s' ∧ NoCycle s' := by
  have hrun : (run step (rest 2) slotMoves).isSome := by decide
  obtain ⟨s', hs'⟩ := Option.isSome_iff_exists.mp hrun
  exact ⟨s', hs', noCycle_run (rest_rests 2) (by decide) hs'⟩

/-- The other CPU allocates before it takes the command. -/
def cycleMoves : List Move :=
  .call 0 (.kinstallSlot [] 1) :: List.replicate 6 (.exec 0) ++ [.call 1 (.kmalloc []), .exec 1]

theorem not_noCycle_slot : ¬ ∀ ms s', run step (rest 2) ms = some s' → NoCycle s' := by
  intro h
  have hrun : ∃ s' ∈ run step (rest 2) cycleMoves,
      (s'.proc 0).code = .wait 1 :: [.unlock .command, .popFlags, .unlock .kmem, .popFlags] ∧
      s'.commandFinished 1 = false ∧ (s'.proc 1).interrupts = false ∧
      (s'.proc 1).code = .lock .kmem :: [.unlock .kmem, .popFlags] ∧
      s'.holder .kmem = some 0 := by
    decide
  obtain ⟨s', hs', hwait, hfin, hoff, hlock, hheld⟩ := hrun
  exact h cycleMoves s' hs' 0 1 ⟨⟨_, hwait⟩, hfin⟩ ⟨hoff, .inl ⟨_, _, hlock, hheld⟩⟩

end Cantos.Smp
