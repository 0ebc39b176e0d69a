import Cantos.Mem.Cuts
import Cantos.Mem.Object

/-!
# Where freed frames come from

Runs of allocation, freeing and objects.  `page::free` takes the frames of a chain whatever
made the chain: when it is only given chains of `page::alloc`, the frames of the free list
have been handed out by the bump allocator.  `Object::~Object` also gives it the chains of
`page::create`.

## Main definitions

* `Users`, `Users.step`: the calls, and what is live.
* `Users.Handed`: free frames have been handed out.
* `Users.FreesAllocated`: the calls that free what `page::alloc` has returned.
* `Users.RecordServed`: those for which the heap does not grow in front of a cut.
-/

namespace Cantos

open Exec Linked

/-- A live chain, and whether `page::alloc` has returned it or `page::create`. -/
structure Chain where
  allocated : Bool
  page : List Page
  deriving DecidableEq

/-- The memory subsystem, the live chains of its callers, and the objects. -/
structure Users where
  mem : Mem
  chains : List Chain
  objects : List Object

/-- The pages of a chain that have been allocated. -/
def Chain.claimed (c : Chain) : List Page := if c.allocated then c.page else []

/-- The pages of an object that have been allocated. -/
def Object.claimed (o : Object) : List Page :=
  match o.source with
  | .empty => o.pages.flatMap PageEntry.page
  | .physical _ _ => []

namespace Users

open Steps

inductive Move
  | alloc (depth : ℕ) (flags : Flags) (count : ℕ)
  | create (depth base : ℕ) (flags : Flags) (count : ℕ)
  /-- A live chain is freed. -/
  | free (depth : ℕ) (c : Chain)
  /-- An object is made. -/
  | make (source : Source) (maxPages : ℕ)
  | generate (depth : ℕ) (o : Object) (addr count : ℕ)
  /-- The last reference to an object goes away. -/
  | destroy (depth : ℕ) (o : Object)
  deriving DecidableEq

/-- A call that returns, made with the lock taken or not. -/
def call {α : Type} (x : Users) (mutex : Bool) (c : M α) (after : α → Mem → Users) :
    Option Users :=
  match c { x.mem with mutex } with
  | (.ok a, mem) => some (after a { mem with mutex := false })
  | (.error _, _) => none

def step (x : Users) : Move → Option Users
  | .alloc depth flags count =>
      x.call (flags.has flagNolock) (Page.alloc depth flags count) fun page mem =>
        { x with mem, chains := ⟨true, page⟩ :: x.chains }
  | .create depth base flags count =>
      x.call false (Page.create depth base flags count) fun page mem =>
        { x with mem, chains := ⟨false, page⟩ :: x.chains }
  | .free depth c =>
      if c ∈ x.chains then
        x.call false (Page.free depth c.page) fun _ mem => { x with mem, chains := x.chains.erase c }
      else none
  | .make source maxPages => some { x with objects := ⟨source, maxPages, []⟩ :: x.objects }
  | .generate depth o addr count =>
      if o ∈ x.objects then
        x.call false (o.generate depth addr count) fun o' mem =>
          { x with mem, objects := o' :: x.objects.erase o }
      else none
  | .destroy depth o =>
      if o ∈ x.objects then
        x.call false (Object.destroy depth o.pages) fun _ mem =>
          { x with mem, objects := x.objects.erase o }
      else none

/-- The call frees chains that `page::alloc` has returned. -/
def FreesAllocated : Move → Prop
  | .free _ c => c.allocated
  | .destroy _ o => o.source = .empty ∨ o.pages = []
  | _ => True

instance : DecidablePred FreesAllocated
  | .free _ _ => inferInstanceAs (Decidable (_ = true))
  | .destroy _ _ => inferInstanceAs (Decidable (_ ∨ _))
  | .alloc _ _ _ | .create _ _ _ _ | .make _ _ | .generate _ _ _ _ =>
    inferInstanceAs (Decidable True)

/-- Where the call cuts frames off an entry of the free list, there is a block for the record. -/
def RecordServed (x : Users) : Move → Prop
  | .alloc _ flags count => x.mem.Serves flags count
  | .generate _ o addr count => o.source = .empty → x.mem.Serves 0 (o.room addr count)
  | _ => True

instance (x : Users) : DecidablePred x.RecordServed
  | .alloc _ _ _ => inferInstanceAs (Decidable (Mem.Serves _ _ _))
  | .generate _ _ _ _ => inferInstanceAs (Decidable (_ → Mem.Serves _ _ _))
  | .create _ _ _ _ | .free _ _ | .make _ _ | .destroy _ _ => inferInstanceAs (Decidable True)

/-- The calls that keep the free list to what has been handed out. -/
def Allows (x : Users) (m : Move) : Prop := FreesAllocated m ∧ x.RecordServed m

instance (x : Users) : DecidablePred x.Allows := fun _ => inferInstanceAs (Decidable (_ ∧ _))

/-- The pages that have been allocated and not freed. -/
def claimed (x : Users) : List Page :=
  x.chains.flatMap Chain.claimed ++ x.objects.flatMap Object.claimed

/-- The free frames, and those of the chains of `page::alloc`, have been handed out by the
bump allocator. -/
structure Handed (x : Users) : Prop where
  free : ∀ f ∈ frames x.mem.page.pageFreeHead, f ∈ handed x.mem.trace
  chains : ∀ c ∈ x.chains, c.allocated → ∀ f ∈ frames c.page, f ∈ handed x.mem.trace

def Inv (x : Users) : Prop := ∀ f,
  (frames x.mem.page.pageFreeHead).count f + (frames x.claimed).count f ≤
    (handed x.mem.trace).count f

section Calls
variable {α : Type} {taken : List Page} {given : α → List Page} {c : M α} {x x' : Users}
  {after : α → Mem → Users} {mutex : Bool}

/-- A conserving call whose caller accounts for what it gives and takes. -/
theorem call_inv (h : x.Inv) (hb : Conserves taken c given)
    (hstep : x.call mutex c after = some x') (hmem : ∀ a mem, (after a mem).mem = mem)
    (hclaim : ∀ a mem f, (frames (after a mem).claimed).count f + (frames taken).count f ≤
      (frames x.claimed).count f + (frames (given a)).count f)
    (hcuts : ∀ a mem, c.Returns { x.mem with mutex } a mem →
      Mem.CutsRight { x.mem with mutex } mem) : x'.Inv := by
  rw [call] at hstep
  split at hstep
  next a mem hr =>
    obtain rfl := Option.some.inj hstep
    obtain ⟨-, new, htrace, hle⟩ := hb _ a mem hr
    have hfit := (hcuts a mem hr).all_fits htrace
    have htrace : ({ mem with mutex := false } : Mem).trace = new ++ x.mem.trace := htrace
    intro f
    have hbefore := h f
    have hcall := hle hfit f
    have hafter := hclaim a { mem with mutex := false } f
    have hfree : (after a { mem with mutex := false }).mem.page.pageFreeHead =
        mem.page.pageFreeHead := by rw [hmem]
    have hsum : (handed (after a { mem with mutex := false }).mem.trace).count f =
        (handed new).count f + (handed x.mem.trace).count f := by
      rw [hmem, htrace, count_handed_append]
    rw [hfree, hsum]
    simp only at hcall
    omega
  next => cases hstep

end Calls

theorem conserves_doGenerate (depth : ℕ) (source : Source) (addr count : ℕ) :
    Conserves [] (source.doGenerate depth addr count)
      fun page => match source with
        | .empty => page
        | .physical _ _ => [] := by
  cases source with
  | empty => exact Conserves.alloc depth 0 count
  | physical base flags => exact Conserves.create depth (add32 base addr) flags count

theorem conserves_destroy (depth : ℕ) (pages : List PageEntry) :
    Conserves (pages.flatMap PageEntry.page) (Object.destroy depth pages) fun _ => [] := by
  induction pages with
  | nil => exact .pure () fun _ => le_rfl
  | cons entry next ih =>
    have hfree : Conserves ((entry :: next).flatMap PageEntry.page) (Page.free depth entry.page)
        fun _ => next.flatMap PageEntry.page :=
      (Conserves.free depth entry.page).conseq fun _ f => by
        rw [List.flatMap_cons]
        simp
    exact hfree.bind fun _ => ih

/-- What `generate` gives an object is what it takes for it. -/
theorem conserves_generate (depth : ℕ) (o : Object) (addr count : ℕ) :
    Conserves o.claimed (o.generate depth addr count) Object.claimed := by
  rw [Object.generate]
  refine .ite (fun _ => .pure o fun _ => le_rfl) fun _ => ?_
  have hmade := (conserves_doGenerate depth o.source addr (o.room addr count))
  refine Conserves.bind (g := fun page => match o.source with
    | .empty => o.claimed ++ page
    | .physical _ _ => []) (hmade.conseq fun page f => ?_) fun page => .pure _ fun f => ?_
  · cases o.source <;> simp
  · cases hs : o.source with
    | empty =>
      have hl := List.takeWhile_append_dropWhile (l := o.pages)
        (p := fun next => decide (next.offset < addr))
      have hcount := congrArg (fun l => (frames (l.flatMap PageEntry.page)).count f) hl
      simp only [Object.claimed, hs, Object.link, List.flatMap_append, List.flatMap_cons,
        count_frames_append] at *
      omega
    | physical base flags => simp [Object.claimed]

/-- `generate` cuts frames off the free list when `page::alloc` makes the pages. -/
theorem generate_cutsRight {depth addr count : ℕ} {o o' : Object} {s s' : Mem}
    (hr : (o.generate depth addr count).Returns s o' s') (hs : s.mutex = false)
    (hserved : o.source = .empty → s.Serves 0 (o.room addr count)) : s.CutsRight s' := by
  rw [Object.generate] at hr
  split_ifs at hr
  · obtain ⟨-, rfl⟩ := returns_pure.mp hr
    exact .of_trace rfl
  · obtain ⟨page, s₁, hmade, hret⟩ := returns_bind.mp hr
    obtain ⟨-, rfl⟩ := returns_pure.mp hret
    cases hsource : o.source with
    | empty =>
      rw [hsource] at hmade
      exact alloc_cutsRight hmade (hs.trans (by decide)) (hserved hsource)
    | physical base flags =>
      rw [hsource] at hmade
      exact Cuts.create depth _ flags _ s hs page s' hmade

theorem cuts_destroy (depth : ℕ) (pages : List PageEntry) :
    Cuts false (Object.destroy depth pages) := by
  induction pages with
  | nil => exact .pure ()
  | cons entry next ih => exact (Cuts.free depth entry.page).bind (locks_free _ _) fun _ => ih

section Steps
variable {x x' : Users} {m : Move}

/-- Taking one of a list out and putting another in. -/
theorem count_frames_erase {β : Type} [DecidableEq β] {g : β → List Page} {l : List β} {b : β}
    (hb : b ∈ l) (f : ℕ) : (frames (l.flatMap g)).count f =
      (frames (g b)).count f + (frames ((l.erase b).flatMap g)).count f := by
  have hperm := ((List.perm_cons_erase hb).flatMap_right g).flatMap_right Page.frames
  rw [frames, hperm.count_eq f, List.flatMap_cons, ← frames, count_frames_append]

theorem step_inv (h : x.Inv) (hallow : x.Allows m) (hstep : x.step m = some x') : x'.Inv := by
  obtain ⟨hown, hserved⟩ := hallow
  cases m with
  | alloc depth flags count =>
    rw [step] at hstep
    refine call_inv h (Conserves.alloc depth flags count) hstep (fun _ _ => rfl) ?_
      fun _ _ hr => alloc_cutsRight hr rfl hserved
    intro page mem f
    simp [claimed, Chain.claimed, Nat.add_comm]
  | create depth base flags count =>
    rw [step] at hstep
    refine call_inv h (Conserves.create depth base flags count) hstep (fun _ _ => rfl) ?_
      fun _ _ hr => Cuts.create depth base flags count _ rfl _ _ hr
    intro page mem f
    simp [claimed, Chain.claimed]
  | free depth c =>
    rw [step] at hstep
    split_ifs at hstep with hc
    refine call_inv h (Conserves.free depth c.page) hstep (fun _ _ => rfl) ?_
      fun _ _ hr => Cuts.free depth c.page _ rfl _ _ hr
    intro u mem f
    have hown : c.allocated = true := hown
    have herase := count_frames_erase (g := Chain.claimed) hc f
    rw [Chain.claimed, if_pos hown] at herase
    simp only [claimed, count_frames_append, herase, frames_nil, List.count_nil]
    omega
  | make source maxPages =>
    obtain rfl := Option.some.inj hstep
    intro f
    have hbefore := h f
    cases source <;> simpa [claimed, Object.claimed] using hbefore
  | generate depth o addr count =>
    rw [step] at hstep
    split_ifs at hstep with ho
    refine call_inv h (conserves_generate depth o addr count) hstep (fun _ _ => rfl) ?_
      fun _ _ hr => generate_cutsRight hr rfl hserved
    intro o' mem f
    have herase := count_frames_erase (g := Object.claimed) ho f
    simp only [claimed, List.flatMap_cons, count_frames_append, herase]
    omega
  | destroy depth o =>
    rw [step] at hstep
    split_ifs at hstep with ho
    have hclaimed : o.pages.flatMap PageEntry.page = o.claimed := by
      rcases hown with hs | hs
      · rw [Object.claimed, hs]
      · rw [Object.claimed, hs]
        cases o.source <;> rfl
    refine call_inv h (conserves_destroy depth o.pages) hstep (fun _ _ => rfl) ?_
      fun _ _ hr => cuts_destroy depth o.pages _ rfl _ _ hr
    intro u mem f
    have herase := count_frames_erase (g := Object.claimed) ho f
    simp only [claimed, count_frames_append, herase, hclaimed, frames_nil, List.count_nil]
    omega

theorem Inv.handed (h : x.Inv) : x.Handed where
  free f hf := by
    have hone := List.count_pos_iff.mpr hf
    have hle := h f
    exact List.count_pos_iff.mp (by omega)
  chains c hc hown f hf := by
    have hone := List.count_pos_iff.mpr hf
    have hle := h f
    have herase := count_frames_erase (g := Chain.claimed) hc f
    rw [Chain.claimed, if_pos hown] at herase
    simp only [claimed, count_frames_append, herase] at hle
    exact List.count_pos_iff.mp (by omega)

variable {memTable : List Entry} {vmEnd : ℕ} {s : Mem} {ms : List Move}

/-- In a run that frees only what `page::alloc` has returned, what is free has been handed
out. -/
theorem handed_run (hinit : (Kmem.init vmEnd).Returns (bootMem memTable) () s) (hpos : 0 < vmEnd)
    (hms : Along step Allows ⟨s, [], []⟩ ms) (hrun : run step ⟨s, [], []⟩ ms = some x) :
    x.Handed := by
  have hempty := (init_returns hpos hinit).pageFreeHead
  have hinv : Inv ⟨s, [], []⟩ := fun f => by simp [hempty, claimed]
  exact (invariant (fun _ _ _ h hallow hstep => step_inv h hallow hstep) hinv hms hrun).handed

end Steps

/-- A machine with plenty of memory, after `kmem::init`. -/
def roomy : Users := ⟨World.roomy.mem, [], []⟩

/-- An object is made, its first page is generated with `page`, and it is destroyed. -/
def lifetime (source : Source) (page : Page) : List Move :=
  [.make source 1, .generate 12 ⟨source, 1, []⟩ 0 1, .destroy 12 ⟨source, 1, [⟨0, [page]⟩]⟩]

theorem roomy_init : (Kmem.init 0xc0100000).Returns (bootMem roomyMap) () roomy.mem :=
  returns_of_fst (by decide +kernel)

theorem handed_lifetime : ∃ x, run step roomy (lifetime .empty
    ⟨3222274132, 2, 1060864, flagAllocated ||| flagNolock, 1⟩) = some x ∧ x.Handed := by
  have hrun : (run step roomy (lifetime .empty
      ⟨3222274132, 2, 1060864, flagAllocated ||| flagNolock, 1⟩)).isSome := by
    decide +kernel
  obtain ⟨x, hx⟩ := Option.isSome_iff_exists.mp hrun
  exact ⟨x, hx, handed_run roomy_init (by decide) (by decide +kernel) hx⟩

/-- The object of a storage over the video memory puts its page into the free list. -/
theorem not_handed_lifetime : ∃ x, run step roomy (lifetime (.physical 0xb8000 flagKernel)
    ⟨3222274104, 1, 0xb8000, flagAllocated ||| flagKernel, 1⟩) = some x ∧ ¬ x.Handed := by
  have hrun : ∃ x ∈ run step roomy (lifetime (.physical 0xb8000 flagKernel)
      ⟨3222274104, 1, 0xb8000, flagAllocated ||| flagKernel, 1⟩),
      ∃ f ∈ frames x.mem.page.pageFreeHead, f ∉ handed x.mem.trace := by
    decide +kernel
  obtain ⟨x, hx, f, hf, hnot⟩ := hrun
  exact ⟨x, hx, fun h => hnot (h.free f hf)⟩

end Users

end Cantos
