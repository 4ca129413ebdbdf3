import Erebus.Lib.System

/-!
# Whose values are in the FPU registers

The registers of a CPU are one value. User code of a user thread and kernel code inside a section
change it, `saves` copies it into the running thread's save area and `restores` copies it back.

* `Machine`, `Step`: `switch_to`, `begin_kernel_fpu`, `end_kernel_fpu`, `request_amx_context` and
  the code in between.
* `Thread.OnCpu`, `Thread.OffCpu`: where a thread's own value is while it runs and while it does
  not.
* `fpu_isolated`: a thread that is switched in, and a user thread whose section ends, finds its own
  value.
-/

namespace Erebus.Sched.Fpu

open Function (update_self update_of_ne)

variable {V : Type*}

/-- `KernelFpuSection`. -/
inductive KernelFpuSection where
  | nested | direct | saved
  deriving DecidableEq, Repr

/-- What `Thread` keeps about the FPU. `area` is what `fpu_storage` points to.

`sections` are the guards on the thread's stack, innermost first. The last three fields are history:
`left` is what the thread itself last left in the registers (a user thread outside sections, a
kernel thread in them), `ran` whether it was ever switched in, and `early` whether it had a save
area before that. -/
structure Thread (V : Type*) where
  isKthread : Bool
  dead : Bool := false
  usesFpu : Bool := false
  usesAmx : Bool := false
  fpuDirty : Bool := false
  inKernelFpu : Bool := false
  area : Option V := none
  sections : List KernelFpuSection := []
  left : V
  ran : Bool := false
  early : Bool := false

namespace Thread

/-- `has_unsaved_fpu_state`. -/
def hasUnsavedFpuState (t : Thread V) : Bool := t.usesFpu && !t.dead && (!t.isKthread || t.fpuDirty)

/-- `enable_fpu_context`, when there is memory for the area. -/
def enableFpuContext (t : Thread V) (initial : V) : Thread V :=
  match t.area with
  | some _ => t
  | none => { t with area := some initial, usesFpu := true }

/-- `request_amx_context`, when there is memory for the area: the old contents move over. -/
def requestAmxContext (t : Thread V) (initial : V) : Thread V :=
  if t.usesAmx then t
  else { t with area := some (t.area.getD initial), usesFpu := true, usesAmx := true }

/-- `begin_kernel_fpu` with the registers `r`; a guard keeps what it returns. -/
def beginKernelFpu (t : Thread V) (r : V) : Thread V :=
  if t.inKernelFpu then
    { t with sections := .nested :: t.sections }
  else if t.usesFpu && !t.isKthread then
    { t with area := some r, inKernelFpu := true, sections := .saved :: t.sections }
  else
    { t with inKernelFpu := true, sections := .direct :: t.sections }

/-- `end_kernel_fpu(section)`, by the guard that goes out of scope first; also the registers after
it. -/
def endKernelFpu (t : Thread V) (r : V) : Thread V × V :=
  match t.sections with
  | [] => (t, r)
  | .nested :: rest => ({ t with sections := rest }, r)
  | .direct :: rest => ({ t with inKernelFpu := false, fpuDirty := t.usesFpu, sections := rest }, r)
  | .saved :: rest =>
    ({ t with inKernelFpu := false, fpuDirty := false, sections := rest }, t.area.getD r)

end Thread

/-- The registers and the running thread of every CPU, and all threads. -/
structure Machine (V : Type*) where
  regs : Nat → V
  current : Nat → Nat
  threads : Nat → Thread V

namespace Machine

def setThread (m : Machine V) (t : Nat) (thread : Thread V) : Machine V :=
  { m with threads := Function.update m.threads t thread }

def setRegs (m : Machine V) (c : Nat) (v : V) : Machine V :=
  { m with regs := Function.update m.regs c v }

/-- `switch_to` on CPU `c`, for a `next` other than the caller. -/
def switchTo (m : Machine V) (c next : Nat) : Machine V :=
  let prev := m.threads (m.current c)
  let prev := if prev.hasUnsavedFpuState then { prev with area := some (m.regs c) } else prev
  let loaded :=
    if (m.threads next).usesFpu then (m.threads next).area.getD (m.regs c) else m.regs c
  { regs := Function.update m.regs c loaded
    current := Function.update m.current c next
    threads :=
      Function.update (Function.update m.threads (m.current c) { prev with fpuDirty := false }) next
      { m.threads next with ran := true } }

/-- `begin_kernel_fpu` by the thread that runs on `c`. -/
def beginKernelFpu (m : Machine V) (c : Nat) : Machine V :=
  m.setThread (m.current c) ((m.threads (m.current c)).beginKernelFpu (m.regs c))

/-- `end_kernel_fpu` by the thread that runs on `c`. -/
def endKernelFpu (m : Machine V) (c : Nat) : Machine V :=
  let r := (m.threads (m.current c)).endKernelFpu (m.regs c)
  (m.setRegs c r.2).setThread (m.current c) r.1

end Machine

/-- What happens in a step. -/
inductive Event (V : Type*) where
  | switchTo (c next : Nat)
  | beginKernelFpu (c : Nat)
  | endKernelFpu (c : Nat)
  | requestAmx (c : Nat)
  | enable (c : Nat)
  | setUp (t : Nat) (amx : Bool)
  | userCode (c : Nat) (v : V)
  | kernelCode (c : Nat) (v : V)
  | exit (c : Nat)

/-- One step. The preconditions are those of the source: `switch_to` is called outside sections, for
a thread that runs nowhere and is not finished. -/
inductive Step (initial : V) (m : Machine V) : Event V → Machine V → Prop
  | switchTo (c next : Nat) : (∀ c', m.current c' ≠ next) →
      (m.threads (m.current c)).inKernelFpu = false →
      (m.threads next).dead = false → Step initial m (.switchTo c next) (m.switchTo c next)
  | beginKernelFpu (c : Nat) : Step initial m (.beginKernelFpu c) (m.beginKernelFpu c)
  | endKernelFpu (c : Nat) : Step initial m (.endKernelFpu c) (m.endKernelFpu c)
  | requestAmx (c : Nat) : Step initial m (.requestAmx c)
      (m.setThread (m.current c) ((m.threads (m.current c)).requestAmxContext initial))
  | enable (c : Nat) : Step initial m (.enable c)
      (m.setThread (m.current c) ((m.threads (m.current c)).enableFpuContext initial))
  -- by whoever creates the thread
  | setUp (t : Nat) (amx : Bool) : (m.threads t).ran = false → Step initial m (.setUp t amx)
      (m.setThread t { (if amx then (m.threads t).requestAmxContext initial
        else (m.threads t).enableFpuContext initial) with early := true })
  | userCode (c : Nat) (v : V) : (m.threads (m.current c)).isKthread = false →
      (m.threads (m.current c)).sections = [] → Step initial m (.userCode c v)
      ((m.setRegs c v).setThread (m.current c) { m.threads (m.current c) with left := v })
  | kernelCode (c : Nat) (v : V) : (m.threads (m.current c)).sections ≠ [] →
      Step initial m (.kernelCode c v)
      ((m.setRegs c v).setThread (m.current c) { m.threads (m.current c) with
        left := if (m.threads (m.current c)).isKthread then v else (m.threads (m.current c)).left })
  | exit (c : Nat) :
      Step initial m (.exit c)
        (m.setThread (m.current c) { m.threads (m.current c) with dead := true })

/-- Every CPU starts on a boot thread of its own, and no thread has a save area yet. -/
structure Init (initial : V) (m : Machine V) : Prop where
  apart : ∀ c c', m.current c = m.current c' → c = c'
  boot : ∀ c, (m.threads (m.current c)).ran = true
  fresh : ∀ t, m.threads t =
    { isKthread := (m.threads t).isKthread, left := initial, ran := (m.threads t).ran }

def system (initial : V) : System (Machine V) where
  init := Init initial
  step m m' := ∃ e, Step initial m e m'

/-! ## Where a thread's value is -/

/-- Nested guards on top of one that opened the section. -/
def Stacked : List KernelFpuSection → Prop
  | [] => True
  | [s] => s ≠ .nested
  | s :: s' :: rest => s = .nested ∧ Stacked (s' :: rest)

namespace Thread

/-- The guards of a thread: the mark agrees with them, and what the outermost one did is right for
the thread. -/
structure Guarded (t : Thread V) : Prop where
  mark : t.inKernelFpu = true ↔ t.sections ≠ []
  stacked : Stacked t.sections
  outer : t.early = true → (.saved ∈ t.sections → t.isKthread = false) ∧
    (.direct ∈ t.sections → t.isKthread = true)
  stored : t.area.isSome = t.usesFpu
  amx : t.usesAmx = true → t.usesFpu = true
  ready : t.early = true → t.usesFpu = true

/-- On a CPU with the registers `r`: a kernel thread's value is in the registers, and in the area
too while the dirty flag is clear; a user thread's is in the registers, or in the area during a
section. -/
def OnCpu (t : Thread V) (r : V) : Prop :=
  if t.isKthread then r = t.left ∧ (t.fpuDirty = false → t.sections = [] → t.area = some t.left)
  else if t.sections = [] then r = t.left else t.area = some t.left

/-- On no CPU, with a chance of getting there: the value is in the area. -/
def OffCpu (t : Thread V) : Prop := t.sections = [] ∧ (t.dead = false → t.area = some t.left)

end Thread

/-- What holds of a thread on a CPU with the registers `r`. -/
structure Thread.Running (t : Thread V) (r : V) : Prop where
  guarded : t.Guarded
  ran : t.ran = true
  on : t.early = true → t.OnCpu r

/-- What holds of a thread on no CPU. -/
structure Thread.Waiting (initial : V) (t : Thread V) : Prop where
  guarded : t.Guarded
  fresh : t.ran = false → t.left = initial ∧ t.sections = [] ∧ ∀ v ∈ t.area, v = initial
  off : t.early = true → t.OffCpu

/-- The invariant. -/
structure Machine.Inv (initial : V) (m : Machine V) : Prop where
  apart : ∀ c c', m.current c = m.current c' → c = c'
  running : ∀ c, (m.threads (m.current c)).Running (m.regs c)
  waiting : ∀ t, (∀ c, m.current c ≠ t) → (m.threads t).Waiting initial

section Steps

variable {initial : V} {m m' : Machine V} {c next : Nat}
variable {T t : Thread V} {r : V}

theorem Init.inv (h : Init initial m) : m.Inv initial := by
  have hguarded : ∀ t, (m.threads t).Guarded := fun t => by
    rw [h.fresh t]
    exact ⟨⟨nofun, fun h => absurd rfl h⟩, trivial, nofun, rfl, nofun, nofun⟩
  have hearly : ∀ t, (m.threads t).early ≠ true := fun t => by
    rw [h.fresh t]
    exact Bool.false_ne_true
  refine ⟨h.apart, fun c => ⟨hguarded _, h.boot c, fun he => absurd he (hearly _)⟩, fun t _ => ?_⟩
  refine ⟨hguarded t, fun _ => ?_, fun he => absurd he (hearly t)⟩
  rw [h.fresh t]
  exact ⟨rfl, rfl, nofun⟩

/-- The running thread of `c` changes, and perhaps the registers of `c`. -/
theorem Machine.Inv.update (h : m.Inv initial) {v : V} (hT : T.Running v) :
    ((m.setRegs c v).setThread (m.current c) T).Inv initial := by
  refine ⟨h.apart, fun c' => ?_, fun t ht => ?_⟩
  · show (Function.update m.threads (m.current c) T (m.current c')).Running
        (Function.update m.regs c v c')
    by_cases hc : c' = c
    · subst hc
      rw [update_self, update_self]
      exact hT
    · rw [update_of_ne hc, update_of_ne fun heq => hc (h.apart c' c heq)]
      exact h.running c'
  · have hne : t ≠ m.current c := fun heq => ht c heq.symm
    show (Function.update m.threads (m.current c) T t).Waiting initial
    rw [update_of_ne hne]
    exact h.waiting t ht

/-- The same with the registers left alone. -/
theorem Machine.Inv.setCurrent (h : m.Inv initial) (hT : T.Running (m.regs c)) :
    (m.setThread (m.current c) T).Inv initial := by
  have hregs : m.setRegs c (m.regs c) = m := by rw [Machine.setRegs, Function.update_eq_self]
  have := h.update (c := c) hT
  rwa [hregs] at this

/-- A thread that never ran changes. -/
theorem Machine.Inv.setFresh (h : m.Inv initial) {t : Nat} (ht : (m.threads t).ran = false)
    (hT : T.Waiting initial) : (m.setThread t T).Inv initial := by
  have hne : ∀ c, m.current c ≠ t := by
    rintro c rfl
    exact nomatch (h.running c).ran.symm.trans ht
  refine ⟨h.apart, fun c => ?_, fun u hu => ?_⟩
  · show (Function.update m.threads t T (m.current c)).Running (m.regs c)
    rw [update_of_ne (hne c)]
    exact h.running c
  · show (Function.update m.threads t T u).Waiting initial
    by_cases hut : u = t
    · subst hut
      rw [update_self]
      exact hT
    · rw [update_of_ne hut]
      exact h.waiting u hu

/-! ## The steps -/

/-- The value a thread is to see, whether it ran and whether it is dead do not matter for its
guards. -/
theorem Thread.Guarded.same (h : t.Guarded) (dead dirty ran : Bool) (left : V) :
    ({ t with dead := dead, fpuDirty := dirty, left := left, ran := ran } : Thread V).Guarded :=
  ⟨h.mark, h.stacked, h.outer, h.stored, h.amx, h.ready⟩

/-- Outside a section there is no guard. -/
theorem Thread.Guarded.sections_eq (h : t.Guarded) (hout : t.inKernelFpu = false) :
    t.sections = [] := by
  by_contra hne
  exact nomatch (h.mark.2 hne).symm.trans hout

theorem Thread.Running.leave (h : t.Running r) (hout : t.inKernelFpu = false) :
    ({ (if t.hasUnsavedFpuState then { t with area := some r } else t) with fpuDirty := false } :
      Thread V).Waiting
      initial := by
  have hsections := h.guarded.sections_eq hout
  have hran := h.ran
  have hready := h.guarded.ready
  have hon := h.on
  unfold Thread.OnCpu at hon
  cases hsave : t.hasUnsavedFpuState with
  | true =>
    have huses : t.usesFpu = true := by simp_all [Thread.hasUnsavedFpuState]
    refine ⟨⟨h.guarded.mark, h.guarded.stacked, h.guarded.outer, huses.symm, h.guarded.amx, hready⟩,
      fun hno => absurd (hran.symm.trans hno) (by decide), fun he => ⟨hsections, fun _ => ?_⟩⟩
    specialize hon he
    have hr : r = t.left := by
      cases hk : t.isKthread <;> simp_all
    rw [hr]
    rfl
  | false =>
    refine ⟨h.guarded.same ..,
      fun hno => absurd (hran.symm.trans hno) (by decide), fun he => ⟨hsections, fun hdead => ?_⟩⟩
    -- only a kernel thread with a clear dirty flag is not saved, and its area is up to date
    specialize hon he
    have huses := hready he
    change t.dead = false at hdead
    simp_all [Thread.hasUnsavedFpuState]

theorem Thread.Waiting.enter (r : V) (h : t.Waiting initial) (hdead : t.dead = false) :
    ({ t with ran := true } : Thread V).Running (if t.usesFpu then t.area.getD r else r) := by
  refine ⟨h.guarded.same .., rfl, fun he => ?_⟩
  obtain ⟨hsections, harea⟩ := h.off he
  unfold Thread.OnCpu
  simp [h.guarded.ready he, harea hdead, hsections]

theorem Machine.Inv.switchTo (h : m.Inv initial) (hnext : ∀ c', m.current c' ≠ next)
    (hout : (m.threads (m.current c)).inKernelFpu = false) (hdead : (m.threads next).dead = false) :
    (m.switchTo c next).Inv initial := by
  constructor
  · intro d d' heq
    change Function.update m.current c next d = Function.update m.current c next d' at heq
    by_cases hd : d = c <;> by_cases hd' : d' = c
    · rw [hd, hd']
    · rw [hd, update_self, update_of_ne hd'] at heq
      exact absurd heq.symm (hnext d')
    · rw [hd', update_self, update_of_ne hd] at heq
      exact absurd heq (hnext d)
    · rw [update_of_ne hd, update_of_ne hd'] at heq
      exact h.apart d d' heq
  · intro d
    by_cases hd : d = c
    · subst hd
      simp only [Machine.switchTo, update_self]
      exact (h.waiting next hnext).enter _ hdead
    · simp only [Machine.switchTo, update_of_ne hd, update_of_ne (hnext d)]
      rw [update_of_ne fun heq => hd (h.apart d c heq)]
      exact h.running d
  · intro t ht
    have htnext : t ≠ next :=
      fun heq => ht c (by simp only [Machine.switchTo, update_self]; exact heq.symm)
    simp only [Machine.switchTo, update_of_ne htnext]
    by_cases htc : t = m.current c
    · subst htc
      rw [update_self]
      exact (h.running c).leave hout
    · rw [update_of_ne htc]
      refine h.waiting t fun d hd => ?_
      by_cases hdc : d = c
      · exact htc (by rw [← hdc]; exact hd.symm)
      · exact ht d (by simp only [Machine.switchTo, update_of_ne hdc]; exact hd)

theorem Thread.Running.begin (h : t.Running r) : (t.beginKernelFpu r).Running r := by
  have hg := h.guarded
  unfold Thread.beginKernelFpu
  split
  · rename_i hin
    refine ⟨⟨by simp [hin], ?_, fun he => ?_, hg.stored, hg.amx, hg.ready⟩, h.ran, fun he => ?_⟩
    · cases hsec : t.sections with
      | nil => exact absurd hsec (hg.mark.1 hin)
      | cons s rest => exact ⟨rfl, hsec ▸ hg.stacked⟩
    · simpa using hg.outer he
    · have hon := h.on he
      have hne := hg.mark.1 hin
      unfold Thread.OnCpu at hon ⊢
      simp_all
  · rename_i hin
    have hsections := hg.sections_eq (Bool.not_eq_true _ ▸ hin)
    split
    · rename_i hsave
      rw [Bool.and_eq_true, Bool.not_eq_true'] at hsave
      refine ⟨⟨by simp, ?_, fun he => ?_, hsave.1.symm, hg.amx, hg.ready⟩, h.ran, fun he => ?_⟩
      · simp [hsections, Stacked]
      · simp [hsections, hsave.2]
      · have hon := h.on he
        unfold Thread.OnCpu at hon ⊢
        simp_all
    · rename_i hsave
      refine ⟨⟨by simp, ?_, fun he => ?_, hg.stored, hg.amx, hg.ready⟩, h.ran, fun he => ?_⟩
      · simp [hsections, Stacked]
      · have huses := hg.ready he
        simp_all
      · have huses := hg.ready he
        have hon := h.on he
        unfold Thread.OnCpu at hon ⊢
        simp_all

theorem Stacked.tail {s : KernelFpuSection} {rest : List KernelFpuSection}
    (h : Stacked (s :: rest)) :
    Stacked rest ∧ (s ≠ .nested → rest = []) ∧ (s = .nested → rest ≠ []) := by
  cases rest with
  | nil => exact ⟨trivial, fun _ => rfl, fun heq => absurd heq h⟩
  | cons s' rest => exact ⟨h.2, fun hne => absurd h.1 hne, fun _ => List.cons_ne_nil _ _⟩

theorem Thread.Running.ends (h : t.Running r) :
    (t.endKernelFpu r).1.Running (t.endKernelFpu r).2 := by
  have hg := h.guarded
  unfold Thread.endKernelFpu
  cases hsec : t.sections with
  | nil => exact h
  | cons s rest =>
    obtain ⟨hstacked, hlast, hmore⟩ := (hsec ▸ hg.stacked : Stacked (s :: rest)).tail
    have hin : t.inKernelFpu = true := hg.mark.2 (by rw [hsec]; exact List.cons_ne_nil _ _)
    cases s with
    | nested =>
      have hrest := hmore rfl
      refine ⟨⟨by simp [hin, hrest], hstacked, fun he => ?_, hg.stored, hg.amx, hg.ready⟩,
        h.ran, fun he => ?_⟩
      · have := hg.outer he
        simp_all
      · have hon := h.on he
        unfold Thread.OnCpu at hon ⊢
        simp_all
    | direct =>
      obtain rfl := hlast (by decide)
      refine ⟨⟨by simp, trivial, fun he => by simp, hg.stored, hg.amx, hg.ready⟩,
        h.ran, fun he => ?_⟩
      have huses := hg.ready he
      have houter := (hg.outer he).2
      have hon := h.on he
      unfold Thread.OnCpu at hon ⊢
      simp_all
    | saved =>
      obtain rfl := hlast (by decide)
      refine ⟨⟨by simp, trivial, fun he => by simp, hg.stored, hg.amx, hg.ready⟩,
        h.ran, fun he => ?_⟩
      have houter := (hg.outer he).1
      have hon := h.on he
      unfold Thread.OnCpu at hon ⊢
      simp_all

/-- Afterwards there is an area, with the old contents if there were any. -/
theorem Thread.Guarded.newArea (h : t.Guarded)
    (hT : T = t.requestAmxContext initial ∨ T = t.enableFpuContext initial) :
    T = { t with area := some (t.area.getD initial), usesFpu := true, usesAmx := T.usesAmx } := by
  have hstored := h.stored
  rcases hT with rfl | rfl
  · unfold Thread.requestAmxContext
    split
    · rename_i hamx
      have huses := h.amx hamx
      rw [huses] at hstored
      obtain ⟨v, hv⟩ := Option.isSome_iff_exists.1 hstored
      rw [hv, Option.getD_some, ← hv, ← huses]
    · rfl
  · unfold Thread.enableFpuContext
    cases harea : t.area with
    | none => rfl
    | some v =>
      rw [harea] at hstored
      dsimp only
      rw [Option.getD_some, ← harea, show true = t.usesFpu from hstored]

theorem Thread.Running.newArea (h : t.Running r)
    (hT : T = t.requestAmxContext initial ∨ T = t.enableFpuContext initial) : T.Running r := by
  have hg := h.guarded
  rw [hg.newArea hT]
  refine ⟨⟨hg.mark, hg.stacked, hg.outer, rfl, fun _ => rfl, fun _ => rfl⟩, h.ran, fun he => ?_⟩
  obtain ⟨v, hv⟩ := Option.isSome_iff_exists.1 (hg.stored.trans (hg.ready he))
  have hon := h.on he
  unfold Thread.OnCpu at hon ⊢
  simpa only [hv, Option.getD_some] using hon

/-- A thread that gets its area before it first runs gets the initial state. -/
theorem Thread.Waiting.setUp (h : t.Waiting initial) (hran : t.ran = false)
    (hT : T = t.requestAmxContext initial ∨ T = t.enableFpuContext initial) :
    ({ T with early := true } : Thread V).Waiting initial := by
  obtain ⟨hleft, hsections, harea⟩ := h.fresh hran
  have hg := h.guarded
  have hinitial : t.area.getD initial = initial := by
    cases hv : t.area with
    | none => rfl
    | some v => exact harea v hv
  rw [hg.newArea hT, hinitial]
  refine ⟨⟨hg.mark, hg.stacked, fun _ => ?_, rfl, fun _ => rfl, fun _ => rfl⟩,
    fun _ => ⟨hleft, hsections, ?_⟩, fun _ => ⟨hsections, fun _ => ?_⟩⟩
  · rw [hsections]
    simp
  · rintro v ⟨⟩
    rfl
  · rw [hleft]

/-- **One step** keeps every thread's value where it belongs. -/
theorem Machine.Inv.step (h : m.Inv initial) {e : Event V} (hstep : Step initial m e m') :
    m'.Inv initial := by
  cases hstep with
  | switchTo c next hnext hout hdead => exact h.switchTo hnext hout hdead
  | beginKernelFpu c => exact h.setCurrent (h.running c).begin
  | endKernelFpu c => exact h.update (h.running c).ends
  | requestAmx c => exact h.setCurrent ((h.running c).newArea (.inl rfl))
  | enable c => exact h.setCurrent ((h.running c).newArea (.inr rfl))
  | setUp t amx hran =>
    have hne : ∀ c, m.current c ≠ t := by
      rintro c rfl
      exact nomatch (h.running c).ran.symm.trans hran
    refine h.setFresh hran ((h.waiting t hne).setUp hran ?_)
    cases amx
    · exact .inr rfl
    · exact .inl rfl
  | userCode c v huser hsections =>
    have hrun := h.running c
    refine h.update ⟨hrun.guarded.same .., hrun.ran, fun _ => ?_⟩
    simp [Thread.OnCpu, huser, hsections]
  | kernelCode c v hsections =>
    have hrun := h.running c
    refine h.update ⟨hrun.guarded.same .., hrun.ran, fun he => ?_⟩
    have hon := hrun.on he
    unfold Thread.OnCpu at hon ⊢
    cases hk : (m.threads (m.current c)).isKthread <;> simp_all
  | exit c =>
    have hrun := h.running c
    exact h.setCurrent ⟨hrun.guarded.same .., hrun.ran, hrun.on⟩

theorem reachable_inv (h : (system initial).Reachable m) : m.Inv initial := by
  refine h.invariant (I := Machine.Inv initial) (fun _ hinit => Init.inv hinit)
    fun _ _ hinv hstep => ?_
  obtain ⟨_, hstep⟩ := hstep
  exact hinv.step hstep

/-- `end_kernel_fpu` changes neither what a thread is nor what it left. -/
theorem Thread.endKernelFpu_same (t : Thread V) (r : V) : (t.endKernelFpu r).1.early = t.early ∧
    (t.endKernelFpu r).1.isKthread = t.isKthread ∧ (t.endKernelFpu r).1.left = t.left ∧
    (t.endKernelFpu r).1.sections = t.sections.tail := by
  unfold Thread.endKernelFpu
  split <;> simp [*]

/-- **Every thread finds its own values.**  In every run, a thread that had a save area before it
first ran and is switched in finds in the registers what it left there itself.  So does a user
thread when its outermost section ends, and it is in no section then; the end of a nested one leaves
the registers alone. -/
theorem fpu_isolated (h : (system initial).Reachable m) {e : Event V}
    (hstep : Step initial m e m') :
    (∀ c next, e = .switchTo c next → (m.threads next).early = true →
      m'.current c = next ∧ m'.regs c = (m.threads next).left) ∧
    ∀ c, e = .endKernelFpu c → (m.threads (m.current c)).early = true →
      (m.threads (m.current c)).isKthread = false →
      ((m.threads (m.current c)).sections.length = 1 → m'.regs c = (m.threads (m.current c)).left ∧
        (m'.threads (m.current c)).inKernelFpu = false) ∧
      (1 < (m.threads (m.current c)).sections.length → m'.regs c = m.regs c ∧
        (m'.threads (m.current c)).inKernelFpu = true) := by
  have hbefore := reachable_inv h
  have hinv := hbefore.step hstep
  constructor
  · rintro c next rfl he
    cases hstep with
    | switchTo _ _ hnext hout hdead =>
      have hcur : (m.switchTo c next).current c = next := update_self ..
      have hon := (hinv.running c).on
      have hsections := (hbefore.waiting next hnext |>.off he).1
      rw [hcur] at hon
      have hthread : (m.switchTo c next).threads next = { m.threads next with ran := true } :=
        update_self ..
      rw [hthread] at hon
      refine ⟨hcur, ?_⟩
      have := hon he
      simp only [Thread.OnCpu, hsections, if_true] at this
      split at this
      · exact this.1
      · exact this
  · rintro c rfl he huser
    cases hstep with
    | endKernelFpu =>
      have hthread : (m.endKernelFpu c).threads (m.current c) =
          ((m.threads (m.current c)).endKernelFpu (m.regs c)).1 := update_self ..
      have hregs : (m.endKernelFpu c).regs c =
          ((m.threads (m.current c)).endKernelFpu (m.regs c)).2 := update_self ..
      have hrun : ((m.endKernelFpu c).threads (m.current c)).Running ((m.endKernelFpu c).regs c) :=
        hinv.running c
      have hguarded := (hbefore.running c).guarded
      rw [hthread] at hrun ⊢
      generalize m.threads (m.current c) = t at *
      obtain ⟨hearly, hkind, hleft, htail⟩ := t.endKernelFpu_same (m.regs c)
      constructor
      · intro hone
        have hnone : (t.endKernelFpu (m.regs c)).1.sections = [] := by
          rw [htail, ← List.length_eq_zero_iff, List.length_tail, hone]
        have hon := hrun.on (hearly.trans he)
        simp only [Thread.OnCpu, hkind.trans huser, hnone, if_true, Bool.false_eq_true,
          if_false] at hon
        refine ⟨hon.trans hleft, ?_⟩
        rw [← Bool.not_eq_true, hrun.guarded.mark]
        exact not_not.2 hnone
      · intro hmore
        refine ⟨?_, hrun.guarded.mark.2 fun hnone => ?_⟩
        · -- the innermost of several guards is a nested one
          have hstacked := hguarded.stacked
          rw [hregs]
          unfold Thread.endKernelFpu
          cases hsections : t.sections with
          | nil => rfl
          | cons s rest =>
            rw [hsections] at hstacked hmore
            cases s with
            | nested => rfl
            | direct => simp [hstacked.tail.2.1 (by decide)] at hmore
            | saved => simp [hstacked.tail.2.1 (by decide)] at hmore
        · rw [htail, ← List.length_eq_zero_iff, List.length_tail] at hnone
          omega

/-- CPU `c` starts on boot thread `2 * c`; the odd ones are user threads. -/
private def booted : Machine Nat where
  regs _ := 9
  current c := 2 * c
  threads t := { isKthread := t % 2 == 0, left := 0, ran := t % 2 == 0 }

theorem booted_init : Init 0 booted := by
  refine ⟨fun c c' h => ?_, fun c => ?_, fun t => rfl⟩
  · simp only [booted] at h
    omega
  · simp [booted]

/-- User thread 1 leaves 5 in the registers; kernel code writes 7 in its section, in which there was
another. -/
private def inside : { m : Machine Nat // (system 0).Reachable m } :=
  have h : (system 0).Reachable booted := .init booted_init
  have h := h.step ⟨_, .setUp 1 false rfl⟩
  have h := h.step ⟨_, .switchTo 0 1 (fun c => show 2 * c ≠ 1 by omega) rfl rfl⟩
  have h := h.step ⟨_, .userCode 0 5 rfl rfl⟩
  have h := h.step ⟨_, .beginKernelFpu 0⟩
  have h := h.step ⟨_, .beginKernelFpu 0⟩
  have h := h.step ⟨_, .kernelCode 0 7 (by decide)⟩
  have h := h.step ⟨_, .endKernelFpu 0⟩
  ⟨_, h⟩

/-- The section ends, and the boot thread writes 8 in one of its own. -/
private def away : { m : Machine Nat // (system 0).Reachable m } :=
  have h := inside.2.step ⟨_, .endKernelFpu 0⟩
  have h :=
    h.step ⟨_, .switchTo 0 0 (Nat.rec (by decide) fun c _ => show 2 * (c + 1) ≠ 0 by omega) rfl rfl⟩
  have h := h.step ⟨_, .beginKernelFpu 0⟩
  have h := h.step ⟨_, .kernelCode 0 8 (by decide)⟩
  have h := h.step ⟨_, .endKernelFpu 0⟩
  ⟨_, h⟩

/-- Thread 1 finds its 5 after both. -/
theorem fpu_isolated_sections : ∃ m₁ m₂ m₃ m₄ : Machine Nat,
    Step 0 m₁ (.endKernelFpu 0) m₂ ∧ m₁.regs 0 = 7 ∧ m₂.regs 0 = 5 ∧
      Step 0 m₃ (.switchTo 0 1) m₄ ∧ m₃.regs 0 = 8 ∧ m₄.regs 0 = 5 := by
  have hends : Step 0 inside.1 (.endKernelFpu 0) (inside.1.endKernelFpu 0) := .endKernelFpu 0
  have hback : Step 0 away.1 (.switchTo 0 1) (away.1.switchTo 0 1) :=
    .switchTo 0 1 (Nat.rec (by decide) fun c _ => show 2 * (c + 1) ≠ 1 by omega) rfl rfl
  exact ⟨_, _, _, _, hends, rfl, (((fpu_isolated inside.2 hends).2 0 rfl rfl rfl).1 rfl).1,
    hback, rfl, ((fpu_isolated away.2 hback).1 0 1 rfl rfl).2⟩

end Steps

end Erebus.Sched.Fpu
