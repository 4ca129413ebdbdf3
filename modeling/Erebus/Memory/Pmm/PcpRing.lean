import Erebus.Memory.Pmm.Invariant

/-!
# One per-CPU list

The calls of `MobilityZone::alloc_pages` and `free_page` that go through one list, one access of the
list at a time. What `extract_block_internal` finds is arbitrary, and between any two accesses the
list may be tuned again.
-/

namespace Erebus.Pmm.PcpList

/-- What is done to the ring. A pop has what it returned. -/
inductive Move where
  | push (page : Nat)
  | popHot (block : Option Nat)
  | popCold (block : Option Nat)

/-- The same on the blocks the ring holds, oldest first; `none` where one is overwritten, or a pop
finds none or another block than it should. -/
def Move.apply (blocks : List Nat) : Move → Option (List Nat)
  | .push page => if blocks.length < maxCapacity then some (blocks ++ [page]) else none
  | .popHot block => if block.isSome ∧ blocks.getLast? = block then some blocks.dropLast else none
  | .popCold block => if block.isSome ∧ blocks.head? = block then some blocks.tail else none

/-- Where the CPU is: in `batch_refill_pcp`, before `pop_hot`, in `batch_drain_pcp`, or before
`push_hot`. -/
inductive Phase where
  | idle
  | empty
  | refill (batch refilled : Nat)
  | popHot
  | full (page : Nat)
  | drain (left page : Nat)
  | push (page : Nat)

/-- The list, the CPU, and all that was done to the ring. -/
structure Machine where
  list : PcpList
  phase : Phase := .idle
  moves : List Move := []

namespace Machine

/-- A call starts, the CPU goes on (in a refill, with the block the zone gave), or somebody tunes
the list. -/
inductive Event where
  | allocPages
  | freePage (page : Nat)
  | next (block : Option Nat)
  | tune (zoneFreePages : Nat)

def move (m : Machine) (list : PcpList) (phase : Phase) (mv : Move) : Machine :=
  ⟨list, phase, m.moves ++ [mv]⟩

/-- The next access of a call. -/
def next (m : Machine) (block : Option Nat) : Machine :=
  match m.phase with
  | .idle => m
  | .empty => { m with phase := .refill m.list.batch 0 }
  | .refill batch refilled =>
    match (if refilled < batch then block else none) with
    | some p => m.move (m.list.pushHot p) (.refill batch (refilled + 1)) (.push p)
    | none => { m with phase := if 0 < refilled then .popHot else .idle }
  | .popHot =>
    m.move ((m.list.popHot.map Prod.snd).getD m.list) .idle (.popHot (m.list.popHot.map Prod.fst))
  | .full page => { m with phase := .drain (min m.list.batch m.list.count) page }
  | .drain 0 page => { m with phase := .push page }
  | .drain (left + 1) page =>
    m.move ((m.list.popCold.map Prod.snd).getD m.list) (.drain left page)
      (.popCold (m.list.popCold.map Prod.fst))
  | .push page => m.move (m.list.pushHot page) .idle (.push page)

/-- One event; a call starts when the last one has ended. -/
def step (order : Nat) (m : Machine) : Event → Machine
  | .allocPages =>
    match m.phase with
    | .idle => { m with phase := if m.list.count = 0 then .empty else .popHot }
    | _ => m
  | .freePage page =>
    match m.phase with
    | .idle => { m with phase := if m.list.needsDrain then .full page else .push page }
    | _ => m
  | .next block => m.next block
  | .tune zoneFreePages => { m with list := m.list.tune zoneFreePages order }

/-- All events after the list was first tuned. -/
def run (order zoneFreePages : Nat) (events : List Event) : Machine :=
  events.foldl (step order) { list := tune {} zoneFreePages order }

/-- What the list is like in a phase: room for what is pushed, blocks for what is popped. -/
def PhaseOk (count : Nat) : Phase → Prop
  | .idle => True
  | .empty => count = 0
  | .refill batch refilled => count = refilled ∧ refilled ≤ batch ∧ batch ≤ maxCapacity
  | .popHot | .full _ => count ≠ 0
  | .drain left _ => left ≤ count ∧ count < maxCapacity + left
  | .push _ => count < maxCapacity

structure Inv (m : Machine) : Prop where
  ok : m.list.Ok
  phase : PhaseOk m.list.count m.phase
  moves : m.moves.foldlM Move.apply [] = some m.list.toList

variable {m : Machine} {list : PcpList} {phase : Phase} {mv : Move} {p : Nat}

theorem Inv.move (h : m.Inv) (hok : list.Ok) (hphase : PhaseOk list.count phase)
    (hmv : mv.apply m.list.toList = some list.toList) : (m.move list phase mv).Inv := by
  refine ⟨hok, hphase, ?_⟩
  rw [Machine.move, List.foldlM_append, h.moves]
  simpa using hmv

theorem Inv.goto (h : m.Inv) (hphase : PhaseOk m.list.count phase) :
    Inv { m with phase := phase } :=
  ⟨h.ok, hphase, h.moves⟩

theorem Inv.push (h : m.Inv) (hroom : m.list.count < maxCapacity)
    (hphase : PhaseOk (m.list.count + 1) phase) :
    (m.move (m.list.pushHot p) phase (.push p)).Inv := by
  obtain ⟨hok, hlist⟩ := h.ok.pushHot hroom p
  refine h.move hok hphase ?_
  rw [hlist, Move.apply, if_pos (by simpa [toList] using hroom)]

theorem Inv.next (h : m.Inv) (block : Option Nat) : (m.next block).Inv := by
  have hnow := h.phase
  have hcount := h.ok.count_le
  have hbatch := h.ok.batch_le.trans h.ok.high_le
  have hone := h.ok.batch_pos
  rw [Machine.next]
  cases hphase : m.phase with rw [hphase] at hnow
  | idle => exact h
  | empty => exact h.goto ⟨hnow, Nat.zero_le _, hbatch⟩
  | refill batch refilled =>
    obtain ⟨rfl, hle, hcap⟩ := hnow
    dsimp only
    split
    · next p hp =>
      have hlt : m.list.count < batch := by
        by_contra hge
        simp [hge] at hp
      exact h.push (by omega) ⟨rfl, hlt, hcap⟩
    · apply h.goto
      split
      · exact Nat.ne_of_gt ‹0 < _›
      · trivial
  | popHot =>
    obtain ⟨p, list, hpop, hok, hlist, -⟩ := h.ok.popHot hnow
    rw [hpop]
    refine h.move hok trivial ?_
    simp [Move.apply, hlist]
  | full page =>
    unfold PhaseOk at hnow
    exact h.goto ⟨Nat.min_le_right .., by omega⟩
  | drain left page =>
    obtain ⟨hle, hlt⟩ := hnow
    cases left with
    | zero => exact h.goto hlt
    | succ left =>
      obtain ⟨p, list, hpop, hok, hlist, hless, -⟩ := h.ok.popCold (by omega)
      dsimp only
      rw [hpop]
      refine h.move hok ?_ (by simp [Move.apply, hlist])
      simp only [PhaseOk, Option.map_some, Option.getD_some]
      omega
  | push page => exact h.push hnow trivial

theorem Inv.step (h : m.Inv) (order : Nat) (e : Event) : (m.step order e).Inv := by
  cases e with
  | allocPages =>
    rw [Machine.step]
    split
    · apply h.goto
      split <;> assumption
    · exact h
  | freePage page =>
    rw [Machine.step]
    split
    · have hhigh := h.ok.batch_pos.trans h.ok.batch_le
      have hcap := h.ok.high_le
      apply h.goto
      by_cases hdrain : m.list.high ≤ m.list.count
      · simp only [needsDrain, hdrain, decide_true, if_true, PhaseOk]
        omega
      · simp only [needsDrain, hdrain, decide_false, Bool.false_eq_true, if_false, PhaseOk]
        omega
    · exact h
  | next block => exact h.next block
  | tune zoneFreePages =>
    exact ⟨tune_ok h.ok.head_lt h.ok.tail_eq h.ok.count_le _ _, h.phase, h.moves⟩

end Machine

open Machine

end Erebus.Pmm.PcpList
