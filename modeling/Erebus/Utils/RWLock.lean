import Erebus.Lib.System
import Erebus.Lib.PackedWord

/-!
# The reader/writer spinlock

`RWLock` and the `TicketSpinlock` in it. Every access to an atomic is a step of its own;
`wait_monitor` and `wait_time` only pass time.

* `RWLock`, `Call`, `Step`: the words, where a call is, and one atomic access of one call.
* `system`: runs with fewer than `2 ^ 24` readers in the count and fewer than `2 ^ 32` writers in
  the queue.
* `Inv`: the word, from where the calls are.
* `Inv.drain`, `Inv.progress`: how some waiter gets inside.
* `Sound`, `rwlock_sound`: what callers may rely on, in every state of every run.
-/

namespace Erebus.Utils

open PackedWord
open Function (update update_self update_of_ne)

structure TicketSpinlock where
  nowServing : BitVec 32
  nextTicket : BitVec 32

structure RWLock where
  state : BitVec 32
  writeQueue : TicketSpinlock

namespace RWLock

def writerLocked : BitVec 32 := 1#32 <<< 0

def writerWaiting : BitVec 32 := 1#32 <<< 1

def writerMask : BitVec 32 := writerLocked ||| writerWaiting

def readerInc : BitVec 32 := 1#32 <<< 8

/-- Where a call is. `number` counts the tickets before the caller's; no step looks at it. -/
inductive Call
  | idle
  /-- `read_lock`, about to count itself. -/
  | entering
  /-- A writer was there: about to undo the count. -/
  | backing
  /-- About to load the word again. -/
  | watching
  /-- Between `read_lock` and `read_unlock`. -/
  | reading
  /-- `write_lock`, about to take a ticket. -/
  | arriving
  /-- About to load `m_now_serving`. -/
  | queued (ticket : BitVec 32) (number : Nat)
  /-- About to set `WRITER_WAITING`. -/
  | announcing (number : Nat)
  /-- About to try the hand-over. -/
  | waiting (number : Nat)
  /-- Between `write_lock` and `write_unlock`. -/
  | writing (number : Nat)
  /-- `TicketSpinlock::unlock`, about to load `m_now_serving`. -/
  | leaving (number : Nat)
  /-- About to store `m_now_serving`. -/
  | passing (serving : BitVec 32) (number : Nat)

namespace Call

/-- The caller is in the reader count. -/
def counted : Call → Bool
  | backing | reading => true
  | _ => false

def isQueued : Call → Bool
  | queued _ _ => true
  | _ => false

/-- The caller has the ticket lock. -/
def front : Call → Bool
  | announcing _ | waiting _ | writing _ | leaving _ | passing _ _ => true
  | _ => false

def isWaiting : Call → Bool
  | waiting _ => true
  | _ => false

def isWriting : Call → Bool
  | writing _ => true
  | _ => false

/-- The writer has been inside. -/
def entered : Call → Bool
  | writing _ | leaving _ | passing _ _ => true
  | _ => false

def number : Call → Option Nat
  | queued _ n | announcing n | waiting n | writing n | leaving n | passing _ n => some n
  | _ => none

/-- Inside the critical section. -/
def inside : Call → Bool
  | reading | writing _ => true
  | _ => false

/-- Inside `read_lock` or `write_lock`. -/
def waits : Call → Bool
  | entering | backing | watching | arriving | queued _ _ | announcing _ | waiting _ => true
  | _ => false

end Call

open Call (counted isQueued)

/-- A lock and its callers. -/
structure Machine (ι : Type*) where
  lock : RWLock
  calls : ι → Call
  /-- Tickets handed out so far. -/
  tickets : Nat
  /-- Writers that have been inside, in this order. -/
  entered : List Nat

namespace Machine

variable {ι : Type*} [DecidableEq ι]

def initial : Machine ι :=
  { lock := ⟨0#32, ⟨0#32, 0#32⟩⟩, calls := fun _ => .idle, tickets := 0, entered := [] }

/-- The caller `a` moves on, and the word changes. -/
def move (s : Machine ι) (a : ι) (call : Call) (state : BitVec 32) : Machine ι :=
  { s with calls := Function.update s.calls a call, lock := { s.lock with state := state } }

/-- The caller `a` moves on. -/
def set (s : Machine ι) (a : ι) (call : Call) : Machine ι := s.move a call s.lock.state

/-- One step of the caller `a`. -/
inductive Step (s : Machine ι) (a : ι) : Machine ι → Prop
  | readLock : s.calls a = .idle → Step s a (s.set a .entering)
  | count : s.calls a = .entering →
        Step s a (s.move a (if s.lock.state &&& writerMask = 0#32 then .reading else .backing)
          (s.lock.state + readerInc))
  | undo : s.calls a = .backing →
        Step s a
          (s.move a (if (s.lock.state - readerInc) &&& writerMask = 0#32 then .entering
          else .watching) (s.lock.state - readerInc))
  | watch : s.calls a = .watching →
        Step s a (s.set a (if s.lock.state &&& writerMask = 0#32 then .entering else .watching))
  | readUnlock : s.calls a = .reading → Step s a (s.move a .idle (s.lock.state - readerInc))
  | writeLock : s.calls a = .idle → Step s a (s.set a .arriving)
  | takeTicket : s.calls a = .arriving →
      Step s a { s.set a (.queued s.lock.writeQueue.nextTicket s.tickets) with
          lock := { s.lock with
            writeQueue :=
              { s.lock.writeQueue with nextTicket := s.lock.writeQueue.nextTicket + 1#32 } }
          tickets := s.tickets + 1 }
  | look (ticket : BitVec 32) (n : Nat) : s.calls a = .queued ticket n →
        Step s a
          (s.set a (if s.lock.writeQueue.nowServing = ticket then .announcing n
            else .queued ticket n))
  | announce (n : Nat) : s.calls a = .announcing n →
      Step s a (s.move a (.waiting n) (s.lock.state ||| writerWaiting))
  | handOver (n : Nat) : s.calls a = .waiting n → s.lock.state = writerWaiting →
        Step s a { s.move a (.writing n) writerLocked with entered := s.entered ++ [n] }
  | handOverFails (n : Nat) : s.calls a = .waiting n → s.lock.state ≠ writerWaiting → Step s a s
  | writeUnlock (n : Nat) : s.calls a = .writing n →
      Step s a (s.move a (.leaving n) (s.lock.state &&& ~~~writerLocked))
  | loadServing (n : Nat) : s.calls a = .leaving n →
      Step s a (s.set a (.passing s.lock.writeQueue.nowServing n))
  | storeServing (serving : BitVec 32) (n : Nat) : s.calls a = .passing serving n →
      Step s a { s.set a .idle with
          lock :=
            { s.lock with writeQueue := { s.lock.writeQueue with nowServing := serving + 1#32 } } }

variable [Fintype ι]

/-- What the count in the word and the tickets can tell apart. -/
structure Limited (s : Machine ι) : Prop where
  readers : census Call.counted s.calls < 2 ^ 24
  writers : census Call.isQueued s.calls < 2 ^ 32

variable (ι) in
def system : System (Machine ι) where
  init s := s = initial
  step s s' := (∃ a, Step s a s') ∧ s'.Limited

end Machine

/-! ## The word -/

/-- The word with two flags and a count. -/
def word (locked waiting : Bool) (readers : Nat) : BitVec 32 :=
  BitVec.ofNat 24 readers ++ BitVec.ofNat 8 (locked.toNat + 2 * waiting.toNat)

section

variable (locked waiting : Bool) (readers : Nat)

theorem writerMask_eq : writerMask = 0#24 ++ 3#8 := by decide

theorem readerInc_eq : readerInc = 1#24 ++ 0#8 := by decide

theorem word_mask :
    word locked waiting readers &&& writerMask = 0#32 ↔ locked = false ∧ waiting = false := by
  rw [word, writerMask_eq, BitVec.and_append, show (0#32) = 0#24 ++ 0#8 by decide, append_inj,
    BitVec.and_zero]
  revert locked waiting
  decide

theorem word_add : word locked waiting readers + readerInc = word locked waiting (readers + 1) := by
  rw [word, readerInc_eq, append_add_high, ← BitVec.ofNat_add]
  rfl

theorem word_sub : word locked waiting (readers + 1) - readerInc = word locked waiting readers := by
  rw [← word_add, BitVec.add_sub_cancel]

theorem word_announce : word locked false readers ||| writerWaiting = word locked true readers := by
  rw [word, word, show writerWaiting = 0#24 ++ 2#8 by decide, BitVec.or_append, BitVec.or_zero]
  congr 1
  revert locked
  decide

theorem word_unlock :
    word true waiting readers &&& ~~~writerLocked = word false waiting readers := by
  rw [word, word, show ~~~writerLocked = BitVec.allOnes 24 ++ ~~~1#8 by decide, BitVec.and_append,
    BitVec.and_allOnes]
  congr 1
  revert waiting
  decide

/-- Only a waiting writer without readers finds the word it hopes for. -/
theorem word_waiting (h : readers < 2 ^ 24) :
    word locked waiting readers = writerWaiting ↔ locked = false ∧
    waiting = true ∧ readers = 0 := by
  rw [word, show writerWaiting = BitVec.ofNat 24 0 ++ 2#8 by decide, append_inj]
  have hcount : BitVec.ofNat 24 readers = BitVec.ofNat 24 0 ↔ readers = 0 := by
    constructor
    · intro heq
      have := congrArg BitVec.toNat heq
      rwa [BitVec.toNat_ofNat, BitVec.toNat_ofNat, Nat.mod_eq_of_lt h] at this
    · rintro rfl
      rfl
  have hflags : BitVec.ofNat 8 (locked.toNat + 2 * waiting.toNat) = 2#8 ↔ locked = false ∧
      waiting = true := by
    revert locked waiting
    decide
  rw [hcount, hflags]
  tauto

/-- The count can be read off. -/
theorem word_shift (h : readers < 2 ^ 24) :
    (word locked waiting readers >>> 8).toNat = readers := by
  have hflags : (BitVec.ofNat 8 (locked.toNat + 2 * waiting.toNat)).toNat < 256 := BitVec.isLt _
  rw [word, BitVec.toNat_ushiftRight, toNat_append, Nat.shiftRight_eq_div_pow, BitVec.toNat_ofNat,
    Nat.mod_eq_of_lt h]
  omega

theorem writerLocked_eq : writerLocked = word true false 0 := by decide

end

/-- Tickets of one queue are told apart by 32 bits. -/
theorem ticket_eq {served n : Nat} (hle : served ≤ n) (hlt : n < served + 2 ^ 32) :
    BitVec.ofNat 32 served = BitVec.ofNat 32 n ↔ served = n := by
  constructor
  · intro h
    have := congrArg BitVec.toNat h
    rw [BitVec.toNat_ofNat, BitVec.toNat_ofNat] at this
    omega
  · rintro rfl
    rfl

theorem Call.isQueued_eq (c : Call) : c.isQueued = (c.number.isSome && !c.front) := by
  cases c <;> rfl

theorem Call.front_of_number {c : Call} (h : c.number = none) : c.front = false := by
  cases c <;> first | rfl | cases h

/-- A writer in the queue has the word of its ticket, one about to pass the lock on that of the
ticket served. -/
abbrev Call.Queues (c : Call) : Prop := ∀ t n, c = .queued t n → t = BitVec.ofNat 32 n

@[inherit_doc Call.Queues]
abbrev Call.Passes (served : Nat) (c : Call) : Prop :=
  ∀ v n, c = .passing v n → v = BitVec.ofNat 32 served

namespace Machine

variable {ι : Type*} [DecidableEq ι] [Fintype ι]

/-! ## The tickets -/

/-- Who has which ticket: `served` is the ticket of `holder`, or of the next one to become it. -/
structure Tickets (calls : ι → Call) (tickets served : Nat) (holder : Option ι) : Prop where
  front : ∀ a, (calls a).front = true ↔ holder = some a
  numbers : ∀ a n, (calls a).number = some n → served ≤ n ∧ n < tickets
  owner : ∀ a a' n, (calls a).number = some n → (calls a').number = some n → a = a'
  all : ∀ n, served ≤ n → n < tickets → ∃ a, (calls a).number = some n
  first : ∀ a, holder = some a → (calls a).number = some served
  ticket : ∀ a t n, calls a = .queued t n → t = BitVec.ofNat 32 n
  passing : ∀ a v n, calls a = .passing v n → v = BitVec.ofNat 32 served
  count : served + census Call.isQueued calls + holder.isSome.toNat = tickets

namespace Tickets

variable {calls : ι → Call} {tickets served : Nat} {holder : Option ι} {a : ι} {c : Call}
  (h : Tickets calls tickets served holder)
include h

theorem ticket_update (hticket : c.Queues) : ∀ b, (update calls a c b).Queues :=
  update_forall (p := Call.Queues) hticket h.ticket

theorem passing_update (hpassing : c.Passes served) : ∀ b, (update calls a c b).Passes served :=
  update_forall (p := Call.Passes served) hpassing h.passing

/-- A caller moves on with the ticket it has. -/
theorem keep {holder' : Option ι} (hnumber : c.number = (calls a).number)
    (hfront : ∀ b, (update calls a c b).front = true ↔ holder' = some b)
    (hfirst : ∀ b, holder' = some b → (calls b).number = some served) (hticket : c.Queues)
    (hpassing : c.Passes served)
    (hcount : served + census isQueued (update calls a c) + holder'.isSome.toNat = tickets) :
    Tickets (update calls a c) tickets served holder' := by
  have hnumbers : ∀ b, (update calls a c b).number = (calls b).number :=
    update_keeps Call.number hnumber
  constructor
  · exact hfront
  · intro b n hn
    rw [hnumbers] at hn
    exact h.numbers b n hn
  · intro b b' n hn hn'
    rw [hnumbers] at hn hn'
    exact h.owner b b' n hn hn'
  · intro n hle hlt
    obtain ⟨b, hb⟩ := h.all n hle hlt
    exact ⟨b, (hnumbers b).trans hb⟩
  · intro b hb
    rw [hnumbers]
    exact hfirst b hb
  · exact h.ticket_update hticket
  · exact h.passing_update hpassing
  · exact hcount

theorem quiet (hnumber : c.number = (calls a).number) (hfront : c.front = (calls a).front)
    (hticket : c.Queues) (hpassing : c.Passes served) :
    Tickets (update calls a c) tickets served holder := by
  refine h.keep hnumber (fun b => ?_) h.first hticket hpassing ?_
  · rw [update_keeps Call.front hfront b]
    exact h.front b
  · rw [census_update_same]
    · exact h.count
    · rw [Call.isQueued_eq, Call.isQueued_eq, hnumber, hfront]

/-- A reader moves on. -/
theorem reader (hold : (calls a).number = none) (hnew : c.number = none) :
    Tickets (update calls a c) tickets served holder := by
  refine h.quiet (by rw [hold, hnew])
    (by rw [Call.front_of_number hold, Call.front_of_number hnew]) ?_ ?_
  · rintro t n rfl
    cases hnew
  · rintro v n rfl
    cases hnew

/-- A writer takes a ticket. -/
theorem take (hold : (calls a).number = none) (hc : c = .queued (BitVec.ofNat 32 tickets) tickets) :
    Tickets (update calls a c) (tickets + 1) served holder := by
  have hnumber : ∀ b n, (update calls a c b).number = some n ↔ b = a ∧ tickets = n ∨
      (calls b).number = some n := by
    intro b n
    by_cases hb : b = a
    · subst hb
      rw [update_self, hc, hold]
      simp [Call.number]
    · rw [update_of_ne hb]
      simp [hb]
  have hfront : c.front = (calls a).front := by
    rw [hc, Call.front_of_number hold]
    rfl
  have hcount := h.count
  constructor
  · intro b
    rw [update_keeps Call.front hfront b]
    exact h.front b
  · intro b n hn
    rcases (hnumber b n).1 hn with ⟨-, rfl⟩ | hn
    · omega
    · have := h.numbers b n hn
      omega
  · intro b b' n hn hn'
    -- the new ticket is above all others
    rcases (hnumber b n).1 hn with ⟨hb, heq⟩ | hb <;> rcases (hnumber b' n).1 hn' with
      ⟨hb', heq'⟩ | hb'
    · rw [hb, hb']
    · exact absurd (h.numbers b' n hb').2 heq.not_gt
    · exact absurd (h.numbers b n hb).2 heq'.not_gt
    · exact h.owner b b' n hb hb'
  · intro n hle hlt
    rcases Nat.lt_or_eq_of_le (Nat.le_of_lt_succ hlt) with hlt | rfl
    · obtain ⟨b, hb⟩ := h.all n hle hlt
      exact ⟨b, (hnumber b n).2 (.inr hb)⟩
    · exact ⟨a, (hnumber a n).2 (.inl ⟨rfl, rfl⟩)⟩
  · intro b hb
    exact (hnumber b served).2 (.inr (h.first b hb))
  · apply h.ticket_update
    rw [hc]
    rintro t n ⟨⟩
    rfl
  · refine h.passing_update ?_
    rw [hc]
    nofun
  · have hcensus := census_update isQueued calls a c
    rw [Call.isQueued_eq (calls a), hold, hc] at hcensus
    rw [hc]
    have : census isQueued (update calls a (.queued (BitVec.ofNat 32 tickets) tickets)) + 0 =
        census isQueued calls + 1 := hcensus
    omega

/-- The next writer has the ticket lock. -/
theorem promote (hold : (calls a).number = some served) (hqueued : (calls a).front = false) :
    holder = none ∧ Tickets (update calls a (.announcing served)) tickets served (some a) := by
  have hnone : holder = none := by
    cases hh : holder with
    | none => rfl
    | some b =>
      have hb := h.owner b a served (h.first b hh) hold
      subst hb
      rw [(h.front b).2 hh] at hqueued
      cases hqueued
  subst hnone
  refine ⟨rfl, h.keep hold.symm (fun b => ?_) ?_ nofun nofun ?_⟩
  · by_cases hb : b = a
    · rw [hb, update_self]
      exact iff_of_true rfl rfl
    · rw [update_of_ne hb, h.front b]
      exact iff_of_false nofun fun hab => hb (Option.some.inj hab).symm
  · rintro b ⟨⟩
    exact hold
  · have hcensus := census_update isQueued calls a (.announcing served)
    have hcount := h.count
    rw [Call.isQueued_eq (calls a), hold, hqueued] at hcensus
    have hdown : census isQueued (update calls a (.announcing served)) + 1 =
        census isQueued calls + 0 := hcensus
    have hzero : served + census isQueued calls + 0 = tickets := hcount
    show served + _ + 1 = tickets
    omega

/-- The ticket lock goes to the next writer. -/
theorem pass (hholder : holder = some a) :
    Tickets (update calls a .idle) tickets (served + 1) none := by
  have hself : update calls a .idle a = .idle := update_self ..
  have hother : ∀ b, b ≠ a → update calls a .idle b = calls b := fun b hb => update_of_ne hb ..
  have hfirst := h.first a hholder
  have hstays : ∀ b n, (update calls a .idle b).number = some n → b ≠ a ∧
      (calls b).number = some n := by
    intro b n hn
    by_cases hb : b = a
    · rw [hb, hself] at hn
      cases hn
    · rw [hother b hb] at hn
      exact ⟨hb, hn⟩
  constructor
  · intro b
    by_cases hb : b = a
    · rw [hb, hself]
      exact iff_of_false nofun nofun
    · rw [hother b hb, h.front b, hholder]
      exact iff_of_false (fun hab => hb (Option.some.inj hab).symm) nofun
  · intro b n hn
    obtain ⟨hb, hn⟩ := hstays b n hn
    obtain ⟨hle, hlt⟩ := h.numbers b n hn
    refine ⟨Nat.lt_of_le_of_ne hle ?_, hlt⟩
    rintro rfl
    exact hb (h.owner b a _ hn hfirst)
  · intro b b' n hn hn'
    exact h.owner b b' n (hstays b n hn).2 (hstays b' n hn').2
  · intro n hle hlt
    obtain ⟨b, hb⟩ := h.all n (by omega) hlt
    refine ⟨b, ?_⟩
    rw [hother b]
    · exact hb
    · rintro rfl
      rw [hfirst] at hb
      cases hb
      omega
  · nofun
  · exact h.ticket_update nofun
  · intro b v n hp
    by_cases hb : b = a
    · rw [hb, hself] at hp
      cases hp
    · -- nobody else has the ticket lock
      rw [hother b hb] at hp
      have hfront := (h.front b).1 (by rw [hp]; rfl)
      rw [hholder] at hfront
      exact absurd (Option.some.inj hfront).symm hb
  · have hcensus := census_update isQueued calls a .idle
    have hcount := h.count
    rw [Call.isQueued_eq (calls a), (h.front a).2 hholder, Bool.not_true, Bool.and_false] at hcensus
    subst hholder
    have hsame : census isQueued (update calls a .idle) + 0 = census isQueued calls + 0 := hcensus
    have hone : served + census isQueued calls + 1 = tickets := hcount
    show served + 1 + _ + 0 = tickets
    omega

end Tickets

variable {s s' : Machine ι} {served : Nat} {holder : Option ι} {a : ι} {old c : Call}
  {state : BitVec 32}

/-! ## The word and the calls -/

/-- Where the writer with the ticket lock is. -/
def phase (s : Machine ι) : Option ι → Call
  | some a => s.calls a
  | none => .idle

/-- **The invariant.** -/
structure Inv (s : Machine ι) (served : Nat) (holder : Option ι) : Prop where
  tickets : Tickets s.calls s.tickets served holder
  nextTicket : s.lock.writeQueue.nextTicket = BitVec.ofNat 32 s.tickets
  nowServing : s.lock.writeQueue.nowServing = BitVec.ofNat 32 served
  state : s.lock.state = word (s.phase holder).isWriting (s.phase holder).isWaiting
    (census Call.counted s.calls)
  exclusive : (s.phase holder).isWriting = true → ∀ a, s.calls a ≠ .reading
  entered : s.entered = List.range (served + (s.phase holder).entered.toNat)
  limited : s.Limited

omit [Fintype ι] in
/-- The writer with the ticket lock is where it was after a step of somebody else. -/
theorem phase_of_ne
    (hcalls : s'.calls = update s.calls a c) (hne : holder ≠ some a) :
    s'.phase holder = s.phase holder := by
  cases holder with
  | none => rfl
  | some b =>
    show s'.calls b = s.calls b
    rw [hcalls, update_of_ne]
    rintro rfl
    exact hne rfl

omit [Fintype ι] in
theorem phase_self (hcalls : s'.calls = update s.calls a c) : s'.phase (some a) = c := by
  show s'.calls a = c
  rw [hcalls, update_self]

omit [DecidableEq ι] in
theorem initial_inv : Inv (initial : Machine ι) 0 none := by
  have hnone : ∀ p : Call → Bool, p .idle = false → census p (initial : Machine ι).calls = 0 := by
    intro p hp
    rw [census_eq_zero]
    exact fun _ => hp
  constructor
  · constructor
    · exact fun a => iff_of_false nofun nofun
    · nofun
    · nofun
    · intro n _ hlt
      exact absurd hlt (Nat.not_lt_zero n)
    · nofun
    · nofun
    · nofun
    · rw [hnone _ rfl]
      rfl
  · rfl
  · rfl
  · rw [hnone _ rfl]
    show (0#32) = word false false 0
    decide
  · nofun
  · rfl
  · constructor
    · rw [hnone _ rfl]
      decide
    · rw [hnone _ rfl]
      decide

/-- A step of a writer, as far as the readers are concerned. -/
theorem writer_reads (ha : s.calls a = old) (hold : old.counted = false)
    (hnew : c.counted = false) : census counted (update s.calls a c) = census counted s.calls ∧
      ∀ b, update s.calls a c b = .reading → s.calls b = .reading := by
  subst ha
  refine ⟨census_update_same (hnew.trans hold.symm), fun b hb => ?_⟩
  by_cases hab : b = a
  · rw [hab, update_self] at hb
    rw [hb] at hnew
    cases hnew
  · rwa [update_of_ne hab] at hb

theorem Limited.moved (h : s.Limited) (hcalls : s'.calls = update s.calls a c)
    (hcounted : c.counted = true → (s.calls a).counted = true)
    (hqueued : c.isQueued = true → (s.calls a).isQueued = true) : s'.Limited := by
  constructor
  · rw [hcalls]
    exact (census_update_le hcounted).trans_lt h.readers
  · rw [hcalls]
    exact (census_update_le hqueued).trans_lt h.writers

namespace Inv

variable (h : Inv s served holder) {n : Nat}
include h

omit [DecidableEq ι] in
/-- The word is free of writers if nobody with the ticket lock waits or is inside. -/
theorem mask_eq : s.lock.state &&& writerMask = 0#32 ↔
    (s.phase holder).isWriting = false ∧ (s.phase holder).isWaiting = false := by
  rw [h.state, word_mask]

omit [DecidableEq ι] in
theorem holder_ne (hfront : (s.calls a).front = false) : holder ≠ some a := by
  rw [ne_eq, ← h.tickets.front a, hfront]
  nofun

omit [DecidableEq ι] in
/-- Where the writer with the ticket lock is, and what the lock says of it. -/
theorem holder_of_front (ha : s.calls a = c) (hc : c.front = true) :
    holder = some a ∧ s.phase holder = c ∧ c.number = some served ∧
      s.lock.state = word c.isWriting c.isWaiting (census counted s.calls) ∧
      s.entered = List.range (served + c.entered.toNat) := by
  have hholder : holder = some a := (h.tickets.front a).1 (by rw [ha, hc])
  have hphase : s.phase holder = c := by
    rw [hholder]
    exact ha
  refine ⟨hholder, hphase, ?_, ?_, ?_⟩
  · rw [← ha]
    exact h.tickets.first a hholder
  · rw [← hphase]
    exact h.state
  · rw [← hphase]
    exact h.entered

/-- A caller without a ticket moves on, and the reader count with it. -/
theorem reader (ha : s.calls a = old) (hold : old.number = none) (hnew : c.number = none)
    (hstate : state = word (s.phase holder).isWriting (s.phase holder).isWaiting
      (census counted (update s.calls a c)))
    (hreading : c = .reading → (s.phase holder).isWriting = false)
    (hlimited : (s.move a c state).Limited) : Inv (s.move a c state) served holder := by
  subst ha
  have hphase : (s.move a c state).phase holder = s.phase holder :=
    phase_of_ne rfl (h.holder_ne (Call.front_of_number hold))
  constructor
  · exact h.tickets.reader hold hnew
  · exact h.nextTicket
  · exact h.nowServing
  · rw [hphase]
    exact hstate
  · rw [hphase]
    intro hwriting b hb
    by_cases hab : b = a
    · have hself : (s.move a c state).calls a = c := update_self ..
      rw [hab, hself] at hb
      rw [hreading hb] at hwriting
      cases hwriting
    · refine h.exclusive hwriting b ?_
      rw [← hb]
      exact (update_of_ne hab ..).symm
  · rw [hphase]
    exact h.entered
  · exact hlimited

/-- A caller without a ticket moves on, without touching the word. -/
theorem reader_set (ha : s.calls a = old) (hold : old.number = none) (hnew : c.number = none)
    (hcounted : c.counted = old.counted) (hreading : c ≠ .reading)
    (hlimited : (s.set a c).Limited) : Inv (s.set a c) served holder := by
  refine h.reader ha hold hnew ?_ (fun hc => absurd hc hreading) hlimited
  rw [h.state, census_update_same (by rw [hcounted, ha])]

/-- `read_lock` counts itself. -/
theorem count (ha : s.calls a = .entering)
    (hc : c = if s.lock.state &&& writerMask = 0#32 then .reading else .backing)
    (hlimited : (s.move a c (s.lock.state + readerInc)).Limited) :
    Inv (s.move a c (s.lock.state + readerInc)) served holder := by
  have hnew : c.counted = true ∧ c.number = none := by
    rw [hc]
    split <;> exact ⟨rfl, rfl⟩
  refine h.reader ha rfl hnew.2 ?_ ?_ hlimited
  · have hcensus := census_update counted s.calls a c
    rw [hnew.1, ha] at hcensus
    rw [show census counted (update s.calls a c) = census counted s.calls + 1 from hcensus,
      h.state, word_add]
  · intro hreading
    rw [hc] at hreading
    split at hreading
    · rename_i hfree
      exact (h.mask_eq.1 hfree).1
    · cases hreading

/-- A counted reader undoes its count. -/
theorem uncount (ha : s.calls a = old) (hcounted : old.counted = true) (hnew : c.counted = false)
    (hnumber : c.number = none) (hlimited : (s.move a c (s.lock.state - readerInc)).Limited) :
    Inv (s.move a c (s.lock.state - readerInc)) served holder ∧
      census counted (s.move a c (s.lock.state - readerInc)).calls + 1 = census counted s.calls ∧
      s.lock.state - readerInc = word (s.phase holder).isWriting (s.phase holder).isWaiting
        (census counted (update s.calls a c)) := by
  have hcensus := census_update counted s.calls a c
  rw [ha, hcounted, hnew] at hcensus
  have hdown : census counted (update s.calls a c) + 1 = census counted s.calls := hcensus
  have hold : old.number = none := by cases old <;> first | rfl | cases hcounted
  have hword : s.lock.state - readerInc = word (s.phase holder).isWriting (s.phase holder).isWaiting
      (census counted (update s.calls a c)) := by
    rw [h.state, ← hdown, word_sub]
  refine ⟨h.reader ha hold hnumber hword ?_ hlimited, hdown, hword⟩
  rintro rfl
  cases hnew

/-- A writer takes a ticket. -/
theorem takeTicket (ha : s.calls a = .arriving)
    (hc : c = .queued s.lock.writeQueue.nextTicket s.tickets) (hs' : s' = { s.set a c with
      lock := { s.lock with
        writeQueue := { s.lock.writeQueue with nextTicket := s.lock.writeQueue.nextTicket + 1#32 } }
      tickets := s.tickets + 1 }) (hlimited : s'.Limited) : Inv s' served holder := by
  have hcalls : s'.calls = update s.calls a c := by
    rw [hs']
    rfl
  have hphase : s'.phase holder = s.phase holder :=
    phase_of_ne hcalls (h.holder_ne (by rw [ha]; rfl))
  obtain ⟨hcensus, hreading⟩ := writer_reads (c := c) ha rfl (by rw [hc]; rfl)
  rw [← hcalls] at hcensus hreading
  subst hs'
  constructor
  · exact h.tickets.take (by rw [ha]; rfl) (by rw [hc, h.nextTicket])
  · show s.lock.writeQueue.nextTicket + 1#32 = BitVec.ofNat 32 (s.tickets + 1)
    rw [h.nextTicket, BitVec.ofNat_add]
  · exact h.nowServing
  · rw [hphase, hcensus]
    exact h.state
  · rw [hphase]
    exact fun hwriting b hb => h.exclusive hwriting b (hreading b hb)
  · rw [hphase]
    exact h.entered
  · exact hlimited

/-- The writer with the ticket lock moves on. -/
theorem writer {entered : List Nat} (hholder : holder = some a) (hnumber : c.number = some served)
    (hfront : c.front = true) (hpassing : c.Passes served)
    (hstate : state = word c.isWriting c.isWaiting (census counted s.calls))
    (hexclusive : c.isWriting = true → ∀ b, s.calls b ≠ .reading)
    (hentered : entered = List.range (served + c.entered.toNat)) :
    Inv { s.move a c state with entered := entered } served holder := by
  have hold : (s.calls a).front = true := (h.tickets.front a).2 hholder
  have hcounted : ∀ c : Call, c.front = true → c.counted = false ∧ c.isQueued = false := by
    intro c hc
    cases c <;> first | exact ⟨rfl, rfl⟩ | cases hc
  have hphase : ∀ s' : Machine ι, s'.calls = update s.calls a c → s'.phase holder = c := by
    intro s' hs'
    rw [hholder]
    exact phase_self hs'
  obtain ⟨hcensus, hreading⟩ := writer_reads rfl (hcounted _ hold).1 (hcounted _ hfront).1
  constructor
  · refine h.tickets.quiet ?_ (by rw [hold, hfront]) ?_ hpassing
    · rw [hnumber, h.tickets.first a hholder]
    · rintro t n rfl
      cases hfront
  · exact h.nextTicket
  · exact h.nowServing
  · rw [hphase _ rfl]
    show state = word _ _ (census counted (update s.calls a c))
    rw [hcensus, hstate]
  · rw [hphase _ rfl]
    exact fun hwriting b hb => hexclusive hwriting b (hreading b hb)
  · rw [hphase _ rfl]
    exact hentered
  · refine h.limited.moved rfl ?_ ?_
    · rw [(hcounted c hfront).1]
      nofun
    · rw [(hcounted c hfront).2]
      nofun

/-- The next writer gets the ticket lock. -/
theorem promote {t : BitVec 32} (ha : s.calls a = .queued t served) :
    holder = none ∧ Inv (s.set a (.announcing served)) served (some a) := by
  obtain ⟨rfl, htickets⟩ := h.tickets.promote (a := a) (by rw [ha]; rfl) (by rw [ha]; rfl)
  obtain ⟨hcensus, hreading⟩ := writer_reads (c := .announcing served) ha rfl rfl
  have hphase : (s.set a (.announcing served)).phase (some a) = .announcing served := phase_self rfl
  refine ⟨rfl, ?_⟩
  constructor
  · exact htickets
  · exact h.nextTicket
  · exact h.nowServing
  · rw [hphase]
    show s.lock.state = word _ _ (census counted (update s.calls a _))
    rw [hcensus]
    exact h.state
  · rw [hphase]
    nofun
  · rw [hphase]
    exact h.entered
  · exact h.limited.moved rfl nofun nofun

omit [DecidableEq ι] in
/-- A queued writer looks at `m_now_serving`. -/
theorem look {t : BitVec 32} (ha : s.calls a = .queued t n) :
    s.lock.writeQueue.nowServing = t ↔ served = n := by
  have hn := h.tickets.numbers a n (by rw [ha]; rfl)
  have hcount := h.tickets.count
  have hlimit := h.limited.writers
  have hholder := Bool.toNat_le holder.isSome
  rw [h.nowServing, h.tickets.ticket a t n ha]
  apply ticket_eq <;> omega

/-- The ticket lock goes to the next writer. -/
theorem pass {v : BitVec 32} (ha : s.calls a = .passing v n) :
    holder = some a ∧ Inv { s.set a .idle with
      lock := { s.lock with writeQueue := { s.lock.writeQueue with nowServing := v + 1#32 } } }
    (served + 1) none := by
  obtain ⟨hholder, -, -, hstate, hentered⟩ := h.holder_of_front ha rfl
  obtain ⟨hcensus, -⟩ := writer_reads (c := .idle) ha rfl rfl
  refine ⟨hholder, ?_⟩
  constructor
  · exact h.tickets.pass hholder
  · exact h.nextTicket
  · show v + 1#32 = BitVec.ofNat 32 (served + 1)
    rw [h.tickets.passing a v n ha, BitVec.ofNat_add]
  · show s.lock.state = word false false (census counted (update s.calls a .idle))
    rw [hcensus]
    exact hstate
  · nofun
  · exact hentered
  · exact h.limited.moved rfl nofun nofun

theorem announce (ha : s.calls a = .announcing n) :
    holder = some a ∧
    Inv (s.move a (.waiting n) (s.lock.state ||| writerWaiting)) served holder := by
  obtain ⟨hholder, -, hnumber, hstate, hentered⟩ := h.holder_of_front ha rfl
  refine ⟨hholder, h.writer hholder hnumber rfl nofun ?_ nofun hentered⟩
  rw [hstate]
  exact word_announce false _

/-- The hand-over succeeds if the word shows no readers. -/
theorem handOver (ha : s.calls a = .waiting n) (hstate : s.lock.state = writerWaiting) :
    Inv { s.move a (.writing n) writerLocked with entered := s.entered ++ [n] } served holder := by
  obtain ⟨hholder, -, hnumber, hword, hentered⟩ := h.holder_of_front ha rfl
  rw [hword] at hstate
  obtain ⟨-, -, hnone⟩ := (word_waiting _ _ _ h.limited.readers).1 hstate
  refine h.writer hholder hnumber rfl nofun ?_ (fun _ b hb => ?_) ?_
  · rw [hnone]
    exact writerLocked_eq
  · have := census_eq_zero.1 hnone b
    rw [hb] at this
    cases this
  · rw [hentered, Option.some.inj hnumber]
    exact List.range_succ.symm

theorem writeUnlock (ha : s.calls a = .writing n) :
    Inv (s.move a (.leaving n) (s.lock.state &&& ~~~writerLocked)) served holder := by
  obtain ⟨hholder, -, hnumber, hstate, hentered⟩ := h.holder_of_front ha rfl
  refine h.writer hholder hnumber rfl nofun ?_ nofun hentered
  rw [hstate]
  exact word_unlock false _

theorem loadServing (ha : s.calls a = .leaving n) :
    Inv (s.set a (.passing s.lock.writeQueue.nowServing n)) served holder := by
  obtain ⟨hholder, -, hnumber, hstate, hentered⟩ := h.holder_of_front ha rfl
  refine h.writer hholder hnumber rfl ?_ hstate nofun hentered
  intro v n' hv
  cases hv
  exact h.nowServing

/-- **One step.** -/
theorem step {s' : Machine ι} (hstep : Step s a s') (hlimited : s'.Limited) :
    ∃ served' holder', Inv s' served' holder' := by
  cases hstep with
  | readLock ha => exact ⟨_, _, h.reader_set ha rfl rfl rfl nofun hlimited⟩
  | count ha => exact ⟨_, _, h.count ha rfl hlimited⟩
  | undo ha =>
    refine ⟨_, _, (h.uncount ha rfl ?_ ?_ hlimited).1⟩ <;> split <;> rfl
  | watch ha =>
    refine ⟨_, _, h.reader_set ha rfl ?_ ?_ ?_ hlimited⟩
    · split <;> rfl
    · split <;> rfl
    · split <;> nofun
  | readUnlock ha => exact ⟨_, _, (h.uncount ha rfl rfl rfl hlimited).1⟩
  | writeLock ha => exact ⟨_, _, h.reader_set ha rfl rfl rfl nofun hlimited⟩
  | takeTicket ha => exact ⟨_, _, h.takeTicket ha rfl rfl hlimited⟩
  | look t n ha =>
    by_cases hturn : s.lock.writeQueue.nowServing = t
    · rw [if_pos hturn]
      obtain rfl := (h.look ha).1 hturn
      exact ⟨_, _, (h.promote ha).2⟩
    · rw [if_neg hturn]
      refine ⟨served, holder, ?_⟩
      have hsame : s.set a (.queued t n) = s := by
        show Machine.mk s.lock (update s.calls a (.queued t n)) s.tickets s.entered = s
        rw [← ha, Function.update_eq_self]
      rw [hsame]
      exact h
  | announce n ha => exact ⟨_, _, (h.announce ha).2⟩
  | handOver n ha hstate => exact ⟨_, _, h.handOver ha hstate⟩
  | handOverFails n ha hstate => exact ⟨_, _, h⟩
  | writeUnlock n ha => exact ⟨_, _, h.writeUnlock ha⟩
  | loadServing n ha => exact ⟨_, _, h.loadServing ha⟩
  | storeServing v n ha => exact ⟨_, _, (h.pass ha).2⟩

end Inv

/-! ## Progress -/

/-- A call that is under way takes a step. -/
def Go (s s' : Machine ι) : Prop := (∃ a, s.calls a ≠ .idle ∧ Step s a s') ∧ s'.Limited

/-- The caller can get inside without any new call. -/
def CanEnter (s : Machine ι) (a : ι) : Prop :=
  ∃ s', Relation.ReflTransGen Go s s' ∧ (s'.calls a).inside = true

section Progress

theorem CanEnter.of_go (h : CanEnter s' a) (hgo : Relation.ReflTransGen Go s s') :
    CanEnter s a := by
  obtain ⟨s'', hgo', hin⟩ := h
  exact ⟨s'', hgo.trans hgo', hin⟩

variable (h : Inv s served holder)
include h

/-- **Readers that bounce off are gone soon.** -/
theorem Inv.drain (hout : ∀ a, s.calls a ≠ .reading) :
    ∃ s', Relation.ReflTransGen Go s s' ∧ Inv s' served holder ∧ census counted s'.calls = 0 ∧
      ∀ a, s'.calls a = s.calls a ∨ s.calls a = .backing ∧
      (s'.calls a = .entering ∨ s'.calls a = .watching) := by
  -- by induction on the readers in the count, one of whom takes itself off it
  generalize hn : census counted s.calls = n
  induction n generalizing s with
  | zero => exact ⟨s, .refl, h, hn, fun a => Or.inl rfl⟩
  | succ n ih =>
    obtain ⟨a, ha⟩ : ∃ a, (s.calls a).counted = true := by
      by_contra hnone
      have hzero : census counted s.calls = 0 :=
        census_eq_zero.2 fun a => Bool.eq_false_iff.2 fun ha => hnone ⟨a, ha⟩
      omega
    have hbacking : s.calls a = .backing := by
      cases hc : s.calls a <;> rw [hc] at ha <;> first | rfl | exact absurd hc (hout a) | cases ha
    have hgo := Step.undo hbacking
    generalize hc :
      (if (s.lock.state - readerInc) &&& writerMask = 0#32 then Call.entering else .watching) =
        c at hgo
    have hc' : c = .entering ∨ c = .watching := by
      rw [← hc]
      split
      · exact Or.inl rfl
      · exact Or.inr rfl
    have hplain : c.isQueued = false ∧ c.counted = false ∧ c.number = none ∧
        c ≠ .reading ∧ c ≠ .backing := by
      rcases hc' with rfl | rfl <;> exact ⟨rfl, rfl, rfl, nofun, nofun⟩
    obtain ⟨hqueued, hcounted, hnumber, hreading, hback⟩ := hplain
    have hlimited : (s.move a c (s.lock.state - readerInc)).Limited :=
      h.limited.moved rfl (by rw [hcounted]; nofun) (by rw [hqueued]; nofun)
    obtain ⟨hinv, hdown, -⟩ := h.uncount rfl ha hcounted hnumber hlimited
    have hself : (s.move a c (s.lock.state - readerInc)).calls a = c := update_self ..
    have hother : ∀ b, b ≠ a → (s.move a c (s.lock.state - readerInc)).calls b = s.calls b :=
      fun b hb => update_of_ne hb ..
    obtain ⟨s', hrun, hinv', hzero, hframe⟩ := ih hinv (by
      intro b
      by_cases hb : b = a
      · rw [hb, hself]
        exact hreading
      · rw [hother b hb]
        exact hout b) (by omega)
    refine ⟨s', .head ⟨⟨a, by rw [hbacking]; nofun, hgo⟩, hlimited⟩ hrun, hinv', hzero, fun b => ?_⟩
    by_cases hb : b = a
    · subst hb
      rcases hframe b with hsame | ⟨hbad, -⟩
      · rw [hself] at hsame
        exact Or.inr ⟨hbacking, by rw [hsame]; exact hc'⟩
      · rw [hself] at hbad
        exact absurd hbad hback
    · have := hframe b
      rwa [hother b hb] at this

variable (hnone : census counted s.calls = 0)
include hnone

/-- A writer that waits gets inside once no reader is in the count. -/
theorem Inv.enter_waiting {n : Nat} (ha : s.calls a = .waiting n) : CanEnter s a := by
  obtain ⟨-, -, -, hword, -⟩ := h.holder_of_front ha rfl
  have hstate : s.lock.state = writerWaiting := by
    rw [hword]
    exact (word_waiting _ _ _ h.limited.readers).2 ⟨rfl, rfl, hnone⟩
  have hinv := h.handOver ha hstate
  refine ⟨_, .single ⟨⟨a, by rw [ha]; nofun, Step.handOver n ha hstate⟩, hinv.limited⟩, ?_⟩
  show (update s.calls a (.writing n) a).inside = true
  rw [update_self]
  rfl

theorem Inv.enter_announcing {n : Nat} (ha : s.calls a = .announcing n) : CanEnter s a := by
  obtain ⟨-, hinv⟩ := h.announce ha
  have henter : CanEnter (s.move a (.waiting n) (s.lock.state ||| writerWaiting)) a := by
    refine hinv.enter_waiting ?_ (n := n) (update_self ..)
    exact (writer_reads ha rfl rfl).1.trans hnone
  exact henter.of_go (.single ⟨⟨a, by rw [ha]; nofun, Step.announce n ha⟩, hinv.limited⟩)

/-- The writer whose turn it is gets inside. -/
theorem Inv.enter_queued {t : BitVec 32} (ha : s.calls a = .queued t served) : CanEnter s a := by
  obtain ⟨-, hinv⟩ := h.promote ha
  have hstep := Step.look t served ha
  rw [if_pos ((h.look ha).2 rfl)] at hstep
  have henter : CanEnter (s.set a (.announcing served)) a := by
    refine hinv.enter_announcing ?_ (n := served) (update_self ..)
    exact (writer_reads ha rfl rfl).1.trans hnone
  exact henter.of_go (.single ⟨⟨a, by rw [ha]; nofun, hstep⟩, hinv.limited⟩)

omit h

/-- A reader gets inside while there is no writer. -/
theorem Inv.enter_entering (h : Inv s served none) (ha : s.calls a = .entering) : CanEnter s a := by
  have hstep := Step.count ha
  rw [if_pos (h.mask_eq.2 ⟨rfl, rfl⟩)] at hstep
  have hcount := census_update counted s.calls a .reading
  rw [ha] at hcount
  have hone : census counted (update s.calls a .reading) = census counted s.calls + 1 := hcount
  have hlimited : (s.move a .reading (s.lock.state + readerInc)).Limited := by
    constructor
    · show census counted (update s.calls a _) < _
      rw [hone, hnone]
      decide
    · refine lt_of_le_of_lt (census_update_le ?_) h.limited.writers
      nofun
  refine ⟨_, .single ⟨⟨a, by rw [ha]; nofun, hstep⟩, hlimited⟩, ?_⟩
  show (update s.calls a .reading a).inside = true
  rw [update_self]
  rfl

/-- Nobody has a ticket: whoever waits gets inside. -/
theorem Inv.enter_free (h : Inv s served none) (hfree : s.tickets = served)
    (ha : (s.calls a).waits = true) : CanEnter s a := by
  have hno : (s.calls a).number = none := by
    cases hn : (s.calls a).number with
    | none => rfl
    | some n =>
      have := h.tickets.numbers a n hn
      omega
  cases hc : s.calls a <;> rw [hc] at ha hno <;> first | (cases ha; done) | (cases hno; done) | skip
  case entering => exact h.enter_entering hnone hc
  case backing =>
    have := census_eq_zero.1 hnone a
    rw [hc] at this
    cases this
  case watching =>
    have hstep := Step.watch hc
    rw [if_pos (h.mask_eq.2 ⟨rfl, rfl⟩)] at hstep
    have hlimited : (s.set a .entering).Limited := h.limited.moved rfl nofun nofun
    have hinv := h.reader_set (c := .entering) hc rfl rfl rfl nofun hlimited
    have henter : CanEnter (s.set a .entering) a := by
      refine hinv.enter_entering ?_ (update_self ..)
      exact (writer_reads hc rfl rfl).1.trans hnone
    exact henter.of_go (.single ⟨⟨a, by rw [hc]; nofun, hstep⟩, hlimited⟩)
  case arriving =>
    have hcount := h.tickets.count
    have hqueue := census_update isQueued s.calls a (.queued s.lock.writeQueue.nextTicket s.tickets)
    rw [hc] at hqueue
    have hone :
        census isQueued (update s.calls a (.queued s.lock.writeQueue.nextTicket s.tickets)) =
        census isQueued s.calls + 1 := hqueue
    have hreads := (writer_reads (c := .queued s.lock.writeQueue.nextTicket s.tickets) hc rfl rfl).1
    have hinv := h.takeTicket hc rfl rfl (by
      constructor
      · refine lt_of_le_of_lt (census_update_le ?_) h.limited.readers
        nofun
      · show census isQueued (update s.calls a _) < _
        rw [hone]
        omega)
    refine CanEnter.of_go
      (hinv.enter_queued (hreads.trans hnone) (a := a) (t := s.lock.writeQueue.nextTicket) ?_)
      (.single ⟨⟨a, by rw [hc]; nofun, Step.takeTicket hc⟩, hinv.limited⟩)
    rw [← hfree]
    exact update_self ..

/-- Nobody has the ticket lock. -/
theorem Inv.enter_none (h : Inv s served none) (ha : (s.calls a).waits = true) :
    ∃ b, (s.calls b).waits = true ∧ CanEnter s b := by
  rcases Nat.lt_or_ge served s.tickets with hlt | hge
  · obtain ⟨b, hb⟩ := h.tickets.all served le_rfl hlt
    have hfront : (s.calls b).front = false :=
      Bool.eq_false_iff.2 fun hf => nomatch (h.tickets.front b).1 hf
    have hqueued : (s.calls b).isQueued = true := by
      rw [Call.isQueued_eq, hb, hfront]
      rfl
    obtain ⟨t, hc⟩ : ∃ t, s.calls b = .queued t served := by
      cases hc : s.calls b <;> rw [hc] at hqueued hb <;> cases hqueued
      cases hb
      exact ⟨_, rfl⟩
    exact ⟨b, by rw [hc]; rfl, h.enter_queued hnone hc⟩
  · have hcount := h.tickets.count
    have hfree : s.tickets = served := by
      have : served + census isQueued s.calls + 0 = s.tickets := hcount
      omega
    exact ⟨a, ha, h.enter_free hnone hfree ha⟩

/-- The ticket lock is about to be passed on. -/
theorem Inv.enter_passing (h : Inv s served holder) {h₀ : ι} {v : BitVec 32} {n : Nat}
    (hpassing : s.calls h₀ = .passing v n) (ha : (s.calls a).waits = true) :
    ∃ b, (s.calls b).waits = true ∧ CanEnter s b := by
  obtain ⟨-, hinv⟩ := h.pass hpassing
  have hgo := Step.storeServing v n hpassing
  have hwaits : ∀ b, (update s.calls h₀ .idle b).waits = (s.calls b).waits :=
    update_keeps Call.waits (by rw [hpassing]; rfl)
  obtain ⟨b, hb, henter⟩ := hinv.enter_none ((writer_reads hpassing rfl rfl).1.trans hnone)
    ((hwaits a).trans ha)
  exact ⟨b, (hwaits b).symm.trans hb,
    henter.of_go (.single ⟨⟨h₀, by rw [hpassing]; nofun, hgo⟩, hinv.limited⟩)⟩

omit hnone

/-- **No deadlock**: if nobody is inside, some waiter can get inside without any new call. -/
theorem Inv.progress (h : Inv s served holder) (hout : ∀ a, (s.calls a).inside = false)
    (ha : (s.calls a).waits = true) : ∃ b, (s.calls b).waits = true ∧ CanEnter s b := by
  have hreading : ∀ a, s.calls a ≠ .reading := by
    intro a hc
    have := hout a
    rw [hc] at this
    cases this
  obtain ⟨s', hrun, hinv, hnone, hframe⟩ := h.drain hreading
  have hwaits : ∀ b, (s'.calls b).waits = (s.calls b).waits := by
    intro b
    rcases hframe b with hsame | ⟨hold, hnew | hnew⟩
    · rw [hsame]
    · rw [hold, hnew]
      rfl
    · rw [hold, hnew]
      rfl
  suffices henter : ∃ b, (s'.calls b).waits = true ∧ CanEnter s' b by
    obtain ⟨b, hb, henter⟩ := henter
    exact ⟨b, (hwaits b).symm.trans hb, henter.of_go hrun⟩
  have ha' : (s'.calls a).waits = true := (hwaits a).trans ha
  cases hholder : holder with
  | none =>
    rw [hholder] at hinv
    exact hinv.enter_none hnone ha'
  | some h₀ =>
    have hfront := (h.tickets.front h₀).2 hholder
    have hsame : s'.calls h₀ = s.calls h₀ := by
      rcases hframe h₀ with hsame | ⟨hold, -⟩
      · exact hsame
      · rw [hold] at hfront
        cases hfront
    have hin := hout h₀
    rw [← hsame] at hfront hin
    cases hc : s'.calls h₀ <;> rw [hc] at hfront hin <;>
      first | (cases hfront; done) | (cases hin; done) | skip
    case announcing n => exact ⟨h₀, by rw [hc]; rfl, hinv.enter_announcing hnone hc⟩
    case waiting n => exact ⟨h₀, by rw [hc]; rfl, hinv.enter_waiting hnone hc⟩
    case passing v n => exact hinv.enter_passing hnone hc ha'
    case leaving n =>
      have hnext := hinv.loadServing hc
      have hwaits' : ∀ b, (update s'.calls h₀ (.passing s'.lock.writeQueue.nowServing n) b).waits =
          (s'.calls b).waits :=
        update_keeps Call.waits (by rw [hc]; rfl)
      obtain ⟨b, hb, henter⟩ := hnext.enter_passing ((writer_reads hc rfl rfl).1.trans hnone)
        (update_self ..) ((hwaits' a).trans ha')
      exact ⟨b, (hwaits' b).symm.trans hb,
        henter.of_go (.single ⟨⟨h₀, by rw [hc]; nofun, Step.loadServing n hc⟩, hnext.limited⟩)⟩

end Progress

/-! ## Runs -/

/-- What callers may rely on. -/
structure Sound (s : Machine ι) : Prop where
  exclusive : ∀ a b n, s.calls a = .writing n → s.calls b ≠ .reading
  one_writer : ∀ a b n n', s.calls a = .writing n → s.calls b = .writing n' → a = b
  /-- The count in the word: readers inside, and readers about to back off. -/
  count : (s.lock.state >>> 8).toNat = census Call.counted s.calls
  /-- While a writer that has announced itself is not inside, no reader gets inside. -/
  announced : ∀ w n, s.calls w = .waiting n → ∀ b s', Step s b s' → ∀ a, s'.calls a = .reading →
    s.calls a = .reading
  /-- Writers get inside in the order of their tickets. -/
  order : s.entered = List.range s.entered.length
  /-- If nobody is inside, some waiter can get inside without any new call. -/
  progress : (∀ a, (s.calls a).inside = false) → (∃ a, (s.calls a).waits = true) →
    ∃ a, (s.calls a).waits = true ∧ CanEnter s a

theorem Inv.announced (h : Inv s served holder) {w b a : ι}
    {n : Nat} (hw : s.calls w = .waiting n) (hstep : Step s b s') (ha : s'.calls a = .reading) :
    s.calls a = .reading := by
  obtain ⟨-, hphase, -⟩ := h.holder_of_front hw rfl
  have hmask : ¬ s.lock.state &&& writerMask = 0#32 := by
    rw [h.mask_eq, hphase]
    nofun
  have hother : ∀ c : Call, update s.calls b c a = .reading → c ≠ .reading →
      s.calls a = .reading := by
    intro c hread hc
    by_cases hab : a = b
    · rw [hab, update_self] at hread
      exact absurd hread hc
    · rwa [update_of_ne hab] at hread
  cases hstep with
  | count hb =>
    rw [if_neg hmask] at ha
    exact hother _ ha nofun
  | undo hb =>
    refine hother _ ha ?_
    split <;> nofun
  | watch hb =>
    refine hother _ ha ?_
    split <;> nofun
  | look t n hb =>
    refine hother _ ha ?_
    split <;> nofun
  | handOverFails n hb hstate => exact ha
  | readLock hb => exact hother _ ha nofun
  | readUnlock hb => exact hother _ ha nofun
  | writeLock hb => exact hother _ ha nofun
  | takeTicket hb => exact hother _ ha nofun
  | announce n hb => exact hother _ ha nofun
  | handOver n hb hstate => exact hother _ ha nofun
  | writeUnlock n hb => exact hother _ ha nofun
  | loadServing n hb => exact hother _ ha nofun
  | storeServing v n hb => exact hother _ ha nofun

theorem Inv.sound (h : Inv s served holder) : Sound s := by
  constructor
  · intro a b n ha
    obtain ⟨-, hphase, -⟩ := h.holder_of_front ha rfl
    exact h.exclusive (by rw [hphase]; rfl) b
  · intro a b n n' ha hb
    have hholder := (h.holder_of_front ha rfl).1
    rw [(h.holder_of_front hb rfl).1] at hholder
    exact (Option.some.inj hholder).symm
  · rw [h.state]
    exact word_shift _ _ _ h.limited.readers
  · exact fun w n hw b s' hstep a ha => h.announced hw hstep ha
  · rw [h.entered, List.length_range]
  · rintro hout ⟨a, ha⟩
    exact h.progress hout ha

theorem reachable_inv (h : (system ι).Reachable s) : ∃ served holder, Inv s served holder := by
  refine h.invariant (I := fun s => ∃ served holder, Inv s served holder) ?_ ?_
  · rintro s rfl
    exact ⟨0, none, initial_inv⟩
  · rintro s s' ⟨served, holder, hinv⟩ ⟨⟨a, hstep⟩, hlimited⟩
    exact hinv.step hstep hlimited

/-- **Every state of every run is sound.** -/
theorem rwlock_sound (s : Machine ι) (h : (system ι).Reachable s) : Sound s := by
  obtain ⟨served, holder, hinv⟩ := reachable_inv h
  exact hinv.sound

omit [DecidableEq ι] in
/-- A few callers never reach the limits. -/
theorem Limited.of_card (hcard : Fintype.card ι < 2 ^ 24) (s : Machine ι) : s.Limited := by
  have hle : ∀ p : Call → Bool, census p s.calls ≤ Fintype.card ι := fun p => Finset.card_le_univ _
  constructor
  · exact (hle _).trans_lt hcard
  · exact (hle _).trans_lt (hcard.trans (by decide))

/-- A writer has announced itself while a reader is inside. -/
theorem rwlock_sound_two :
    ∃ s : Machine (Fin 2), (system (Fin 2)).Reachable s ∧ s.calls 0 = .reading ∧
    s.calls 1 = .waiting 0 ∧ Sound s := by
  have hlimited : ∀ s : Machine (Fin 2), s.Limited := Limited.of_card (by decide)
  have h := System.Reachable.init (S := system (Fin 2)) (s := initial) rfl
  have h := h.step ⟨⟨0, Step.readLock rfl⟩, hlimited _⟩
  have h := h.step ⟨⟨0, Step.count rfl⟩, hlimited _⟩
  have h := h.step ⟨⟨1, Step.writeLock rfl⟩, hlimited _⟩
  have h := h.step ⟨⟨1, Step.takeTicket rfl⟩, hlimited _⟩
  have h := h.step ⟨⟨1, Step.look 0#32 0 rfl⟩, hlimited _⟩
  have h := h.step ⟨⟨1, Step.announce 0 rfl⟩, hlimited _⟩
  exact ⟨_, h, rfl, rfl, rwlock_sound _ h⟩

end Machine

end RWLock
end Erebus.Utils
