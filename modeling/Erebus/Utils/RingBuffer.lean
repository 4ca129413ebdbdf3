import Erebus.Lib.System
import Erebus.Lib.TicketRing

/-!
# The lock-free ring

`RingBuffer<T, Capacity, MultiConsumer, PadSlots>`: producers and consumers agree on nothing but the
sequence number of each slot, and every access to one of the atomics is a step of its own. All words
have 64 bits; a producer's ticket is the value of `m_head` it replaced.

* `RingBuffer`, `diff`, `slot`: the memory, and the arithmetic on it.
* `Call`: where a call of `try_emplace`, `try_reserve`, `commit` or `try_dequeue` is.
* `Step`: one atomic access of one call. `pushed`, `popped` and the other lists record what has
  happened.
* `Rel`: the ring is a `TicketRing`, as long as the indices do not run out.
* `Sound`, `run_sound`: what callers may rely on, in every state of every run.

`try_reserve` and `commit` take the same steps as `try_emplace`, with the caller in between; which
element a slot is filled with is only known at that point.
-/

namespace Erebus.Utils

open Function (update update_self update_of_ne)

/-- The memory of a ring. -/
structure RingBuffer (α : Type*) where
  head : Nat
  tail : Nat
  sequence : Nat → Nat
  /-- `some` while the slot holds an object. -/
  data : Nat → Option α

namespace RingBuffer

variable {α : Type*}

/-- `static_cast<std::intptr_t>(a - b)`. -/
def diff (a b : Nat) : Int := ((a : Int) - b).bmod (2 ^ 64)

/-- `index & Mask`. -/
def slot (bits index : Nat) : Nat := index &&& (2 ^ bits - 1)

/-- `RingBuffer::RingBuffer`. -/
def initial : RingBuffer α := ⟨0, 0, fun i => i, fun _ => none⟩

/-- Where a call is. -/
inductive Call (α : Type*)
  | idle
  /-- `try_emplace` or `try_reserve`, about to load `m_head`. -/
  | start
  /-- About to load the slot's sequence. -/
  | probing (head : Nat)
  /-- About to move `m_head`. -/
  | claiming (head : Nat)
  /-- About to construct the element. -/
  | reserved (head : Nat)
  /-- About to store the sequence, in `try_emplace` or in `commit`. -/
  | filled (head : Nat)
  | stored
  /-- `try_emplace` or `try_reserve` has failed. -/
  | refused
  /-- `try_dequeue`, about to load `m_tail`. -/
  | dequeue
  /-- About to load the slot's sequence. -/
  | looking (tail : Nat)
  /-- About to move `m_tail`, with many consumers. -/
  | racing (tail : Nat)
  /-- About to move the element out. -/
  | taking (tail : Nat)
  /-- About to store the sequence. -/
  | releasing (tail : Nat) (x : α)
  /-- About to store `m_tail`, with one consumer. -/
  | advancing (tail : Nat) (x : α)
  | got (x : α)
  /-- `try_dequeue` has failed. -/
  | missed

namespace Call

/-- The call has returned. -/
def done : Call α → Bool
  | idle | stored | refused | got _ | missed => true
  | _ => false

/-- A call of `try_dequeue` that is under way. -/
def consumes : Call α → Bool
  | dequeue | looking _ | racing _ | taking _ | releasing _ _ | advancing _ _ => true
  | _ => false

/-- The ticket whose slot the call has to itself. -/
def holds : Call α → Option Nat
  | reserved k | filled k | taking k | releasing k _ => some k
  | _ => none

end Call

/-- The ring, the calls, and what has happened. -/
structure Machine (α : Type*) where
  ring : RingBuffer α
  calls : Nat → Call α
  /-- Tickets that producers have got. -/
  issued : Nat
  /-- Elements that have been constructed, with their tickets. -/
  pushed : List (Nat × α)
  /-- Tickets whose element is for all to see. -/
  published : List Nat
  /-- Tickets that consumers have got, in this order. -/
  claimed : List Nat
  /-- Elements that have been moved out, with their tickets. -/
  popped : List (Nat × α)
  /-- Tickets whose slot has been given back. -/
  freed : List Nat

namespace Machine

variable (bits : Nat) (multi : Bool)

def set (s : Machine α) (a : Nat) (call : Call α) : Machine α :=
  { s with calls := Function.update s.calls a call }

/-- What a producer does with the sequence it has loaded. -/
def probe (seq head : Nat) : Call α :=
  if diff seq head = 0 then .claiming head else if diff seq head < 0 then .refused else .start

/-- The ring before its first use. -/
def initial : Machine α :=
  { ring := .initial
    calls := fun _ => .idle
    issued := 0
    pushed := []
    published := []
    claimed := []
    popped := []
    freed := [] }

/-- One step of one call. A weak compare-and-swap may fail for no reason. -/
inductive Step (s : Machine α) : Machine α → Prop
  | emplace (a : Nat) : (s.calls a).done = true → Step s (s.set a .start)
  | loadHead (a : Nat) : s.calls a = .start → Step s (s.set a (.probing s.ring.head))
  | probe (a head : Nat) : s.calls a = .probing head →
      Step s (s.set a (probe (s.ring.sequence (slot bits head)) head))
  | claim (a head : Nat) : s.calls a = .claiming head → s.ring.head = head →
      Step s { s.set a (.reserved head) with
          ring := { s.ring with head := (head + 1) % 2 ^ 64 }
          issued := s.issued + 1 }
  | claimFails (a head : Nat) : s.calls a = .claiming head → Step s (s.set a (.probing s.ring.head))
  | construct (a head : Nat) (x : α) : s.calls a = .reserved head →
      Step s { s.set a (.filled head) with
          ring := { s.ring with data := Function.update s.ring.data (slot bits head) (some x) }
          pushed := s.pushed ++ [(head, x)] }
  | publish (a head : Nat) : s.calls a = .filled head → Step s { s.set a .stored with
          ring := { s.ring with
            sequence := Function.update s.ring.sequence (slot bits head) ((head + 1) % 2 ^ 64) }
          published := s.published ++ [head] }
  /-- Without `MultiConsumer` there is one consumer. -/
  | dequeue (a : Nat) :
      (s.calls a).done = true → (multi = false → ∀ a', (s.calls a').consumes = false) →
      Step s (s.set a .dequeue)
  | loadTail (a : Nat) : s.calls a = .dequeue → Step s (s.set a (.looking s.ring.tail))
  | lookEmpty (a tail : Nat) :
      s.calls a = .looking tail →
      diff (s.ring.sequence (slot bits tail)) ((tail + 1) % 2 ^ 64) < 0 → Step s (s.set a .missed)
  | lookLate (a tail : Nat) :
      s.calls a = .looking tail →
      0 < diff (s.ring.sequence (slot bits tail)) ((tail + 1) % 2 ^ 64) → Step s (s.set a .dequeue)
  | lookMany (a tail : Nat) :
      s.calls a = .looking tail → diff (s.ring.sequence (slot bits tail)) ((tail + 1) % 2 ^ 64) =
        0 → multi = true → Step s (s.set a (.racing tail))
  | lookOne (a tail : Nat) :
      s.calls a = .looking tail → diff (s.ring.sequence (slot bits tail)) ((tail + 1) % 2 ^ 64) =
        0 → multi = false → Step s { s.set a (.taking tail) with claimed := s.claimed ++ [tail] }
  | race (a tail : Nat) : s.calls a = .racing tail → s.ring.tail = tail →
      Step s { s.set a (.taking tail) with
          ring := { s.ring with tail := (tail + 1) % 2 ^ 64 }
          claimed := s.claimed ++ [tail] }
  | raceFails (a tail : Nat) : s.calls a = .racing tail → Step s (s.set a (.looking s.ring.tail))
  | take (a tail : Nat) (x : α) : s.calls a = .taking tail → s.ring.data (slot bits tail) = some x →
        Step s { s.set a (.releasing tail x) with
          ring := { s.ring with data := Function.update s.ring.data (slot bits tail) none }
          popped := s.popped ++ [(tail, x)] }
  | release (a tail : Nat) (x : α) : s.calls a = .releasing tail x →
        Step s { s.set a (if multi then .got x else .advancing tail x) with
          ring := { s.ring with
            sequence :=
              Function.update s.ring.sequence (slot bits tail) ((tail + 2 ^ bits) % 2 ^ 64) }
          freed := s.freed ++ [tail] }
  | advance (a tail : Nat) (x : α) : s.calls a = .advancing tail x → multi = false →
        Step s { s.set a (.got x) with ring := { s.ring with tail := (tail + 1) % 2 ^ 64 } }

def system : System (Machine α) where
  init s := s = initial
  step := Step bits multi

/-- Operations that have got a ticket. -/
def operations (s : Machine α) : Nat := s.issued + s.claimed.length

/-! ## The ring as a ring of tickets -/

section

theorem slot_eq (k : Nat) : slot bits k = k % 2 ^ bits := Nat.and_two_pow_sub_one_eq_mod k bits

theorem diff_eq {a b : Nat} (hlow : b ≤ a + 2 ^ 63) (hhigh : a < 2 ^ 63) :
    diff a b = (a : Int) - b := by
  apply Int.bmod_eq_of_le_mul_two <;> omega

theorem diff_self (a : Nat) : diff a a = 0 := by
  unfold diff
  rw [Int.sub_self, Int.zero_bmod]

theorem probe_self (k : Nat) : (probe k k : Call α) = .claiming k := if_pos (diff_self k)

end

/-- A list that records the tickets past some point. -/
structure Records (log : List Nat) (past : TicketRing.Stage → Bool)
    (stage : Nat → TicketRing.Stage) : Prop where
  nodup : log.Nodup
  mem : ∀ k, k ∈ log ↔ past (stage k) = true

/-- What a call knows of the ring. -/
def CallOk (C : Nat) (r : TicketRing α) : Call α → Prop
  | .probing k => k ≤ r.issued
  | .claiming k => k ≤ r.issued ∧ (k < r.issued ∨ (C ≤ k → r.stage (k - C) = .released))
  | .reserved k => r.stage k = .claimed
  | .filled k => r.stage k = .written
  | .looking k => k ≤ r.taken
  | .racing k => k ≤ r.taken ∧ (k < r.taken ∨ r.stage k = .published)
  | .taking k => r.stage k = .taken
  | .releasing k _ => r.stage k = .emptied
  | _ => True

structure CallsOk (C : Nat) (r : TicketRing α) (calls : Nat → Call α) : Prop where
  ok : ∀ a, CallOk C r (calls a)
  owner : ∀ a a' k, (calls a).holds = some k → (calls a').holds = some k → a = a'
  held : ∀ k, (r.stage k).held = true → ∃ a, (calls a).holds = some k

/-- What the only consumer knows of `m_tail`. -/
def Alone (tail taken : Nat) : Call α → Prop
  | .looking k => k = taken ∧ tail = taken
  | .racing _ => False
  | .taking k | .releasing k _ | .advancing k _ => tail = k ∧ taken = k + 1
  | .dequeue => tail = taken
  | _ => True

structure OneConsumer (tail taken : Nat) (calls : Nat → Call α) : Prop where
  one : ∀ a a', (calls a).consumes = true → (calls a').consumes = true → a = a'
  alone : ∀ a, Alone tail taken (calls a)
  rest : (∀ a, (calls a).consumes = false) → tail = taken

/-- **The ring is a ring of tickets.** -/
structure Rel (s : Machine α) (r : TicketRing α) : Prop where
  inv : r.Inv (2 ^ bits)
  head : s.ring.head = r.issued
  sequence : s.ring.sequence = r.seq
  data : s.ring.data = r.item
  issued : s.issued = r.issued
  claimed : s.claimed = List.range r.taken
  pushed : Records (s.pushed.map Prod.fst) TicketRing.Stage.filled r.stage
  published : Records s.published TicketRing.Stage.visible r.stage
  popped : Records (s.popped.map Prod.fst) TicketRing.Stage.drained r.stage
  freed : Records s.freed (fun stage => decide (stage = .released)) r.stage
  pushed_value : ∀ p ∈ s.pushed, r.value p.1 = some p.2
  popped_value : ∀ p ∈ s.popped, r.value p.1 = some p.2
  calls : CallsOk (2 ^ bits) r s.calls
  many : multi = true → s.ring.tail = r.taken
  single : multi = false → OneConsumer s.ring.tail r.taken s.calls

section

variable {log : List Nat} {past : TicketRing.Stage → Bool}
  {stages : Nat → TicketRing.Stage} {k : Nat} {stage st : TicketRing.Stage}

theorem Records.keep (h : Records log past stages) (hstage : stages k = st)
    (heq : past stage = past st) : Records log past (update stages k stage) := by
  constructor
  · exact h.nodup
  · intro k'
    rw [h.mem, update_keeps past (heq.trans (by rw [hstage])) k']

theorem Records.add (h : Records log past stages) (hstage : stages k = st) (hold : past st = false)
    (hnew : past stage = true) : Records (log ++ [k]) past (update stages k stage) := by
  have hnot : k ∉ log := by
    rw [h.mem, hstage, hold]
    exact Bool.false_ne_true
  constructor
  · rw [← List.concat_eq_append]
    exact h.nodup.concat hnot
  · intro k'
    rw [List.mem_append, List.mem_singleton, h.mem]
    by_cases hk : k' = k
    · subst hk
      simp [hnew]
    · simp [hk]

end

section Calls

variable {C : Nat} {r r' : TicketRing α} {calls : Nat → Call α} {a k : Nat} {c : Call α}
variable {stage : TicketRing.Stage}

/-- The ring moves on, and what a call has seen stays true. -/
structure Later (r r' : TicketRing α) : Prop where
  issued : r.issued ≤ r'.issued
  taken : r.taken ≤ r'.taken
  released : ∀ k, r.stage k = .released → r'.stage k = .released
  published : ∀ k, r.stage k = .published → r'.stage k = .published ∨ k < r'.taken

theorem CallOk.later (h : CallOk C r c) (hlater : Later r r')
    (hheld : ∀ k, c.holds = some k → r'.stage k = r.stage k) : CallOk C r' c := by
  cases c with
  | probing k => exact le_trans h hlater.issued
  | claiming k =>
    refine ⟨h.1.trans hlater.issued,
      h.2.imp (fun hlt => hlt.trans_le hlater.issued) fun hfree hle => ?_⟩
    exact hlater.released _ (hfree hle)
  | reserved k => exact (hheld k rfl).trans h
  | filled k => exact (hheld k rfl).trans h
  | looking k => exact le_trans h hlater.taken
  | racing k =>
    refine ⟨h.1.trans hlater.taken, ?_⟩
    rcases h.2 with hlt | hpub
    · exact Or.inl (hlt.trans_le hlater.taken)
    · exact (hlater.published k hpub).symm
  | taking k => exact (hheld k rfl).trans h
  | releasing k x => exact (hheld k rfl).trans h
  | idle => trivial
  | start => trivial
  | stored => trivial
  | refused => trivial
  | dequeue => trivial
  | advancing k x => trivial
  | got x => trivial
  | missed => trivial

/-- A ticket that a call has to itself is at one of the stages for that. -/
theorem CallOk.held (h : CallOk C r c) (hholds : c.holds = some k) : (r.stage k).held = true := by
  cases c <;> cases hholds <;> rw [show r.stage k = _ from h] <;> rfl

/-- A call moves on without a slot. -/
theorem CallsOk.quiet (h : CallsOk C r calls) (hold : (calls a).holds = none)
    (hnew : c.holds = none) (hok : CallOk C r c) : CallsOk C r (update calls a c) := by
  have hholds : ∀ a', (update calls a c a').holds = (calls a').holds :=
    update_keeps Call.holds (hnew.trans hold.symm)
  constructor
  · exact update_forall hok h.ok
  · intro a₁ a₂ k h₁ h₂
    rw [hholds] at h₁ h₂
    exact h.owner a₁ a₂ k h₁ h₂
  · intro k hk
    obtain ⟨a', ha'⟩ := h.held k hk
    exact ⟨a', (hholds a').trans ha'⟩

/-- A call moves its ticket on. -/
theorem CallsOk.move (h : CallsOk C r calls) (hlater : Later r r')
    (hstage : r'.stage = update r.stage k stage)
    (hmine : ∀ a', (calls a').holds = some k → a' = a)
    (hold : ∀ k', (calls a).holds = some k' → k' = k)
    (hnew : c.holds = if stage.held then some k else none) (hok : CallOk C r' c) :
    CallsOk C r' (update calls a c) := by
  have hself : update calls a c a = c := update_self ..
  have hother : ∀ a', a' ≠ a → update calls a c a' = calls a' := fun a' ha => update_of_ne ha ..
  have hwhose : ∀ a' k', (update calls a c a').holds = some k' →
      a' = a ∧ k' = k ∨ a' ≠ a ∧ k' ≠ k ∧ (calls a').holds = some k' := by
    intro a' k' hk'
    by_cases ha : a' = a
    · rw [ha, hself, hnew] at hk'
      split at hk'
      · exact Or.inl ⟨ha, (Option.some.inj hk').symm⟩
      · cases hk'
    · rw [hother a' ha] at hk'
      refine Or.inr ⟨ha, ?_, hk'⟩
      rintro rfl
      exact ha (hmine a' hk')
  constructor
  · intro a'
    by_cases ha : a' = a
    · rw [ha, hself]
      exact hok
    · rw [hother a' ha]
      refine (h.ok a').later hlater fun k' hk' => ?_
      rw [hstage, update_of_ne]
      rintro rfl
      exact ha (hmine a' hk')
  · intro a₁ a₂ k' h₁ h₂
    rcases hwhose a₁ k' h₁ with ⟨rfl, hk₁⟩ | ⟨-, hk₁, h₁'⟩ <;> rcases hwhose a₂ k' h₂ with
      ⟨rfl, hk₂⟩ | ⟨-, hk₂, h₂'⟩
    · rfl
    · exact absurd hk₁ hk₂
    · exact absurd hk₂ hk₁
    · exact h.owner a₁ a₂ k' h₁' h₂'
  · intro k' hk'
    by_cases hk : k' = k
    · subst hk
      rw [hstage, update_self] at hk'
      exact ⟨a, by rw [hself, hnew, if_pos hk']⟩
    · rw [hstage, update_of_ne hk] at hk'
      obtain ⟨a', ha'⟩ := h.held k' hk'
      have hne : a' ≠ a := by
        rintro rfl
        exact hk (hold k' ha')
      exact ⟨a', by rw [hother a' hne]; exact ha'⟩

theorem Later.claim (h : r.Inv C) : Later r r.claim := by
  have hother : ∀ k, r.stage k ≠ .unclaimed → r.claim.stage k = r.stage k := by
    intro k hk
    exact update_of_ne (h.lt_issued hk).ne ..
  constructor
  · exact Nat.le_succ _
  · exact le_rfl
  · intro k hk
    rw [hother k (by rw [hk]; nofun), hk]
  · intro k hk
    left
    rw [hother k (by rw [hk]; nofun), hk]

theorem Later.move {value : Option α} {taken : Nat} (htaken : r.taken ≤ taken)
    (hreleased : r.stage k ≠ .released)
    (hpublished : r.stage k = .published → k < taken) : Later r (r.move C k stage value taken) := by
  have hother : ∀ k', k' ≠ k → (r.move C k stage value taken).stage k' = r.stage k' :=
    fun k' hk' => update_of_ne hk' ..
  constructor
  · exact le_rfl
  · exact htaken
  · intro k' hk'
    have hne : k' ≠ k := by
      rintro rfl
      exact hreleased hk'
    rw [hother k' hne, hk']
  · intro k' hk'
    by_cases hne : k' = k
    · subst hne
      exact Or.inr (hpublished hk')
    · left
      rw [hother k' hne, hk']

/-- A call moves the ticket it has on. -/
theorem CallsOk.advance {value : Option α} (h : CallsOk C r calls) (ha : (calls a).holds = some k)
    (hnew : c.holds = if stage.held then some k else none)
    (hok : CallOk C (r.move C k stage value r.taken) c) :
    CallsOk C (r.move C k stage value r.taken) (update calls a c) := by
  have hheld := (h.ok a).held ha
  refine h.move (Later.move le_rfl ?_ ?_) rfl (fun a' ha' => h.owner a' a k ha' ha) ?_ hnew hok
  · intro hstage
    rw [hstage] at hheld
    cases hheld
  · intro hstage
    rw [hstage] at hheld
    cases hheld
  · intro k' hk'
    rw [ha] at hk'
    exact (Option.some.inj hk').symm

theorem CallsOk.of_eq (h : CallsOk C r calls) (ha : calls a = c) : CallOk C r c := by
  rw [← ha]
  exact h.ok a

/-- Nobody has the slot of a ticket at any other stage. -/
theorem CallsOk.free (h : CallsOk C r calls) (hstage : (r.stage k).held = false) (a : Nat) :
    (calls a).holds ≠ some k := by
  intro hk
  have hheld := (h.ok a).held hk
  rw [hstage] at hheld
  cases hheld

theorem Call.holds_of_done (h : c.done = true) : c.holds = none := by
  cases c <;> first | rfl | cases h

theorem Call.consumes_of_done (h : c.done = true) : c.consumes = false := by
  cases c <;> first | rfl | cases h

end Calls

section

variable {tail taken tail' taken' : Nat} {calls : Nat → Call α} {a : Nat} {c : Call α}

theorem Alone.of_producer (hc : c.consumes = false) : Alone tail taken c := by
  cases c <;> trivial

/-- A producer moves on. -/
theorem OneConsumer.producer (h : OneConsumer tail taken calls) (hold : (calls a).consumes = false)
    (hnew : c.consumes = false) : OneConsumer tail taken (update calls a c) := by
  have hconsumes : ∀ a', (update calls a c a').consumes = (calls a').consumes :=
    update_keeps Call.consumes (hnew.trans hold.symm)
  constructor
  · intro a₁ a₂ h₁ h₂
    rw [hconsumes] at h₁ h₂
    exact h.one a₁ a₂ h₁ h₂
  · exact update_forall (Alone.of_producer hnew) h.alone
  · intro hnone
    apply h.rest
    intro a'
    rw [← hconsumes a']
    exact hnone a'

/-- The consumer moves on. -/
theorem OneConsumer.mine (hothers : ∀ a', a' ≠ a → (calls a').consumes = false)
    (halone : Alone tail' taken' c)
    (hrest : c.consumes = false → tail' = taken') :
    OneConsumer tail' taken' (update calls a c) := by
  have hother : ∀ a', a' ≠ a → update calls a c a' = calls a' := fun a' ha => update_of_ne ha ..
  have hmine : ∀ a', (update calls a c a').consumes = true → a' = a := by
    intro a' ha'
    by_contra hne
    rw [hother a' hne, hothers a' hne] at ha'
    cases ha'
  constructor
  · intro a₁ a₂ h₁ h₂
    rw [hmine a₁ h₁, hmine a₂ h₂]
  · intro a'
    by_cases ha : a' = a
    · rw [ha, update_self]
      exact halone
    · rw [hother a' ha]
      exact Alone.of_producer (hothers a' ha)
  · intro hnone
    apply hrest
    have := hnone a
    rwa [update_self] at this

theorem OneConsumer.of_eq (h : OneConsumer tail taken calls) (ha : calls a = c) :
    Alone tail taken c := by
  rw [← ha]
  exact h.alone a

theorem OneConsumer.others (h : OneConsumer tail taken calls)
    (ha : (calls a).consumes = true) (a' : Nat) (hne : a' ≠ a) : (calls a').consumes = false := by
  by_contra hc
  exact hne (h.one a' a (Bool.not_eq_false _ ▸ hc) ha)

end

section Steps

variable {bits multi} {s : Machine α} {r : TicketRing α} {a k : Nat} {c : Call α}

/-- Records of tickets say nothing about a ticket that is not that far. -/
theorem Records.ne {log : List (Nat × α)} {past : TicketRing.Stage → Bool} {st : TicketRing.Stage}
    (h : Records (log.map Prod.fst) past r.stage) (hstage : r.stage k = st) (hk : past st = false) :
    ∀ p ∈ log, p.1 ≠ k := by
  rintro p hp rfl
  have hpast := (h.mem p.1).1 (List.mem_map_of_mem hp)
  rw [hstage, hk] at hpast
  cases hpast

/-- Two entries of a log for one ticket are the same. -/
theorem value_eq {pushed : List (Nat × α)} (hpushed : ∀ p ∈ pushed, r.value p.1 = some p.2) {x : α}
    (hx : r.value k = some x) (hk : k ∈ pushed.map Prod.fst) : (k, x) ∈ pushed := by
  obtain ⟨⟨k', y⟩, hp, rfl⟩ := List.mem_map.1 hk
  have hy : r.value k' = some y := hpushed _ hp
  rw [hx] at hy
  cases hy
  exact hp

variable (h : Rel bits multi s r)
include h

variable {c₀ : Call α} (ha : s.calls a = c₀) (hold : c₀.holds = none)
include ha hold

/-- A call moves on without touching the ring. -/
theorem Rel.quiet (hnew : c.holds = none) (hok : CallOk (2 ^ bits) r c)
    (hsingle : multi = false → OneConsumer s.ring.tail r.taken (update s.calls a c)) :
    Rel bits multi (s.set a c) r :=
  { h with
    calls := h.calls.quiet (ha ▸ hold) hnew hok
    single := hsingle }

/-- A producer moves on without touching the ring. -/
theorem Rel.quiet_producer (hidle : c₀.consumes = false) (hnew : c.holds = none)
    (hproduces : c.consumes = false) (hok : CallOk (2 ^ bits) r c) : Rel bits multi (s.set a c) r :=
  h.quiet ha hold hnew hok fun hmulti => (h.single hmulti).producer (ha ▸ hidle) hproduces

/-- A consumer moves on without touching the ring. -/
theorem Rel.quiet_consumer (hbusy : c₀.consumes = true) (hnew : c.holds = none)
    (hok : CallOk (2 ^ bits) r c)
    (halone : multi = false → Alone s.ring.tail r.taken c ∧
    (c.consumes = false → s.ring.tail = r.taken)) : Rel bits multi (s.set a c) r :=
  h.quiet ha hold hnew hok fun hmulti =>
    OneConsumer.mine ((h.single hmulti).others (ha ▸ hbusy)) (halone hmulti).1 (halone hmulti).2

omit ha hold

variable (hbits : bits ≤ 62) (hops : s.operations < 2 ^ 63)
include hops

/-- The numbers stay small. -/
theorem Rel.small : r.issued < 2 ^ 63 ∧ r.taken < 2 ^ 62 ∧ r.taken ≤ r.issued := by
  have hle := h.inv.taken_le
  have hcount : r.issued + r.taken < 2 ^ 63 := by
    have := hops
    rwa [operations, h.issued, h.claimed, List.length_range] at this
  omega

include hbits

omit h hops in
theorem pow_small : 2 ^ bits ≤ 2 ^ 62 := Nat.pow_le_pow_right (by decide) hbits

/-- The difference a producer computes is the real one. -/
theorem Rel.diff_head (hk : k ≤ r.issued) :
    diff (s.ring.sequence (slot bits k)) k = (r.seq (k % 2 ^ bits) : Int) - k := by
  obtain ⟨hissued, htaken, hle⟩ := h.small hops
  obtain ⟨hlow, hhigh⟩ := h.inv.seq_bounds (Nat.two_pow_pos bits) hk
  have hC := pow_small hbits
  rw [slot_eq, h.sequence]
  apply diff_eq <;> omega

/-- The difference a consumer computes is the real one. -/
theorem Rel.diff_tail (hk : k ≤ r.taken) :
    diff (s.ring.sequence (slot bits k)) ((k + 1) % 2 ^ 64) =
      (r.seq (k % 2 ^ bits) : Int) - (k + 1 : Nat) := by
  obtain ⟨hissued, htaken, hle⟩ := h.small hops
  obtain ⟨hlow, hhigh⟩ := h.inv.seq_bounds (Nat.two_pow_pos bits) (hk.trans hle)
  have hC := pow_small hbits
  rw [slot_eq, h.sequence, Nat.mod_eq_of_lt (a := k + 1) (b := 2 ^ 64) (by omega)]
  apply diff_eq <;> omega

omit hbits

/-- `m_head` moves. -/
theorem Rel.claim (ha : s.calls a = .claiming k)
    (hk : s.ring.head = k) : Rel bits multi { s.set a (.reserved k) with
      ring := { s.ring with head := (k + 1) % 2 ^ 64 }, issued := s.issued + 1 } r.claim := by
  obtain ⟨hissued, -, -⟩ := h.small hops
  have hk' : k = r.issued := hk.symm.trans h.head
  have hok := h.calls.of_eq ha
  have hfree : 2 ^ bits ≤ r.issued → r.stage (r.issued - 2 ^ bits) = .released := by
    rw [← hk']
    exact hok.2.resolve_left (by omega)
  have hunclaimed : r.stage r.issued = .unclaimed := (h.inv.unclaimed _).2 le_rfl
  have hstays : ∀ past : TicketRing.Stage → Bool, past .claimed = past .unclaimed → ∀ log,
      Records log past r.stage → Records log past r.claim.stage := by
    intro past hpast log hlog
    exact hlog.keep hunclaimed hpast
  refine { h with
    inv := h.inv.claim (Nat.two_pow_pos bits) hfree
    head := ?_
    issued := congrArg Nat.succ h.issued
    pushed := hstays _ rfl _ h.pushed
    published := hstays _ rfl _ h.published
    popped := hstays _ rfl _ h.popped
    freed := hstays _ rfl _ h.freed
    calls := ?_
    single := fun hmulti => (h.single hmulti).producer (by rw [ha]; rfl) rfl }
  · show (k + 1) % 2 ^ 64 = r.issued + 1
    rw [hk', Nat.mod_eq_of_lt (by omega)]
  · have hstage : r.claim.stage = update r.stage k .claimed := by
      rw [hk']
      rfl
    refine h.calls.move (Later.claim h.inv) hstage ?_ ?_ rfl ?_
    · intro a' ha'
      rw [hk'] at ha'
      exact absurd ha' (h.calls.free (by rw [hunclaimed]; rfl) a')
    · intro k' hk'
      rw [ha] at hk'
      cases hk'
    · show r.claim.stage k = .claimed
      rw [hk']
      exact update_self ..

omit hops in
/-- The element is constructed. -/
theorem Rel.construct (ha : s.calls a = .reserved k) (x : α) :
    Rel bits multi { s.set a (.filled k) with
      ring := { s.ring with data := update s.ring.data (slot bits k) (some x) }
      pushed := s.pushed ++ [(k, x)] } (r.move (2 ^ bits) k .written (some x) r.taken) := by
  have hstage : r.stage k = .claimed := h.calls.of_eq ha
  have hcur : r.Current (2 ^ bits) k := h.inv.current hstage nofun nofun
  have hnot : ¬ k < r.taken := by
    rw [← h.inv.consumed k, hstage]
    nofun
  have hvalue : ∀ k', k' ≠ k → (r.move (2 ^ bits) k .written (some x) r.taken).value k' =
      r.value k' :=
    fun k' hk' => update_of_ne hk' ..
  refine { h with
    inv := h.inv.move hcur nofun (iff_of_false nofun hnot) (fun _ _ => Iff.rfl) fun _ => rfl
    sequence := h.sequence.trans (h.inv.move_seq hcur hstage (by rfl)).symm
    data := ?_
    pushed := ?_
    published := h.published.keep hstage rfl
    popped := h.popped.keep hstage rfl
    freed := h.freed.keep hstage rfl
    pushed_value := fun p hp => ?_
    popped_value := fun p hp => ?_
    calls := h.calls.advance (by rw [ha]; rfl) rfl (update_self ..)
    single := fun hmulti => (h.single hmulti).producer (by rw [ha]; rfl) rfl }
  · show update s.ring.data (slot bits k) (some x) = _
    rw [slot_eq, h.data]
    rfl
  · rw [List.map_append]
    exact h.pushed.add hstage rfl rfl
  · rcases List.mem_append.1 hp with hp | hp
    · rw [hvalue _ (h.pushed.ne hstage rfl p hp)]
      exact h.pushed_value p hp
    · rw [List.mem_singleton.1 hp]
      exact update_self ..
  · rw [hvalue _ (h.popped.ne hstage rfl p hp)]
    exact h.popped_value p hp

section Moves

variable {stage : TicketRing.Stage} {taken : Nat} {x : α}

omit h hops in
/-- What a call does with the ticket it has got does not change what was put there. -/
theorem move_value {p : Nat × α} (h : r.value p.1 = some p.2) :
    (r.move (2 ^ bits) k stage (r.value k) taken).value p.1 = some p.2 := by
  rw [← h]
  exact congrFun (Function.update_eq_self k r.value) p.1

/-- The element is for consumers to see. -/
theorem Rel.publish (ha : s.calls a = .filled k) :
    Rel bits multi { s.set a .stored with
      ring := { s.ring with sequence := update s.ring.sequence (slot bits k) ((k + 1) % 2 ^ 64) }
      published := s.published ++ [k] } (r.move (2 ^ bits) k .published (r.value k) r.taken) := by
  have hstage : r.stage k = .written := h.calls.of_eq ha
  have hcur : r.Current (2 ^ bits) k := h.inv.current hstage nofun nofun
  have hnot : ¬ k < r.taken := by
    rw [← h.inv.consumed k, hstage]
    nofun
  refine { h with
    inv := h.inv.move hcur nofun (iff_of_false nofun hnot) (fun _ _ => Iff.rfl) fun _ =>
      h.inv.valued k (by rw [hstage]; nofun) (by rw [hstage]; nofun)
    sequence := ?_
    data := h.data.trans (h.inv.move_item hcur hstage (by rfl)).symm
    pushed := h.pushed.keep hstage rfl
    published := h.published.add hstage rfl rfl
    popped := h.popped.keep hstage rfl
    freed := h.freed.keep hstage rfl
    pushed_value := fun p hp => move_value (h.pushed_value p hp)
    popped_value := fun p hp => move_value (h.popped_value p hp)
    calls := h.calls.advance (by rw [ha]; rfl) rfl trivial
    single := fun hmulti => (h.single hmulti).producer (by rw [ha]; rfl) rfl }
  show update s.ring.sequence (slot bits k) ((k + 1) % 2 ^ 64) = _
  have hlt := hcur.1
  have := (h.small hops).1
  rw [slot_eq, h.sequence, Nat.mod_eq_of_lt (a := k + 1) (b := 2 ^ 64) (by omega)]
  rfl

omit hops in
/-- A consumer gets the next ticket, whichever way it does. -/
theorem Rel.get (hold : (s.calls a).holds = none) (hk : k = r.taken)
    (hstage : r.stage k = .published) {tail : Nat} (hmany : multi = true → tail = k + 1)
    (hsingle : multi = false → tail = k ∧ (s.calls a).consumes = true) :
    Rel bits multi { s.set a (.taking k) with
      ring := { s.ring with tail := tail }, claimed := s.claimed ++ [k] }
      (r.move (2 ^ bits) k .taken (r.value k) (r.taken + 1)) := by
  have hcur : r.Current (2 ^ bits) k := h.inv.current hstage nofun nofun
  refine { h with
    inv := h.inv.move hcur nofun (iff_of_true rfl (by omega)) (fun k' hk' => by omega) fun _ =>
      h.inv.valued k (by rw [hstage]; nofun) (by rw [hstage]; nofun)
    sequence := h.sequence.trans (h.inv.move_seq hcur hstage (by rfl)).symm
    data := h.data.trans (h.inv.move_item hcur hstage (by rfl)).symm
    claimed := ?_
    pushed := h.pushed.keep hstage rfl
    published := h.published.keep hstage rfl
    popped := h.popped.keep hstage rfl
    freed := h.freed.keep hstage rfl
    pushed_value := fun p hp => move_value (h.pushed_value p hp)
    popped_value := fun p hp => move_value (h.popped_value p hp)
    calls := ?_
    many := fun hmulti => (hmany hmulti).trans (congrArg Nat.succ hk)
    single := fun hmulti => ?_ }
  · show s.claimed ++ [k] = List.range (r.taken + 1)
    rw [List.range_succ, h.claimed, hk]
  · refine h.calls.move (Later.move (Nat.le_succ _) (by rw [hstage]; nofun) (fun _ => by omega))
      rfl ?_ ?_ rfl ?_
    · exact fun a' ha' => absurd ha' (h.calls.free (by rw [hstage]; rfl) a')
    · intro k' hk'
      rw [hold] at hk'
      cases hk'
    · exact update_self ..
  · obtain ⟨htail, hconsumes⟩ := hsingle hmulti
    refine OneConsumer.mine ((h.single hmulti).others hconsumes) ?_ nofun
    exact ⟨htail, congrArg Nat.succ hk.symm⟩

omit hops in
/-- The element is moved out. -/
theorem Rel.take (ha : s.calls a = .taking k) (hx : s.ring.data (slot bits k) = some x) :
    Rel bits multi { s.set a (.releasing k x) with
      ring := { s.ring with data := update s.ring.data (slot bits k) none }
      popped := s.popped ++ [(k, x)] } (r.move (2 ^ bits) k .emptied (r.value k) r.taken) := by
  have hstage : r.stage k = .taken := h.calls.of_eq ha
  have hcur : r.Current (2 ^ bits) k := h.inv.current hstage nofun nofun
  have hlt : k < r.taken := (h.inv.consumed k).1 (by rw [hstage]; rfl)
  refine { h with
    inv := h.inv.move hcur nofun (iff_of_true rfl hlt) (fun _ _ => Iff.rfl) fun _ =>
      h.inv.valued k (by rw [hstage]; nofun) (by rw [hstage]; nofun)
    sequence := h.sequence.trans (h.inv.move_seq hcur hstage (by rfl)).symm
    data := ?_
    pushed := h.pushed.keep hstage rfl
    published := h.published.keep hstage rfl
    popped := ?_
    freed := h.freed.keep hstage rfl
    pushed_value := fun p hp => move_value (h.pushed_value p hp)
    popped_value := fun p hp => move_value ?_
    calls := h.calls.advance (by rw [ha]; rfl) rfl (update_self ..)
    single := fun hmulti => ?_ }
  · show update s.ring.data (slot bits k) none = _
    rw [slot_eq, h.data]
    rfl
  · rw [List.map_append]
    exact h.popped.add hstage rfl rfl
  · rcases List.mem_append.1 hp with hp | hp
    · exact h.popped_value p hp
    · rw [slot_eq, h.data, h.inv.item k hcur, hstage] at hx
      rw [List.mem_singleton.1 hp]
      exact hx
  · have halone := (h.single hmulti).of_eq ha
    exact OneConsumer.mine ((h.single hmulti).others (by rw [ha]; rfl)) halone nofun

include hbits in
/-- The slot is given back. -/
theorem Rel.release
    (ha : s.calls a = .releasing k x) :
    Rel bits multi { s.set a (if multi then .got x else .advancing k x) with
      ring :=
        { s.ring with sequence := update s.ring.sequence (slot bits k) ((k + 2 ^ bits) % 2 ^ 64) }
      freed := s.freed ++ [k] } (r.move (2 ^ bits) k .released (r.value k) r.taken) := by
  have hstage : r.stage k = .emptied := h.calls.of_eq ha
  have hcur : r.Current (2 ^ bits) k := h.inv.current hstage nofun nofun
  have hlt : k < r.taken := (h.inv.consumed k).1 (by rw [hstage]; rfl)
  refine { h with
    inv := h.inv.move hcur nofun (iff_of_true rfl hlt) (fun _ _ => Iff.rfl) fun _ =>
      h.inv.valued k (by rw [hstage]; nofun) (by rw [hstage]; nofun)
    sequence := ?_
    data := h.data.trans (h.inv.move_item hcur hstage (by rfl)).symm
    pushed := h.pushed.keep hstage rfl
    published := h.published.keep hstage rfl
    popped := h.popped.keep hstage rfl
    freed := h.freed.add hstage rfl rfl
    pushed_value := fun p hp => move_value (h.pushed_value p hp)
    popped_value := fun p hp => move_value (h.popped_value p hp)
    calls := h.calls.advance (by rw [ha]; rfl) (by cases multi <;> rfl) (by cases multi <;> trivial)
    single := fun hmulti => ?_ }
  · show update s.ring.sequence (slot bits k) ((k + 2 ^ bits) % 2 ^ 64) = _
    have := (h.small hops).2.1
    have hC := pow_small hbits
    rw [slot_eq, h.sequence, Nat.mod_eq_of_lt (a := k + 2 ^ bits) (b := 2 ^ 64) (by omega)]
    rfl
  · have halone := (h.single hmulti).of_eq ha
    subst hmulti
    exact OneConsumer.mine ((h.single rfl).others (by rw [ha]; rfl)) halone nofun

end Moves

/-- `m_tail` moves, without `MultiConsumer`. -/
theorem Rel.advance {x : α} (ha : s.calls a = .advancing k x) (hmulti : multi = false) :
    Rel bits multi
      { s.set a (.got x) with ring := { s.ring with tail := (k + 1) % 2 ^ 64 } } r := by
  have halone := (h.single hmulti).of_eq ha
  have hsmall := (h.small hops).2.1
  have htail : (k + 1) % 2 ^ 64 = r.taken := by
    rw [halone.2, Nat.mod_eq_of_lt]
    rw [halone.2] at hsmall
    omega
  exact { h with
      calls := h.calls.quiet (by rw [ha]; rfl) rfl trivial
      many := fun hmany => absurd hmany (by rw [hmulti]; nofun)
      single := fun _ => OneConsumer.mine ((h.single hmulti).others (by rw [ha]; rfl)) trivial
        fun _ => htail }

end Steps

/-! ## Runs -/

section

variable {bits multi} {s s' : Machine α} {r : TicketRing α}

theorem operations_mono (h : Step bits multi s s') : s.operations ≤ s'.operations := by
  cases h <;> simp only [operations, set, List.length_append, List.length_singleton] <;> omega

theorem initial_rel : Rel bits multi (initial : Machine α) TicketRing.empty := by
  have hnone : ∀ past : TicketRing.Stage → Bool, past .unclaimed = false →
      Records [] past (TicketRing.empty : TicketRing α).stage := by
    intro past hpast
    constructor
    · exact List.nodup_nil
    · intro k
      simp [TicketRing.empty, hpast]
  constructor
  · exact TicketRing.empty_inv
  · rfl
  · rfl
  · rfl
  · rfl
  · rfl
  · exact hnone _ rfl
  · exact hnone _ rfl
  · exact hnone _ rfl
  · exact hnone _ rfl
  · rintro _ ⟨⟩
  · rintro _ ⟨⟩
  · constructor
    · exact fun _ => trivial
    · rintro _ _ _ ⟨⟩
    · rintro _ ⟨⟩
  · exact fun _ => rfl
  · intro _
    constructor
    · rintro _ _ ⟨⟩
    · exact fun _ => trivial
    · exact fun _ => rfl

variable (hpos : 1 ≤ bits) (hbits : bits ≤ 62)
include hpos hbits

omit hbits in
theorem two_le_capacity : 2 ≤ 2 ^ bits := Nat.pow_le_pow_right (n := 2) (by decide) hpos

/-- What a producer learns from the sequence number. -/
theorem Rel.probe (h : Rel bits multi s r) (hops : s.operations < 2 ^ 63) {k : Nat}
    (hk : k ≤ r.issued) :
    CallOk (2 ^ bits) r (probe (s.ring.sequence (slot bits k)) k : Call α) := by
  unfold Machine.probe
  rw [h.diff_head hbits hops hk]
  split
  · rename_i hzero
    refine ⟨hk, (h.inv.sender_reads (two_le_capacity hpos) hk).2 ?_⟩
    omega
  · split <;> trivial

/-- A consumer that finds its turn has the next element before it, or has lost it to another one. -/
theorem Rel.look (h : Rel bits multi s r) (hops : s.operations < 2 ^ 63) {k : Nat}
    (hk : k ≤ r.taken)
    (hzero : diff (s.ring.sequence (slot bits k)) ((k + 1) % 2 ^ 64) = 0) :
    k < r.taken ∨ r.stage k = .published := by
  rw [h.diff_tail hbits hops hk] at hzero
  exact (h.inv.taker_reads (two_le_capacity hpos) hk).2 (by omega)

/-- **One step.** -/
theorem Rel.step (h : Rel bits multi s r) (hstep : Step bits multi s s')
    (hops : s'.operations < 2 ^ 63) : ∃ r', Rel bits multi s' r' := by
  have hops' : s.operations < 2 ^ 63 := (operations_mono hstep).trans_lt hops
  cases hstep with
  | emplace a ha =>
    exact ⟨r, h.quiet_producer rfl (Call.holds_of_done ha) (Call.consumes_of_done ha)
      rfl rfl trivial⟩
  | loadHead a ha =>
    refine ⟨r, h.quiet_producer ha rfl rfl rfl rfl ?_⟩
    exact h.head.le
  | probe a k ha =>
    refine ⟨r, h.quiet_producer ha rfl rfl ?_ ?_ (h.probe hpos hbits hops' (h.calls.of_eq ha))⟩ <;>
      unfold Machine.probe <;> split <;> first | rfl | (split <;> rfl)
  | claim a k ha hk => exact ⟨_, h.claim hops' ha hk⟩
  | claimFails a k ha =>
    refine ⟨r, h.quiet_producer ha rfl rfl rfl rfl ?_⟩
    exact h.head.le
  | construct a k x ha => exact ⟨_, h.construct ha x⟩
  | publish a k ha => exact ⟨_, h.publish hops' ha⟩
  | dequeue a ha hnone =>
    refine ⟨r, h.quiet rfl (Call.holds_of_done ha) rfl trivial fun hmulti => ?_⟩
    exact OneConsumer.mine (fun a' _ => hnone hmulti a')
      ((h.single hmulti).rest (hnone hmulti)) nofun
  | loadTail a ha =>
    have htail : s.ring.tail = r.taken := by
      cases hmulti : multi with
      | true => exact h.many hmulti
      | false => exact (h.single hmulti).of_eq ha
    refine ⟨r, h.quiet_consumer ha rfl rfl rfl htail.le fun _ => ?_⟩
    exact ⟨⟨htail, htail⟩, nofun⟩
  | lookEmpty a k ha hneg =>
    refine ⟨r, h.quiet_consumer ha rfl rfl rfl trivial fun hmulti => ⟨trivial, fun _ => ?_⟩⟩
    exact ((h.single hmulti).of_eq ha).2
  | lookLate a k ha hpos' =>
    refine ⟨r, h.quiet_consumer ha rfl rfl rfl trivial fun hmulti => ⟨?_, nofun⟩⟩
    exact ((h.single hmulti).of_eq ha).2
  | lookMany a k ha hzero hmulti =>
    have hk := h.calls.of_eq ha
    refine ⟨r, h.quiet_consumer ha rfl rfl rfl ?_ fun hone => ?_⟩
    · exact ⟨hk, h.look hpos hbits hops' hk hzero⟩
    · rw [hmulti] at hone
      cases hone
  | lookOne a k ha hzero hmulti =>
    have hk := (h.single hmulti).of_eq ha
    have hpub := (h.look hpos hbits hops' hk.1.le hzero).resolve_left (Nat.not_lt_of_le hk.1.ge)
    have hmany : multi = true → s.ring.tail = k + 1 := by
      intro hmany
      rw [hmulti] at hmany
      cases hmany
    refine ⟨_, h.get (by rw [ha]; rfl) hk.1 hpub hmany fun _ => ?_⟩
    exact ⟨hk.2.trans hk.1.symm, by rw [ha]; rfl⟩
  | race a k ha htail =>
    cases hmulti : multi with
    | false =>
      -- only one consumer: nobody races
      exact ((h.single hmulti).of_eq ha).elim
    | true =>
      have hk : k = r.taken := htail.symm.trans (h.many hmulti)
      have hrace := h.calls.of_eq ha
      have hsmall := (h.small hops').2.1
      rw [← hmulti]
      refine ⟨_, h.get (by rw [ha]; rfl) hk (hrace.2.resolve_left (by omega)) (fun _ => ?_)
        fun hone => ?_⟩
      · exact Nat.mod_eq_of_lt (by omega)
      · rw [hmulti] at hone
        cases hone
  | raceFails a k ha =>
    cases hmulti : multi with
    | false =>
      exact ((h.single hmulti).of_eq ha).elim
    | true =>
      rw [← hmulti]
      refine ⟨r, h.quiet_consumer ha rfl rfl rfl (h.many hmulti).le fun hone => ?_⟩
      rw [hmulti] at hone
      cases hone
  | take a k x ha hx => exact ⟨_, h.take ha hx⟩
  | release a k x ha => exact ⟨_, h.release hbits hops' ha⟩
  | advance a k x ha hmulti => exact ⟨r, h.advance hops' ha hmulti⟩

/-- **The ring is a ring of tickets in every state of every run.** -/
theorem reachable_rel (hreach : (system bits multi).Reachable s) (hops : s.operations < 2 ^ 63) :
    ∃ r, Rel bits multi s r := by
  refine hreach.invariant (I := fun s => s.operations < 2 ^ 63 → ∃ r, Rel bits multi s r) ?_ ?_ hops
  · rintro s rfl -
    exact ⟨_, initial_rel⟩
  · intro s s' hs hstep hops'
    obtain ⟨r, hr⟩ := hs ((operations_mono hstep).trans_lt hops')
    exact hr.step hpos hbits hstep hops'

end

/-- Tickets that producers have got and whose slot has not been given back. -/
def outstanding (s : Machine α) : Nat := s.issued - s.freed.length

/-- What callers may rely on. -/
structure Sound (s : Machine α) : Prop where
  /-- Every ticket is for one element, which comes out once. -/
  pushed_once : (s.pushed.map Prod.fst).Nodup
  popped_once : (s.popped.map Prod.fst).Nodup
  popped_pushed : ∀ p ∈ s.popped, p ∈ s.pushed
  /-- Consumers get the tickets in the order in which producers did. -/
  order : s.claimed = List.range s.claimed.length
  /-- Elements that consumers are past have come out, or the consumer that has the ticket is about
  to move it. -/
  not_lost : ∀ k ∈ s.claimed, (∃ x, (k, x) ∈ s.popped) ∨ ∃ a, s.calls a = .taking k
  bounded : s.pushed.length ≤ s.popped.length + 2 ^ bits
  constructs : ∀ a k, s.calls a = .reserved k → s.ring.data (slot bits k) = none
  reads : ∀ a k, s.calls a = .taking k → k ∈ s.published ∧ ∃ x, (k, x) ∈ s.pushed ∧
    s.ring.data (slot bits k) = some x
  /-- `try_emplace` and `try_reserve` fail at a moment at which the slot of the next ticket has not
  been given back. -/
  refuses : ∀ a k, s.calls a = .probing k → probe (s.ring.sequence (slot bits k)) k =
    (.refused : Call α) →
    s.issued = k ∧ 2 ^ bits ≤ k ∧ k - 2 ^ bits ∉ s.freed ∧
    (multi = false → 2 ^ bits ≤ s.outstanding)
  /-- `try_dequeue` fails at a moment at which the next ticket is not published. -/
  misses : ∀ a k, s.calls a = .looking k →
    diff (s.ring.sequence (slot bits k)) ((k + 1) % 2 ^ 64) < 0 →
    s.claimed.length = k ∧ k ∉ s.published

section Sound

variable {bits multi} {s : Machine α} {r : TicketRing α} {k : Nat}

/-- Elements in the ring have their slots. -/
theorem Rel.bounded (h : Rel bits multi s r) : s.pushed.length ≤ s.popped.length + 2 ^ bits := by
  have hsub : s.pushed.map Prod.fst ⊆ s.popped.map Prod.fst ++
      List.range' (r.issued - 2 ^ bits) (2 ^ bits) := by
    intro k hk
    have hfilled := (h.pushed.mem k).1 hk
    rw [List.mem_append, h.popped.mem, List.mem_range'_1]
    by_cases hdrained : (r.stage k).drained = true
    · exact Or.inl hdrained
    · right
      have hcur : r.Current (2 ^ bits) k := by
        apply h.inv.current rfl
        · intro hs
          rw [hs] at hfilled
          cases hfilled
        · intro hs
          rw [hs] at hdrained
          exact hdrained rfl
      obtain ⟨hlt, hle⟩ := hcur
      omega
  have hlength := (h.pushed.nodup.subperm hsub).length_le
  rw [List.length_append, List.length_map, List.length_map, List.length_range'] at hlength
  exact hlength

/-- With one consumer slots are given back in order. -/
theorem Rel.freed_le (h : Rel bits multi s r) (hmulti : multi = false)
    (hk : r.stage k ≠ .released) : s.freed.length ≤ k := by
  have hsub : s.freed ⊆ List.range k := by
    intro j hj
    have hreleased : r.stage j = .released := of_decide_eq_true ((h.freed.mem j).1 hj)
    have hj' : j < r.taken := (h.inv.consumed j).1 (by rw [hreleased]; rfl)
    rw [List.mem_range]
    by_contra hle
    -- then a consumer has `k`, and it is the last ticket that has been claimed
    have hconsumed := (h.inv.consumed k).2 (by omega)
    have hheld : (r.stage k).held = true := by
      cases hs : r.stage k <;> rw [hs] at hconsumed hk <;>
        first | rfl | exact absurd rfl hk | cases hconsumed
    obtain ⟨a, ha⟩ := h.calls.held k hheld
    have halone := (h.single hmulti).alone a
    have hok := h.calls.ok a
    have hlast : r.taken = k + 1 := by
      cases hc : s.calls a <;> rw [hc] at ha halone hok <;> cases ha
      · rw [show r.stage k = _ from hok] at hconsumed
        cases hconsumed
      · rw [show r.stage k = _ from hok] at hconsumed
        cases hconsumed
      · exact halone.2
      · exact halone.2
    have heq : j = k := by omega
    exact hk (heq ▸ hreleased)
  have hlength := (h.freed.nodup.subperm hsub).length_le
  rwa [List.length_range] at hlength

variable (hpos : 1 ≤ bits) (hbits : bits ≤ 62)
include hpos hbits

variable (h : Rel bits multi s r) (hops : s.operations < 2 ^ 63)
include h hops

theorem Rel.refuses (hk : k ≤ r.issued)
    (hrefused : Machine.probe (s.ring.sequence (slot bits k)) k = (.refused : Call α)) :
    s.issued = k ∧ 2 ^ bits ≤ k ∧ k - 2 ^ bits ∉ s.freed ∧
    (multi = false → 2 ^ bits ≤ s.outstanding) := by
  have hbehind : r.seq (k % 2 ^ bits) < k := by
    unfold Machine.probe at hrefused
    rw [h.diff_head hbits hops hk] at hrefused
    split at hrefused
    · cases hrefused
    · split at hrefused
      · omega
      · cases hrefused
  obtain ⟨hissued, hround, -, hopen⟩ := (h.inv.sender_reads (two_le_capacity hpos) hk).1 hbehind
  refine ⟨h.issued.trans hissued, hround, ?_, fun hmulti => ?_⟩
  · rw [h.freed.mem]
    exact fun hmem => hopen (of_decide_eq_true hmem)
  · have hfreed := h.freed_le hmulti hopen
    unfold outstanding
    rw [h.issued, hissued]
    omega

theorem Rel.misses (hk : k ≤ r.taken)
    (hneg : diff (s.ring.sequence (slot bits k)) ((k + 1) % 2 ^ 64) < 0) :
    s.claimed.length = k ∧ k ∉ s.published := by
  rw [h.diff_tail hbits hops hk] at hneg
  obtain ⟨htaken, hstage⟩ := (h.inv.taker_reads (two_le_capacity hpos) hk).1 (by omega)
  constructor
  · rw [h.claimed, List.length_range]
    exact htaken
  · rw [h.published.mem]
    rcases hstage with hs | hs | hs <;> rw [hs] <;> nofun

theorem Rel.sound : Sound bits multi s := by
  constructor
  · exact h.pushed.nodup
  · exact h.popped.nodup
  · rintro ⟨k, x⟩ hp
    have hdrained := (h.popped.mem k).1 (List.mem_map_of_mem hp)
    apply value_eq h.pushed_value (h.popped_value _ hp)
    rw [h.pushed.mem]
    show (r.stage k).filled = true
    cases hs : r.stage k <;> rw [hs] at hdrained <;> first | rfl | cases hdrained
  · rw [h.claimed, List.length_range]
  · intro k hk
    rw [h.claimed, List.mem_range, ← h.inv.consumed] at hk
    by_cases hdrained : (r.stage k).drained = true
    · left
      obtain ⟨⟨k', x⟩, hp, rfl⟩ := List.mem_map.1 ((h.popped.mem k).2 hdrained)
      exact ⟨x, hp⟩
    · right
      have hs : r.stage k = .taken := by
        cases hs : r.stage k <;> rw [hs] at hk hdrained <;>
          first | rfl | exact absurd rfl hdrained | cases hk
      obtain ⟨a, ha⟩ := h.calls.held k (by rw [hs]; rfl)
      have hcall := h.calls.ok a
      refine ⟨a, ?_⟩
      cases hc : s.calls a <;> rw [hc] at ha hcall <;> cases ha <;>
        first | rfl | (rw [show r.stage k = _ from hcall] at hs; cases hs)
  · exact h.bounded
  · intro a k ha
    have hs : r.stage k = .claimed := h.calls.of_eq ha
    rw [slot_eq, h.data, h.inv.item k (h.inv.current hs nofun nofun), hs]
    rfl
  · intro a k ha
    have hs : r.stage k = .taken := h.calls.of_eq ha
    have hcur := h.inv.current hs nofun nofun
    obtain ⟨x, hx⟩ :=
      Option.isSome_iff_exists.1 (h.inv.valued k (by rw [hs]; nofun) (by rw [hs]; nofun))
    refine ⟨(h.published.mem k).2 (by rw [hs]; rfl), x, ?_, ?_⟩
    · exact value_eq h.pushed_value hx ((h.pushed.mem k).2 (by rw [hs]; rfl))
    · rw [slot_eq, h.data, h.inv.item k hcur, hs]
      exact hx
  · intro a k ha
    exact h.refuses hpos hbits hops (h.calls.of_eq ha)
  · intro a k ha
    exact h.misses hpos hbits hops (h.calls.of_eq ha)

omit h hops

end Sound

/-- **Every state of every run is sound**, for every capacity that fits the address space and fewer
than `2 ^ 63` tickets. -/
theorem run_sound (hpos : 1 ≤ bits) (hbits : bits ≤ 62) (s : Machine α)
    (hreach : (system bits multi).Reachable s)
    (hops : s.operations < 2 ^ 63) : Sound bits multi s := by
  obtain ⟨r, hr⟩ := reachable_rel hpos hbits hreach hops
  exact hr.sound hpos hbits hops

section

variable {bits multi} {s : Machine α} {a k : Nat}

theorem Step.probeFree (ha : s.calls a = .probing k) (hseq : s.ring.sequence (slot bits k) = k) :
    Step bits multi s (s.set a (.claiming k)) := by
  have hstep : Step bits multi s _ := Step.probe a k ha
  rwa [hseq, probe_self] at hstep

theorem Step.lookReady (ha : s.calls a = .looking k)
    (hseq : s.ring.sequence (slot bits k) = (k + 1) % 2 ^ 64)
    (hmulti : multi = true) : Step bits multi s (s.set a (.racing k)) := by
  refine Step.lookMany a k ha ?_ hmulti
  rw [hseq, diff_self]

end

/-- Two elements are in, `1` has the ticket of the first one and stalls, and `2` takes out the
second one. -/
theorem exists_stalled :
    ∃ s : Machine Nat, (system 1 true).Reachable s ∧ (s.calls 0).done = true ∧ s.issued = 2 ∧
    s.calls 1 = .taking 0 ∧ s.calls 2 = .got 9 ∧ s.popped = [(1, 9)] ∧ s.freed = [1] ∧
    s.claimed = [0, 1] ∧ s.ring.head = 2 ∧ s.ring.sequence 0 = 1 := by
  have h := System.Reachable.init (S := system 1 true) (s := (initial : Machine Nat)) rfl
  -- the producer, twice
  have h := h.step (Step.emplace 0 rfl)
  have h := h.step (Step.loadHead 0 rfl)
  have h := h.step (Step.probeFree (a := 0) (k := 0) rfl rfl)
  have h := h.step (Step.claim 0 0 rfl rfl)
  have h := h.step (Step.construct 0 0 7 rfl)
  have h := h.step (Step.publish 0 0 rfl)
  have h := h.step (Step.emplace 0 rfl)
  have h := h.step (Step.loadHead 0 rfl)
  have h := h.step (Step.probeFree (a := 0) (k := 1) rfl rfl)
  have h := h.step (Step.claim 0 1 rfl rfl)
  have h := h.step (Step.construct 0 1 9 rfl)
  have h := h.step (Step.publish 0 1 rfl)
  -- the consumer that stalls
  have h := h.step (Step.dequeue 1 rfl nofun)
  have h := h.step (Step.loadTail 1 rfl)
  have h := h.step (Step.lookReady (a := 1) (k := 0) rfl rfl rfl)
  have h := h.step (Step.race 1 0 rfl rfl)
  -- the consumer that does not
  have h := h.step (Step.dequeue 2 rfl nofun)
  have h := h.step (Step.loadTail 2 rfl)
  have h := h.step (Step.lookReady (a := 2) (k := 1) rfl rfl rfl)
  have h := h.step (Step.race 2 1 rfl rfl)
  have h := h.step (Step.take 2 1 9 rfl rfl)
  have h := h.step (Step.release 2 1 9 rfl)
  exact ⟨_, h, rfl, rfl, rfl, rfl, rfl, rfl, rfl, rfl, rfl⟩

theorem run_sound_stalled : ∃ s : Machine Nat, (system 1 true).Reachable s ∧ s.operations < 2 ^ 63 ∧
    s.popped = [(1, 9)] ∧ s.calls 1 = .taking 0 ∧ Sound 1 true s := by
  obtain ⟨s, hreach, -, hissued, hstalled, -, hpopped, -, hclaimed, -⟩ := exists_stalled
  have hops : s.operations < 2 ^ 63 := by
    rw [operations, hissued, hclaimed]
    decide
  exact ⟨s, hreach, hops, hpopped, hstalled, run_sound 1 true le_rfl (by decide) s hreach hops⟩

/-- **With several consumers `try_emplace` can fail beside a free slot**: during the whole call one
ticket of two is outstanding. -/
theorem refused_with_room :
    ∃ s₀ s₁ s₂ s₃ : Machine Nat, (system 1 true).Reachable s₀ ∧ (s₀.calls 0).done = true ∧
    Step 1 true s₀ s₁ ∧ s₁.calls 0 = .start ∧ Step 1 true s₁ s₂ ∧ Step 1 true s₂ s₃ ∧
    s₃.calls 0 = .refused ∧ ∀ s ∈ [s₀, s₁, s₂, s₃], s.outstanding = 1 ∧ s.operations < 2 ^ 63 := by
  obtain ⟨s, hreach, hdone, hissued, -, -, -, hfreed, hclaimed, hhead, hseq⟩ := exists_stalled
  have hstart : (s.set 0 .start).calls 0 = .start := rfl
  have hprobing : ((s.set 0 .start).set 0 (.probing 2)).calls 0 = .probing 2 := rfl
  have hrefused : (probe 1 2 : Call Nat) = .refused := by
    unfold probe
    rw [diff_eq (by decide) (by decide)]
    rfl
  have hload : Step 1 true (s.set 0 .start) _ := Step.loadHead 0 hstart
  rw [show (s.set 0 .start).ring.head = 2 from hhead] at hload
  have hprobe : Step 1 true ((s.set 0 .start).set 0 (.probing 2)) _ := Step.probe 0 2 hprobing
  rw [show ((s.set 0 .start).set 0 (.probing 2)).ring.sequence (slot 1 2) = 1 from hseq] at hprobe
  refine ⟨s, _, _, _, hreach, hdone, Step.emplace 0 hdone, hstart, hload, hprobe, hrefused, ?_⟩
  have hcount : s.issued - s.freed.length = 1 ∧ s.issued + s.claimed.length < 2 ^ 63 := by
    rw [hissued, hfreed, hclaimed]
    decide
  intro s' hs'
  simp only [List.mem_cons, List.not_mem_nil, or_false] at hs'
  rcases hs' with rfl | rfl | rfl | rfl <;> exact hcount

end Machine

end RingBuffer
end Erebus.Utils
