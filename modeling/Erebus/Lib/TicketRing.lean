import Mathlib.Tactic

/-!
# A ring of slots with tickets on both sides

A ring of `C` slots for any number of senders and any number of takers. Ticket `k` uses slot `k %
C`; the slot's sequence number says how far the ticket in it has come. Senders claim tickets in
order, and so do takers, but between claims everybody works at their own pace, so each ticket has a
stage of its own.

* `Stage`: what has become of a ticket.
* `Inv`: the sequence number and the contents of every slot, from the stage of the ticket that has
  the slot.
* `Inv.claim`, `Inv.move`: the two kinds of steps: a sender gets a ticket, or a ticket moves to
  another stage.
* `Inv.sender_reads`, `Inv.taker_reads`: what a sequence number tells whoever looks at it with an
  old index.
-/

/-- Two tickets of one round have different slots. -/
theorem TicketQueue.slot_ne {N a k k' : Nat} (hk : a ≤ k) (hk' : a ≤ k') (hlt : k < a + N)
    (hlt' : k' < a + N) (hne : k ≠ k') : k % N ≠ k' % N := by
  intro heq
  apply hne
  apply Nat.ModEq.eq_of_abs_lt (m := N) heq
  rw [abs_lt]
  omega

/-- What has become of a ticket. -/
inductive TicketRing.Stage
  | unclaimed
  /-- A sender has it. -/
  | claimed
  /-- The slot is filled. -/
  | written
  /-- The sequence number says so. -/
  | published
  /-- A taker has it. -/
  | taken
  /-- The slot is empty again. -/
  | emptied
  /-- The sequence number says so. -/
  | released
  deriving DecidableEq

namespace TicketRing.Stage

/-- A taker has had the ticket. -/
def consumed : Stage → Bool
  | taken | emptied | released => true
  | _ => false

/-- The slot holds the ticket's item. -/
def full : Stage → Bool
  | written | published | taken => true
  | _ => false

/-- The item has been written. -/
def filled : Stage → Bool
  | unclaimed | claimed => false
  | _ => true

/-- The item is for takers to see, or has been. -/
def visible : Stage → Bool
  | unclaimed | claimed | written => false
  | _ => true

/-- The item has been taken out. -/
def drained : Stage → Bool
  | emptied | released => true
  | _ => false

/-- Somebody has the slot to themselves. -/
def held : Stage → Bool
  | claimed | written | taken | emptied => true
  | _ => false

/-- The sequence number of the slot of ticket `k` at a stage. -/
def turn (C k : Nat) : Stage → Nat
  | unclaimed | claimed | written => k
  | published | taken | emptied => k + 1
  | released => k + C

end TicketRing.Stage

/-- A ring, with the history of its tickets. -/
structure TicketRing (α : Type*) where
  /-- Tickets that senders have. -/
  issued : Nat
  /-- Tickets that takers have. -/
  taken : Nat
  stage : Nat → TicketRing.Stage
  value : Nat → Option α
  seq : Nat → Nat
  item : Nat → Option α

namespace TicketRing

open Function (update_self update_of_ne update_eq_self)

variable {α : Type*} {C : Nat} {r : TicketRing α} {k k' : Nat}

/-- The ring before its first use. -/
def empty : TicketRing α := ⟨0, 0, fun _ => .unclaimed, fun _ => none, fun i => i, fun _ => none⟩

/-- The last ticket that has its slot. -/
def Current (C : Nat) (r : TicketRing α) (k : Nat) : Prop := k < r.issued ∧ r.issued ≤ k + C

/-- A sender gets the next ticket. -/
def claim (r : TicketRing α) : TicketRing α :=
  { r with issued := r.issued + 1, stage := Function.update r.stage r.issued .claimed }

/-- A ticket moves to another stage, and its slot with it. -/
def move (C : Nat) (r : TicketRing α) (k : Nat) (stage : Stage) (value : Option α)
    (taken : Nat) : TicketRing α :=
  { r with
    taken := taken
    stage := Function.update r.stage k stage
    value := Function.update r.value k value
    seq := Function.update r.seq (k % C) (stage.turn C k)
    item := Function.update r.item (k % C) (if stage.full then value else none) }

structure Inv (C : Nat) (r : TicketRing α) : Prop where
  unclaimed : ∀ k, r.stage k = .unclaimed ↔ r.issued ≤ k
  consumed : ∀ k, (r.stage k).consumed = true ↔ k < r.taken
  /-- A slot is handed on once it is released. -/
  round : ∀ k, k + C < r.issued → r.stage k = .released
  seq : ∀ k, r.Current C k → r.seq (k % C) = (r.stage k).turn C k
  item : ∀ k, r.Current C k → r.item (k % C) = if (r.stage k).full then r.value k else none
  /-- Slots of the first round that nobody has used. -/
  fresh : ∀ k, r.issued ≤ k → k < C → r.seq k = k ∧ r.item k = none
  valued : ∀ k, r.stage k ≠ .unclaimed → r.stage k ≠ .claimed → (r.value k).isSome = true

theorem empty_inv : Inv C (empty : TicketRing α) where
  unclaimed k := by simp [empty]
  consumed k := by simp [empty, Stage.consumed]
  round k hk := absurd hk (Nat.not_lt_zero _)
  seq k hk := absurd hk.1 (Nat.not_lt_zero _)
  item k hk := absurd hk.1 (Nat.not_lt_zero _)
  fresh k _ _ := by simp [empty]
  valued k hk _ := by simp [empty] at hk

/-- Two tickets that have their slots have different ones. -/
theorem Current.eq_of_slot (h : r.Current C k) (h' : r.Current C k')
    (hslot : k % C = k' % C) : k = k' := by
  by_contra hne
  obtain ⟨hlt, hle⟩ := h
  obtain ⟨hlt', hle'⟩ := h'
  refine TicketQueue.slot_ne (a := r.issued - C) (N := C) ?_ ?_ ?_ ?_ hne hslot <;> omega

theorem Stage.le_turn (C k : Nat) (stage : Stage) : k ≤ stage.turn C k := by
  cases stage <;> simp [Stage.turn]

/-- Only a released slot shows the ticket one round later. -/
theorem Stage.turn_eq_add {stage : Stage} (hC : 2 ≤ C) :
    stage.turn C k = k + C ↔ stage = .released := by
  cases stage <;> simp [Stage.turn] <;> omega

theorem Stage.turn_le_add (stage : Stage) (hC : 0 < C) : stage.turn C k ≤ k + C := by
  cases stage <;> simp [Stage.turn]
  all_goals omega

/-- A slot shows the ticket itself until it is published. -/
theorem Stage.turn_le {stage : Stage} (hC : 2 ≤ C) :
    stage.turn C k ≤ k ↔ stage = .unclaimed ∨ stage = .claimed ∨ stage = .written := by
  cases stage <;> simp [Stage.turn]
  omega

namespace Inv

variable (h : Inv C r)
include h

theorem lt_issued (hstage : r.stage k ≠ .unclaimed) : k < r.issued := by
  by_contra hle
  exact hstage ((h.unclaimed k).2 (Nat.le_of_not_lt hle))

theorem taken_le : r.taken ≤ r.issued := by
  by_contra hlt
  have hconsumed := (h.consumed r.issued).2 (Nat.lt_of_not_le hlt)
  rw [(h.unclaimed r.issued).2 le_rfl] at hconsumed
  cases hconsumed

/-- A ticket between its claim and its release has its slot. -/
theorem current {st : Stage} (hstage : r.stage k = st) (hclaimed : st ≠ .unclaimed)
    (hopen : st ≠ .released) : r.Current C k := by
  subst hstage
  constructor
  · exact h.lt_issued hclaimed
  · by_contra hlt
    exact hopen (h.round k (Nat.lt_of_not_le hlt))

variable (hC : 0 < C) (hfree : C ≤ r.issued → r.stage (r.issued - C) = .released)
variable {stage : Stage} {taken : Nat}
include hC hfree

/-- The slot of the next ticket is free: nobody has used it yet, or the last user has released
it. -/
theorem next_free : r.seq (r.issued % C) = r.issued ∧ r.item (r.issued % C) = none := by
  by_cases hfirst : r.issued < C
  · rw [Nat.mod_eq_of_lt hfirst]
    exact h.fresh _ le_rfl hfirst
  · have hround : C ≤ r.issued := Nat.le_of_not_lt hfirst
    have hcur : r.Current C (r.issued - C) := by
      constructor <;> omega
    have hslot : (r.issued - C) % C = r.issued % C := (Nat.mod_eq_sub_mod hround).symm
    have hseq := h.seq _ hcur
    have hitem := h.item _ hcur
    rw [hslot, hfree hround] at hseq hitem
    constructor
    · rw [hseq]
      show r.issued - C + C = r.issued
      omega
    · rw [hitem]
      rfl

/-- **A sender gets a ticket.** -/
theorem claim : Inv C r.claim := by
  obtain ⟨hseq, hitem⟩ := h.next_free hC hfree
  have htaken := h.taken_le
  have hself : r.claim.stage r.issued = .claimed := update_self ..
  have hother : ∀ k, k ≠ r.issued → r.claim.stage k = r.stage k := fun k hk => update_of_ne hk ..
  have hcurrent : ∀ k, k ≠ r.issued → r.claim.Current C k → r.Current C k := by
    rintro k hk ⟨hlt, hle⟩
    have hlt' : k < r.issued + 1 := hlt
    have hle' : r.issued + 1 ≤ k + C := hle
    constructor <;> omega
  constructor
  · intro k
    show _ ↔ r.issued + 1 ≤ k
    by_cases hk : k = r.issued
    · subst hk
      rw [hself]
      simp
    · rw [hother k hk, h.unclaimed k]
      omega
  · intro k
    by_cases hk : k = r.issued
    · subst hk
      rw [hself]
      simp only [Stage.consumed, Bool.false_eq_true, false_iff, not_lt]
      exact htaken
    · rw [hother k hk]
      exact h.consumed k
  · intro k hk
    have hk' : k + C < r.issued + 1 := hk
    rw [hother k (by omega)]
    by_cases hlast : k + C = r.issued
    · have hk : k = r.issued - C := by omega
      rw [hk]
      exact hfree (by omega)
    · exact h.round k (by omega)
  · intro k hk
    by_cases hne : k = r.issued
    · subst hne
      rw [hself]
      exact hseq
    · rw [hother k hne]
      exact h.seq k (hcurrent k hne hk)
  · intro k hk
    by_cases hne : k = r.issued
    · subst hne
      rw [hself]
      exact hitem
    · rw [hother k hne]
      exact h.item k (hcurrent k hne hk)
  · exact fun k hk => h.fresh k (Nat.le_of_succ_le hk)
  · intro k hunclaimed hclaimed
    have hne : k ≠ r.issued := by
      rintro rfl
      exact hclaimed hself
    rw [hother k hne] at hunclaimed hclaimed
    exact h.valued k hunclaimed hclaimed

omit hC hfree

/-- **A ticket moves to another stage.**  What is in its slot changes with it, and nothing else
does. -/
theorem move {value : Option α} (hcur : r.Current C k) (hstage : stage ≠ .unclaimed)
    (hconsumed : stage.consumed = true ↔ k < taken)
    (htaken : ∀ k', k' ≠ k → (k' < taken ↔ k' < r.taken))
    (hvalue : stage ≠ .claimed → value.isSome = true) : Inv C (r.move C k stage value taken) := by
  have hself : (r.move C k stage value taken).stage k = stage := update_self ..
  have hother : ∀ k', k' ≠ k → (r.move C k stage value taken).stage k' = r.stage k' :=
    fun k' hk' => update_of_ne hk' ..
  have hslot : ∀ k', k' ≠ k → r.Current C k' → k' % C ≠ k % C :=
    fun k' hk' hcur' heq => hk' (hcur'.eq_of_slot hcur heq)
  constructor
  · intro k'
    by_cases hk : k' = k
    · subst hk
      rw [hself]
      exact iff_of_false hstage (Nat.not_le_of_lt hcur.1)
    · rw [hother k' hk]
      exact h.unclaimed k'
  · intro k'
    by_cases hk : k' = k
    · subst hk
      rw [hself]
      exact hconsumed
    · rw [hother k' hk, h.consumed k']
      exact (htaken k' hk).symm
  · intro k' hk'
    have hlt : k' + C < r.issued := hk'
    have hle := hcur.2
    rw [hother k' (by omega)]
    exact h.round k' hlt
  · intro k' hcur'
    by_cases hk : k' = k
    · subst hk
      rw [hself]
      exact update_self ..
    · rw [hother k' hk, ← h.seq k' hcur']
      exact update_of_ne (hslot k' hk hcur') ..
  · intro k' hcur'
    by_cases hk : k' = k
    · subst hk
      rw [hself, show (r.move C k' stage value taken).value k' = value from update_self ..]
      exact update_self ..
    · rw [hother k' hk, show (r.move C k stage value taken).value k' = r.value k' from
        update_of_ne hk .., ← h.item k' hcur']
      exact update_of_ne (hslot k' hk hcur') ..
  · intro k' hk' hlt
    have hle : r.issued ≤ k' := hk'
    -- a slot of the first round that nobody has used is not the slot of `k`
    have hne : k' ≠ k % C := by
      have := hcur.1
      rw [Nat.mod_eq_of_lt (by omega)]
      omega
    obtain ⟨hseq, hitem⟩ := h.fresh k' hle hlt
    constructor
    · exact (update_of_ne hne ..).trans hseq
    · exact (update_of_ne hne ..).trans hitem
  · intro k' hunclaimed hclaimed
    by_cases hk : k' = k
    · subst hk
      rw [hself] at hclaimed
      rw [show (r.move C k' stage value taken).value k' = value from update_self ..]
      exact hvalue hclaimed
    · rw [hother k' hk] at hunclaimed hclaimed
      rw [show (r.move C k stage value taken).value k' = r.value k' from update_of_ne hk ..]
      exact h.valued k' hunclaimed hclaimed

/-- A step that does not show in the sequence number. -/
theorem move_seq {value : Option α} {st : Stage} (hcur : r.Current C k) (hstage : r.stage k = st)
    (hturn : st.turn C k = stage.turn C k) : (r.move C k stage value taken).seq = r.seq := by
  show Function.update r.seq (k % C) (stage.turn C k) = r.seq
  rw [← hturn, ← hstage, ← h.seq k hcur, update_eq_self]

/-- A step that does not show in the contents. -/
theorem move_item {st : Stage} (hcur : r.Current C k) (hstage : r.stage k = st)
    (hfull : st.full = stage.full) : (r.move C k stage (r.value k) taken).item = r.item := by
  show Function.update r.item (k % C) (if stage.full = true then r.value k else none) = r.item
  rw [← hfull, ← hstage, ← h.item k hcur, update_eq_self]

omit h in
/-- The ticket that has the slot of an old ticket. -/
theorem exists_current (hC : 0 < C) (hk : k < r.issued) :
    ∃ k', r.Current C k' ∧ k ≤ k' ∧ k' % C = k % C := by
  refine ⟨k + C * ((r.issued - 1 - k) / C), ⟨?_, ?_⟩, Nat.le_add_right _ _,
    Nat.add_mul_mod_self_left ..⟩
  · have := Nat.mul_div_le (r.issued - 1 - k) C
    omega
  · have := Nat.lt_mul_div_succ (r.issued - 1 - k) hC
    rw [Nat.mul_add, Nat.mul_one] at this
    omega

theorem turn_le (hcur : r.Current C k) : (r.stage k).turn C k ≤ max r.issued (r.taken + C) := by
  have hlt := hcur.1
  cases hstage : r.stage k with
  | released =>
    have hconsumed := (h.consumed k).1 (by rw [hstage]; rfl)
    exact le_max_of_le_right (by show k + C ≤ _; omega)
  | unclaimed => exact le_max_of_le_left hlt.le
  | claimed => exact le_max_of_le_left hlt.le
  | written => exact le_max_of_le_left hlt.le
  | published => exact le_max_of_le_left hlt
  | taken => exact le_max_of_le_left hlt
  | emptied => exact le_max_of_le_left hlt

/-- What can be in the slot of a ticket that senders have reached. -/
theorem seq_cases (hC : 0 < C) (hk : k ≤ r.issued) :
    (∃ k', k < r.issued ∧ r.Current C k' ∧ k ≤ k' ∧ k' % C = k % C ∧
      r.seq (k % C) = (r.stage k').turn C k') ∨ (r.issued = k ∧ k < C ∧ r.seq (k % C) = k) ∨
      (r.issued = k ∧ C ≤ k ∧ r.Current C (k - C) ∧
        r.seq (k % C) = (r.stage (k - C)).turn C (k - C)) := by
  rcases Nat.lt_or_eq_of_le hk with hlt | heq
  · obtain ⟨k', hcur, hle, hslot⟩ := exists_current hC hlt
    refine .inl ⟨k', hlt, hcur, hle, hslot, ?_⟩
    rw [← hslot]
    exact h.seq k' hcur
  · rcases Nat.lt_or_ge k C with hfirst | hround
    · refine .inr (.inl ⟨heq.symm, hfirst, ?_⟩)
      rw [Nat.mod_eq_of_lt hfirst]
      exact (h.fresh k heq.ge hfirst).1
    · have hcur : r.Current C (k - C) := by
        constructor <;> omega
      refine .inr (.inr ⟨heq.symm, hround, hcur, ?_⟩)
      rw [Nat.mod_eq_sub_mod hround]
      exact h.seq _ hcur

/-- A sequence number is not far from any index that somebody still has. -/
theorem seq_bounds (hC : 0 < C) (hk : k ≤ r.issued) :
    k ≤ r.seq (k % C) + C ∧ r.seq (k % C) ≤ max r.issued (r.taken + C) := by
  rcases h.seq_cases hC hk with
    ⟨k', -, hcur, hle, -, hseq⟩ | ⟨heq, -, hseq⟩ | ⟨heq, hround, hcur, hseq⟩
  · have := Stage.le_turn C k' (r.stage k')
    have := h.turn_le hcur
    rw [hseq]
    omega
  · rw [hseq]
    omega
  · have := Stage.le_turn C (k - C) (r.stage (k - C))
    have := h.turn_le hcur
    rw [hseq]
    omega

/-- **A sender looks at the slot of its ticket.**  If the slot is behind, the last user of it has
not released it; if it is the ticket's turn, the ticket is gone or free. -/
theorem sender_reads (hC : 2 ≤ C) (hk : k ≤ r.issued) :
    (r.seq (k % C) < k → r.issued = k ∧ C ≤ k ∧ r.stage (k - C) ≠ .unclaimed ∧
      r.stage (k - C) ≠ .released) ∧
      (r.seq (k % C) = k → k < r.issued ∨ (C ≤ k → r.stage (k - C) = .released)) := by
  rcases h.seq_cases (by omega) hk with
    ⟨k', hlt, -, hle, -, hseq⟩ | ⟨heq, hfirst, hseq⟩ | ⟨heq, hround, hcur, hseq⟩
  · constructor
    · intro hbehind
      have := Stage.le_turn C k' (r.stage k')
      omega
    · exact fun _ => .inl hlt
  · constructor
    · intro hbehind
      omega
    · exact fun _ => .inr fun hround => absurd hround (Nat.not_le_of_lt hfirst)
  · rw [hseq]
    constructor
    · intro hbehind
      refine ⟨heq, hround, fun hstage => ?_, fun hstage => ?_⟩
      · have := (h.unclaimed _).1 hstage
        have := hcur.1
        omega
      · rw [(Stage.turn_eq_add hC).2 hstage] at hbehind
        omega
    · intro hturn
      have hnext : (r.stage (k - C)).turn C (k - C) = k - C + C := by omega
      exact .inr fun _ => (Stage.turn_eq_add hC).1 hnext

/-- **A taker looks at the slot of its ticket.**  If the slot is behind, the ticket is the next one
and not published; if it is the ticket's turn, the ticket is gone or published. -/
theorem taker_reads (hC : 2 ≤ C) (hk : k ≤ r.taken) : (r.seq (k % C) < k + 1 →
      r.taken = k ∧ (r.stage k = .unclaimed ∨ r.stage k = .claimed ∨ r.stage k = .written)) ∧
      (r.seq (k % C) = k + 1 → k < r.taken ∨ r.stage k = .published) := by
  have hissued := hk.trans h.taken_le
  rcases Nat.lt_or_eq_of_le hk with hlt | heq
  · -- another taker has had the ticket: the slot is past it
    obtain ⟨k', hcur, hle, hslot⟩ :=
      exists_current (zero_lt_two.trans_le hC) (hlt.trans_le h.taken_le)
    have hpast : k + 1 ≤ r.seq (k % C) := by
      rw [← hslot, h.seq k' hcur]
      rcases Nat.lt_or_eq_of_le hle with hlater | rfl
      · exact hlater.trans_le (Stage.le_turn C k' (r.stage k'))
      · by_contra hbehind
        have hconsumed := (h.consumed k).2 hlt
        rcases (Stage.turn_le hC).1 (Nat.le_of_lt_succ (Nat.lt_of_not_le hbehind)) with
          hs | hs | hs <;> rw [hs] at hconsumed <;> cases hconsumed
    constructor
    · intro hbehind
      omega
    · exact fun _ => .inl hlt
  · have hnot : (r.stage k).consumed ≠ true := fun hconsumed =>
      absurd ((h.consumed k).1 hconsumed) (Nat.not_lt_of_le heq.ge)
    rcases Nat.lt_or_eq_of_le hissued with hlt | hnone
    · -- the next ticket to be taken has its slot
      have hstage : r.stage k ≠ .unclaimed :=
        fun hs => absurd ((h.unclaimed k).1 hs) (Nat.not_le_of_lt hlt)
      have hcur := h.current rfl hstage fun hs => hnot (by rw [hs]; rfl)
      rw [h.seq k hcur]
      constructor
      · exact fun hbehind => ⟨heq.symm, (Stage.turn_le hC).1 (Nat.le_of_lt_succ hbehind)⟩
      · intro hturn
        refine .inr ?_
        cases hs : r.stage k with
        | published => rfl
        | taken => exact absurd (by rw [hs]; rfl) hnot
        | emptied => exact absurd (by rw [hs]; rfl) hnot
        | released => exact absurd (by rw [hs]; rfl) hnot
        | unclaimed => exact absurd hs hstage
        | claimed =>
          rw [hs] at hturn
          have : k = k + 1 := hturn
          omega
        | written =>
          rw [hs] at hturn
          have : k = k + 1 := hturn
          omega
    · -- nobody has claimed it: the slot is at most released for it
      have hle : r.seq (k % C) ≤ k := by
        rcases h.seq_cases (by omega) hissued with
          ⟨k', hlt, -⟩ | ⟨-, -, hseq⟩ | ⟨-, hround, hcur, hseq⟩
        · omega
        · exact hseq.le
        · rw [hseq]
          have := Stage.turn_le_add (C := C) (k := k - C) (r.stage (k - C)) (by omega)
          omega
      constructor
      · exact fun _ => ⟨heq.symm, .inl ((h.unclaimed k).2 hnone.ge)⟩
      · intro hturn
        omega

end Inv

end TicketRing
