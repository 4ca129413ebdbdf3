import Erebus.Lib.BitField
import Erebus.Lib.System

/-!
# Slots in a word

`BmiWord` of `klib/include/bmi_word.hpp`: a set bit is a free slot. Any number of threads `α` call
it, every atomic access is a step, and a weak compare-and-swap may fail though the word is the
expected one.
-/

namespace Erebus.BmiWord

open Finset (Ico mem_Ico)
open Function (update)

/-- `run_mask`. -/
def runMask (idx count : Nat) : BitVec 64 :=
  (if 64 ≤ count then BitVec.allOnes 64 else (1#64 <<< count) - 1#64) <<< idx

/-- The loop of `acquire_contiguous` that looks for runs; a round covers at least one slot more. -/
def startsLoop (count : Nat) : Nat → Nat → BitVec 64 → BitVec 64
  | 0, _, starts => starts
  | fuel + 1, covered, starts =>
    if covered < count ∧ starts ≠ 0 then
      let step := min covered (count - covered)
      startsLoop count fuel (covered + step) (starts &&& starts >>> step)
    else
      starts

/-- `starts` after the loop. -/
def startsOf (count : Nat) (curr : BitVec 64) : BitVec 64 := startsLoop count count 1 curr

/-- Where a thread is. `since` is the instant of the call's first load. -/
inductive Call where
  | idle
  | firstFree (curr : BitVec 64)
  | contiguous (count since : Nat) (curr : BitVec 64)

/-- `m_mask` at every instant up to `now`, the threads, and who holds a slot, once for each time
they took it. -/
structure State (α : Type*) where
  word : Nat → BitVec 64
  now : Nat
  calls : α → Call
  owners : Nat → List α

variable {α : Type*}

namespace State

variable (s : State α)

/-- `m_mask` now. -/
def mask : BitVec 64 := s.word s.now

/-- A new word, and new owners of the slots from `idx` on. -/
def store (w : BitVec 64) (idx count : Nat) (f : List α → List α) : State α :=
  { s with
    word := update s.word (s.now + 1) w
    now := s.now + 1
    owners := fun i => if i ∈ Ico idx (idx + count) then f (s.owners i) else s.owners i }

variable [DecidableEq α] (a : α)

def goto (call : Call) : State α := { s with calls := update s.calls a call }

/-- The steps of a thread, with what `acquire_first_free` or `acquire_contiguous` returns in
them. -/
inductive Step : Option Nat → State α → Prop
  | firstLoad (h : s.calls a = .idle) : Step none (s.goto a (.firstFree s.mask))
  | firstNone (h : s.calls a = .firstFree 0) : Step (some 64) (s.goto a .idle)
  | firstCas {curr : BitVec 64} (h : s.calls a = .firstFree curr) (hne : curr ≠ 0)
      (heq : s.mask = curr) :
    Step (some curr.ctz.toNat)
      ((s.store (curr &&& (curr - 1#64)) curr.ctz.toNat 1 (a :: ·)).goto a .idle)
  | firstRetry {curr : BitVec 64} (h : s.calls a = .firstFree curr) (hne : curr ≠ 0) :
    Step none (s.goto a (.firstFree s.mask))
  | load {count : Nat} (h : s.calls a = .idle) (hpos : 0 < count) (hle : count ≤ 64) :
    Step none (s.goto a (.contiguous count s.now s.mask))
  | noRun {count since : Nat} {curr : BitVec 64} (h : s.calls a = .contiguous count since curr)
    (hnone : startsOf count curr = 0) : Step (some 64) (s.goto a .idle)
  | cas {count since idx : Nat} {curr : BitVec 64} (h : s.calls a = .contiguous count since curr)
    (hne : startsOf count curr ≠ 0) (hidx : idx = (startsOf count curr).ctz.toNat)
      (heq : s.mask = curr) :
    Step (some idx) ((s.store (curr &&& ~~~runMask idx count) idx count (a :: ·)).goto a .idle)
  | retry {count since : Nat} {curr : BitVec 64} (h : s.calls a = .contiguous count since curr)
    (hne : startsOf count curr ≠ 0) : Step none (s.goto a (.contiguous count since s.mask))
  | specific {idx : Nat} (h : s.calls a = .idle) (hidx : idx < 64) :
    Step none (s.store (s.mask &&& ~~~(1#64 <<< idx)) idx 1
      (if s.mask &&& 1#64 <<< idx ≠ 0 then (a :: ·) else id))
  | releaseBit {idx : Nat} (h : s.calls a = .idle) (hidx : idx < 64) (hheld : s.owners idx ≠ []) :
    Step none (s.store (s.mask ||| 1#64 <<< idx) idx 1 fun _ => [])
  | releaseContiguous {idx count : Nat} (h : s.calls a = .idle) (hpos : 0 < count)
    (hle : idx + count ≤ 64) (hheld : ∀ i ∈ Ico idx (idx + count), s.owners i ≠ []) :
    Step none (s.store (s.mask ||| runMask idx count) idx count fun _ => [])

end State

/-- All threads, from any word with no slot held. -/
def system (α : Type*) [DecidableEq α] : System (State α) where
  init s := ∃ w, s = ⟨fun _ => w, 0, fun _ => .idle, fun _ => []⟩
  step s s' := ∃ a r, s.Step a r s'

/-! ## Runs of set bits -/

/-- `n` slots from `i` on are free. -/
def FreeRun (w : BitVec 64) (i n : Nat) : Prop := ∀ j ∈ Ico i (i + n), w.getLsbD j = true

variable {w : BitVec 64} {i n idx count : Nat}

theorem freeRun_one : FreeRun w i 1 ↔ w.getLsbD i = true := by simp [FreeRun]

theorem freeRun_add {step : Nat} (hstep : step ≤ n) :
    FreeRun w i (n + step) ↔ FreeRun w i n ∧ FreeRun w (step + i) n := by
  simp only [FreeRun, mem_Ico]
  constructor
  · exact fun h => ⟨fun j hj => h j (by omega), fun j hj => h j (by omega)⟩
  · rintro ⟨hlow, hhigh⟩ j hj
    by_cases hjn : j < i + n
    · exact hlow j ⟨hj.1, hjn⟩
    · exact hhigh j (by omega)

theorem startsLoop_spec :
    ∀ {fuel covered : Nat} {starts : BitVec 64}, 0 < covered → covered ≤ count →
    count ≤ covered + fuel → (∀ i, starts.getLsbD i = true ↔ FreeRun w i covered) →
    ∀ i, (startsLoop count fuel covered starts).getLsbD i = true ↔ FreeRun w i count := by
  intro fuel
  induction fuel with
  | zero =>
    intro covered starts _ hle hfuel hstarts
    rwa [show count = covered by omega]
  | succ fuel ih =>
    intro covered starts hpos hle hfuel hstarts
    rw [startsLoop]
    split
    · refine ih (by omega) (by omega) (by omega) fun i => ?_
      rw [freeRun_add (Nat.min_le_left ..), ← hstarts, ← hstarts]
      simp
    · next hdone =>
      intro i
      by_cases hcovered : covered < count
      · -- no run is as long as this already
        have hzero : starts = 0 := by simpa [hcovered] using hdone
        refine iff_of_false (by simp [hzero]) fun h => ?_
        have hset := (hstarts i).2 fun j hj => h j (Finset.Ico_subset_Ico_right (by omega) hj)
        simp [hzero] at hset
      · rw [hstarts, show covered = count by omega]

theorem startsOf_spec (hpos : 0 < count) (w : BitVec 64) (i : Nat) :
    (startsOf count w).getLsbD i = true ↔ FreeRun w i count :=
  startsLoop_spec Nat.one_pos hpos (by omega) (fun _ => freeRun_one.symm) i

/-- **The lowest bit of `starts` is the lowest run.** -/
theorem startsOf_least (hpos : 0 < count) (hne : startsOf count w ≠ 0) :
    IsLeast {i | FreeRun w i count} (startsOf count w).ctz.toNat := by
  refine ⟨(startsOf_spec hpos w _).1 (BitVec.getLsbD_true_ctz_of_ne_zero hne), fun i hi => ?_⟩
  by_contra hlt
  have hset := (startsOf_spec hpos w i).2 hi
  rw [BitVec.getLsbD_false_of_lt_ctz (Nat.not_le.1 hlt)] at hset
  contradiction

theorem runMask_getLsbD (hi : i < 64) :
    (runMask idx count).getLsbD i = decide (i ∈ Ico idx (idx + count)) := by
  have hrun :
      ∀ j < 64, (if 64 ≤ count then BitVec.allOnes 64 else (1#64 <<< count) - 1#64).getLsbD j =
      decide (j < count) := by
    intro j hj
    split
    · rw [BitVec.getLsbD_allOnes, decide_eq_true hj, decide_eq_true (by omega)]
    · rw [BitField.mask_eq, BitField.mask_getLsbD, decide_eq_true hj, Bool.true_and]
  rw [runMask, BitVec.getLsbD_shiftLeft, hrun _ (by omega), Bool.eq_iff_iff]
  simp only [Bool.and_eq_true, Bool.not_eq_true', decide_eq_true_eq,
    decide_eq_false_iff_not, mem_Ico]
  omega

theorem runMask_one : runMask idx 1 = 1#64 <<< idx := rfl

/-- `curr & (curr - 1)` clears the lowest set bit. -/
theorem blsr_getLsbD (hne : w ≠ 0) : (w &&& (w - 1#64)).getLsbD w.ctz.toNat = false := by
  have hset := BitVec.getLsbD_true_ctz_of_ne_zero hne
  have hlow : w.toNat % 2 ^ w.ctz.toNat = 0 := by
    apply Nat.eq_of_testBit_eq
    intro j
    rw [Nat.testBit_mod_two_pow, BitVec.testBit_toNat]
    by_cases hj : j < w.ctz.toNat
    · simp [BitVec.getLsbD_false_of_lt_ctz hj]
    · simp [hj]
  generalize w.ctz.toNat = i at *
  obtain ⟨m, hm⟩ := Nat.dvd_of_mod_eq_zero hlow
  have hpos : 0 < 2 ^ i * m := hm ▸ BitVec.toNat_pos_of_ne_zero hne
  have hle : 1#64 ≤ w := BitVec.le_def.2 (by rw [hm]; exact hpos)
  -- the quotient is odd, so one less is even
  rw [← BitVec.testBit_toNat, hm, Nat.testBit_eq_decide_div_mod_eq,
    Nat.mul_div_cancel_left _ (Nat.two_pow_pos i), decide_eq_true_eq] at hset
  rw [BitVec.getLsbD_and, ← BitVec.testBit_toNat (w - 1#64), BitVec.toNat_sub_of_le hle, hm,
    Nat.testBit_eq_decide_div_mod_eq, show (1#64).toNat = 0 + 1 from rfl,
    Nat.mul_sub_div _ _ _ hpos, Nat.zero_div, decide_eq_false (by omega), Bool.and_false]

/-! ## Owners -/

namespace State

variable {s : State α} {a : α} {f : List α → List α}

/-- What a loop of `acquire_contiguous` works on is the word of an instant of its call. -/
def Seen (s : State α) (call : Call) : Prop :=
  ∀ n since curr, call = .contiguous n since curr → 0 < n ∧ ∃ t, since ≤ t ∧ t ≤ s.now ∧
    s.word t = curr

/-- A free slot has no owner and a taken one has at most one. -/
structure Inv (s : State α) : Prop where
  free : ∀ i, s.mask.getLsbD i = true → s.owners i = []
  single : ∀ i, (s.owners i).length ≤ 1
  seen : ∀ a, s.Seen (s.calls a)

theorem seen_now {since : Nat} (hpos : 0 < n) (hsince : since ≤ s.now) :
    s.Seen (.contiguous n since s.mask) := by
  rintro _ _ _ ⟨⟩
  exact ⟨hpos, s.now, hsince, le_rfl, rfl⟩

/-- Outside the run no slot is freed, and inside it the owners fit the word. -/
theorem Inv.store (h : s.Inv)
    (hout : ∀ i ∉ Ico idx (idx + count), w.getLsbD i = true → s.mask.getLsbD i = true)
    (hin : ∀ i ∈ Ico idx (idx + count), (w.getLsbD i = true → f (s.owners i) = []) ∧
    (f (s.owners i)).length ≤ 1) : (s.store w idx count f).Inv where
  free i hset := by
    rw [mask, show State.word _ _ = w from Function.update_self ..] at hset
    simp only [State.store]
    split
    · next hi => exact (hin i hi).1 hset
    · next hi => exact h.free i (hout i hi hset)
  single i := by
    simp only [State.store]
    split
    · next hi => exact (hin i hi).2
    · exact h.single i
  seen a n since curr ha := by
    obtain ⟨hpos, t, hsince, hnow, hword⟩ := h.seen a n since curr ha
    refine ⟨hpos, t, hsince, hnow.trans (Nat.le_succ _), ?_⟩
    exact (Function.update_of_ne (Nat.lt_succ_of_le hnow).ne ..).trans hword

/-- Free slots go to a thread. -/
theorem Inv.take (h : s.Inv) (hfree : FreeRun s.mask idx count)
    (htaken : ∀ i ∈ Ico idx (idx + count), w.getLsbD i = false)
    (hrest : ∀ i, w.getLsbD i = true → s.mask.getLsbD i = true) :
    (s.store w idx count (a :: ·)).Inv := by
  refine h.store (fun i _ => hrest i) fun i hi => ⟨by simp [htaken i hi], ?_⟩
  simp [h.free i (hfree i hi)]

/-- A run is cut out of the word. -/
theorem Inv.cut (h : s.Inv) (hfree : FreeRun s.mask idx count) :
    (s.store (s.mask &&& ~~~runMask idx count) idx count (a :: ·)).Inv := by
  refine h.take hfree (fun i hi => ?_) fun i hi => by simp_all
  rw [BitVec.getLsbD_and, BitVec.getLsbD_not, runMask_getLsbD (BitVec.lt_of_getLsbD (hfree i hi))]
  simp [mem_Ico.1 hi]

/-- A run goes back. -/
theorem Inv.drop (h : s.Inv) :
    (s.store (s.mask ||| runMask idx count) idx count fun _ => []).Inv := by
  refine h.store (fun i hi hset => ?_) fun i hi => by simp
  have hlt := BitVec.lt_of_getLsbD hset
  rwa [BitVec.getLsbD_or, runMask_getLsbD hlt, decide_eq_false hi, Bool.or_false] at hset

variable [DecidableEq α] {s' : State α} {r : Option Nat}

theorem Inv.goto (h : s.Inv) {call : Call} (hcall : s.Seen call) : (s.goto a call).Inv :=
  ⟨h.free, h.single, update_forall hcall h.seen⟩

theorem Inv.step (h : s.Inv) (hstep : s.Step a r s') : s'.Inv := by
  cases hstep with
  | firstLoad => exact h.goto nofun
  | firstNone => exact h.goto nofun
  | firstCas ha hne heq =>
    subst heq
    refine (h.take (freeRun_one.2 (BitVec.getLsbD_true_ctz_of_ne_zero hne)) (fun i hi => ?_)
      fun i hi => by
      simp_all).goto nofun
    obtain rfl : i = s.mask.ctz.toNat := by simpa using hi
    exact blsr_getLsbD hne
  | firstRetry => exact h.goto nofun
  | load ha hpos => exact h.goto (seen_now hpos le_rfl)
  | noRun => exact h.goto nofun
  | cas ha hne hidx heq =>
    subst heq hidx
    exact (h.cut (startsOf_least (h.seen a _ _ _ ha).1 hne).1).goto nofun
  | retry ha =>
    obtain ⟨hpos, t, hsince, hnow, -⟩ := h.seen a _ _ _ ha
    exact h.goto (seen_now hpos (hsince.trans hnow))
  | specific =>
    split
    · next hset =>
      rw [← runMask_one]
      refine h.cut (freeRun_one.2 ?_)
      by_contra hclear
      exact hset ((BitVec.and_twoPow ..).trans (if_neg hclear))
    · exact h.store (fun i _ hi => by simp_all) fun i _ =>
        ⟨fun hi => h.free i (by simp_all), h.single i⟩
  | releaseBit => exact runMask_one ▸ h.drop
  | releaseContiguous => exact h.drop

end State

variable [DecidableEq α] {s : State α}

theorem reachable_inv (h : (system α).Reachable s) : s.Inv := by
  refine h.invariant ?_ fun s s' hinv ⟨a, r, hstep⟩ => hinv.step hstep
  rintro s ⟨w, rfl⟩
  exact ⟨by simp, by simp, fun a => nofun⟩

/-- **A slot has one owner, and `acquire_contiguous` takes the lowest run.** -/
theorem acquire_exclusive (h : (system α).Reachable s) : (∀ i, (s.owners i).length ≤ 1) ∧
    ∀ a count since curr r s', s.calls a = .contiguous count since curr → s.Step a (some r) s' →
      (r ≠ 64 → IsLeast {i | FreeRun s.mask i count} r ∧
        ∀ i ∈ Ico r (r + count), s'.owners i = [a]) ∧
      (r = 64 → ∃ t, since ≤ t ∧ t ≤ s.now ∧ ∀ i, ¬FreeRun (s.word t) i count) := by
  have hinv := reachable_inv h
  refine ⟨hinv.single, fun a count since curr r s' ha hstep => ?_⟩
  obtain ⟨hpos, t, hsince, hnow, hword⟩ := hinv.seen a _ _ _ ha
  cases hstep with
  | noRun ha' hnone =>
    cases ha.symm.trans ha'
    refine ⟨fun hne => absurd rfl hne, fun _ => ⟨t, hsince, hnow, fun i hi => ?_⟩⟩
    have hset := (startsOf_spec hpos _ i).2 (hword ▸ hi)
    simp [hnone] at hset
  | cas ha' hne hidx heq =>
    cases ha.symm.trans ha'
    have hleast := startsOf_least hpos hne
    rw [← hidx, ← heq] at hleast
    refine ⟨fun _ => ⟨hleast, fun i hi => ?_⟩, fun h64 => ?_⟩
    · simp only [State.goto, State.store, if_pos hi, hinv.free i (hleast.1 i hi)]
    · have hlt := BitVec.lt_of_getLsbD (hleast.1 _ (Finset.left_mem_Ico.2 (by omega)))
      omega
  | _ => simp_all

/-- Slots 2 and 3 are taken, so the lowest run of three starts at 4. -/
theorem acquire_exclusive_three :
    ∃ s s' : State (Fin 2), (system (Fin 2)).Reachable s ∧ s.Step 0 (some 4) s' ∧
    IsLeast {i | FreeRun s.mask i 3} 4 ∧ ∀ i ∈ Ico 4 7, s'.owners i = [0] := by
  have h := System.Reachable.init (S := system (Fin 2)) ⟨0b11110011#64, rfl⟩
  obtain ⟨s, h, hcall, hmask⟩ : ∃ s : State (Fin 2), (system (Fin 2)).Reachable s ∧
      s.calls 0 = .contiguous 3 0 0b11110011#64 ∧ s.mask = 0b11110011#64 :=
    ⟨_, h.step ⟨0, none, .load rfl three_pos (by decide)⟩, rfl, rfl⟩
  have hcas := State.Step.cas hcall (by decide +kernel) (show 4 = _ by decide +kernel) hmask
  exact ⟨s, _, h, hcas, ((acquire_exclusive h).2 0 3 0 _ 4 _ hcall hcas).1 (by decide)⟩

end Erebus.BmiWord
