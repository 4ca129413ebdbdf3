import Mathlib.Tactic

/-!
# `kprint`

`format_to` writes through a sink that tells it nothing back, so what it does is a list of calls. A
`StringBuffer` stores what fits of them and counts all; `kprint` ends it with a terminator.

* `StringBuffer.call_eq`: one call stores the part that fits behind what is stored, and counts the
  rest too.
* `StringBuffer.run_eq`: any sequence of calls.
* `kprint_truncates`: the whole of `kprint`.
-/

namespace Erebus.KFormat

/-- A call on a sink. -/
inductive SinkCall
  | push (c : Char)
  | append (text : List Char)
  | appendFill (count : Nat) (c : Char)

/-- What an unbounded sink receives. -/
def SinkCall.text : SinkCall → List Char
  | .push c => [c]
  | .append text => text
  | .appendFill count c => List.replicate count c

/-! ## The sink of `kprint` -/

structure WriteTracker where
  capacity : Nat
  totalWritten : Nat := 0

namespace WriteTracker

variable (t : WriteTracker)

def writableCapacity : Nat := if 0 < t.capacity then t.capacity - 1 else 0

def currentOffset : Nat := min t.totalWritten t.writableCapacity

def availableSpace : Nat := t.writableCapacity - t.currentOffset

def recordWrite (n : Nat) : WriteTracker := { t with totalWritten := (t.totalWritten + n) % 2 ^ 64 }

theorem writableCapacity_eq : t.writableCapacity = t.capacity - 1 := by
  unfold writableCapacity
  split <;> omega

/-- What is stored ends where the next character goes. -/
theorem currentOffset_eq (capacity : Nat) (text : List Char) :
    currentOffset { capacity, totalWritten := text.length } =
      (text.take (capacity - 1)).length := by
  rw [currentOffset, writableCapacity_eq, List.length_take, Nat.min_comm]

end WriteTracker

/-- `copy_n` to memory that is addressed from the start of the buffer on. -/
def copyN (text : List Char) (offset : Nat) (memory : Nat → Char) : Nat → Char := fun i =>
  if offset ≤ i then text[i - offset]?.getD (memory i) else memory i

structure StringBuffer where
  memory : Nat → Char
  tracker : WriteTracker

namespace StringBuffer

variable (b : StringBuffer)

def push (c : Char) : StringBuffer where
  memory := if 0 < b.tracker.availableSpace then Function.update b.memory b.tracker.currentOffset c
    else b.memory
  tracker := b.tracker.recordWrite 1

def append (text : List Char) : StringBuffer :=
  let copyLen := min text.length b.tracker.availableSpace
  { memory := if 0 < copyLen then copyN (text.take
    copyLen) b.tracker.currentOffset b.memory else b.memory
    tracker := b.tracker.recordWrite text.length }

def appendFill (count : Nat) (c : Char) : StringBuffer :=
  let fillLen := min count b.tracker.availableSpace
  { memory := if 0 < fillLen then copyN (List.replicate fillLen
    c) b.tracker.currentOffset b.memory else b.memory
    tracker := b.tracker.recordWrite count }

def call : SinkCall → StringBuffer
  | .push c => b.push c
  | .append text => b.append text
  | .appendFill count c => b.appendFill count c

/-- The length, and the memory with the terminator. -/
def finish : Nat × (Nat → Char) :=
  (b.tracker.totalWritten, if b.tracker.capacity = 0 then b.memory
    else Function.update b.memory b.tracker.currentOffset (Char.ofNat 0))

end StringBuffer

/-! ## `format_to` -/

/-- `parse_spec`, on what follows the argument index: what it leaves, which is no more, and what it
read. -/
structure SpecParser (σ : Type) where
  parse : List Char → List Char × σ
  le : ∀ view, (parse view).1.length ≤ view.length

variable {σ : Type} (parser : SpecParser σ) (format : Nat → σ → List SinkCall)

/-- The calls of `format_to`; `format` is `dispatch_arg` with the arguments. -/
def formatTo : List Char → Nat → List SinkCall
  | [], _ => []
  | '{' :: '{' :: view, autoIdx => .push '{' :: formatTo view autoIdx
  | '{' :: view, autoIdx =>
    let digits := view.takeWhile Char.isDigit
    let argIdx := digits.foldl (fun i c => (i * 10 + (c.toNat - 48)) % 2 ^ 64) 0
    let parsed := parser.parse (view.dropWhile Char.isDigit)
    if digits = [] then format autoIdx parsed.2 ++ formatTo parsed.1 ((autoIdx + 1) % 2 ^ 64)
    else format argIdx parsed.2 ++ formatTo parsed.1 autoIdx
  | '}' :: '}' :: view, autoIdx => .push '}' :: formatTo view autoIdx
  | '}' :: view, autoIdx => formatTo view autoIdx
  | c :: view, autoIdx => .push c :: formatTo view autoIdx
termination_by view => view.length
decreasing_by
  all_goals simp only [List.length_cons]
  all_goals first
    | omega
    | exact Nat.lt_succ_of_le (Nat.le_trans (SpecParser.le _ _) (List.dropWhile_suffix _).length_le)

def kprint (view : List Char) (memory : Nat → Char) (maxSize : Nat) : Nat × (Nat → Char) :=
  ((formatTo parser format view 0).foldl StringBuffer.call ⟨memory, { capacity := maxSize }⟩).finish

/-! ## Runs -/

theorem copyN_nil (offset : Nat) (memory : Nat → Char) : copyN [] offset memory = memory := by
  funext i
  simp [copyN]

/-- What is stored behind what is stored already. -/
theorem copyN_append (text more : List Char) (memory : Nat → Char) :
    copyN more text.length (copyN text 0 memory) = copyN (text ++ more) 0 memory := by
  funext i
  by_cases hi : text.length ≤ i
  · simp [copyN, hi, List.getElem?_append_right hi]
  · simp [copyN, hi, List.getElem?_append_left (Nat.lt_of_not_le hi)]

theorem update_eq_copyN (memory : Nat → Char) (offset : Nat) (c : Char) :
    Function.update memory offset c = copyN [c] offset memory := by
  funext i
  by_cases hi : i = offset
  · subst hi
    simp [copyN]
  · rw [Function.update_of_ne hi, copyN]
    split
    · rw [List.getElem?_eq_none (by simp; omega)]
      rfl
    · rfl

namespace StringBuffer

theorem call_eq (b : StringBuffer) (call : SinkCall) : b.call call =
    ⟨copyN (call.text.take b.tracker.availableSpace) b.tracker.currentOffset b.memory,
      b.tracker.recordWrite call.text.length⟩ := by
  cases call with
  | push c =>
    rw [call, push, SinkCall.text]
    split
    · rename_i h
      rw [update_eq_copyN, List.take_of_length_le h]
      rfl
    · rename_i h
      rw [Nat.eq_zero_of_not_pos h, List.take_zero, copyN_nil]
      rfl
  | append text =>
    rw [call, append, ite_eq_left_iff.2, Nat.min_comm, ← List.take_eq_take_min]
    · rfl
    · intro h
      rw [Nat.eq_zero_of_not_pos h, List.take_zero, copyN_nil]
  | appendFill count c =>
    rw [call, appendFill, ite_eq_left_iff.2, SinkCall.text, List.take_replicate,
      List.length_replicate, Nat.min_comm]
    intro h
    rw [Nat.eq_zero_of_not_pos h, List.replicate_zero, copyN_nil]

/-- Any sequence of calls, as long as the count does not wrap. -/
theorem run_eq (memory : Nat → Char) (capacity : Nat) (calls : List SinkCall)
    (h : (calls.flatMap SinkCall.text).length < 2 ^ 64) :
    calls.foldl call ⟨memory, { capacity }⟩ =
      ⟨copyN ((calls.flatMap SinkCall.text).take (capacity - 1)) 0 memory,
        { capacity, totalWritten := (calls.flatMap SinkCall.text).length }⟩ := by
  induction calls using List.reverseRecOn with
  | nil => rw [List.flatMap_nil, List.take_nil, copyN_nil]; rfl
  | append_singleton calls last ih =>
    simp only [List.flatMap_append, List.flatMap_singleton, List.length_append] at h ⊢
    rw [List.foldl_append, ih (by omega), List.foldl_cons, List.foldl_nil, call_eq,
      WriteTracker.availableSpace, WriteTracker.currentOffset_eq,
      WriteTracker.writableCapacity_eq, copyN_append,
      List.take_append, WriteTracker.recordWrite, Nat.mod_eq_of_lt h, List.length_take]
    congr 4
    dsimp only
    omega

end StringBuffer

/-- For every capacity, format string and formatter: the buffer gets what fits of the whole output
and a terminator, nothing behind it is written, and the length of the whole output is returned. -/
theorem kprint_truncates (view : List Char) (memory : Nat → Char) (maxSize : Nat)
    (h : ((formatTo parser format view 0).flatMap SinkCall.text).length < 2 ^ 64) :
    let output := (formatTo parser format view 0).flatMap SinkCall.text
    kprint parser format view memory maxSize = (output.length,
      if maxSize = 0 then memory else
        copyN (output.take (maxSize - 1) ++ [Char.ofNat 0]) 0 memory) ∧
      ∀ i, maxSize ≤ i → (kprint parser format view memory maxSize).2 i = memory i := by
  intro output
  rw [kprint, StringBuffer.run_eq _ _ _ h, StringBuffer.finish, WriteTracker.currentOffset_eq,
    update_eq_copyN, copyN_append]
  obtain rfl | h0 := eq_or_ne maxSize 0
  · rw [List.take_zero, copyN_nil]
    exact ⟨rfl, fun _ _ => rfl⟩
  · rw [if_neg h0, if_neg h0]
    refine ⟨rfl, fun i hi => ?_⟩
    show copyN _ 0 memory i = memory i
    rw [copyN, if_pos (Nat.zero_le i), List.getElem?_eq_none, Option.getD_none]
    simp only [List.length_append, List.length_take, List.length_singleton]
    omega

private def anySpec : SpecParser Unit := ⟨fun view => (view.tail, ()), by simp⟩

theorem kprint_truncates_brace :
    ((formatTo anySpec (fun _ _ => [.append ['a', 'b'], .push 'c']) ['{', '}'] 0).flatMap
        SinkCall.text).length < 2 ^ 64 ∧
      (kprint anySpec (fun _ _ => [.append ['a', 'b'], .push 'c']) ['{', '}'] (fun _ => 'm') 3).1 =
        3 := by
  have h : ((formatTo anySpec (fun _ _ => [.append ['a', 'b'], .push 'c']) ['{', '}'] 0).flatMap
      SinkCall.text) = ['a', 'b', 'c'] := by
    simp [formatTo, anySpec, SinkCall.text]
  refine ⟨by simp [h], ?_⟩
  rw [(kprint_truncates _ _ _ _ _ (by simp [h])).1, h]
  rfl

/-- A formatter that fills with `2 ^ 64 - 1` characters makes the count wrap: what follows lands at
the front. -/
theorem kprint_wraps_past_size_t :
    let format : Nat → Unit → List SinkCall := fun _ _ =>
      [.appendFill (2 ^ 64 - 1) 'x', .push 'y', .push 'z']
    (kprint anySpec format ['{', '}'] (fun _ => 'm') 3).1 = 1 ∧
      (kprint anySpec format ['{', '}'] (fun _ => 'm') 3).2 0 = 'z' := by
  have h : formatTo anySpec (fun _ _ => [.appendFill (2 ^ 64 - 1) 'x', .push 'y', .push 'z'])
      ['{', '}'] 0 = [.appendFill (2 ^ 64 - 1) 'x', .push 'y', .push 'z'] := by
    simp [formatTo, anySpec]
  simp only [kprint, h]
  decide

end Erebus.KFormat
