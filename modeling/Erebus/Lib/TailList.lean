import Mathlib.Data.List.Nodup

/-!
# A singly linked list with a pointer to its end

A list that is only linked forwards can be appended to through a pointer to its last element; an
element leaves it through its predecessor, which a walk from the front finds.

* `insertAfter`: a new element after a given one.
* `before`: the walk.
* `insertAfter_last`, `before_last`, `erase_last`: with a right pointer these append, and keep it
  right.
-/

namespace Erebus.TailList

variable {α : Type*} [DecidableEq α]

/-- The list with `x` linked in after `pos`. -/
def insertAfter (pos x : α) : List α → List α
  | [] => []
  | y :: l => if y = pos then y :: x :: l else y :: insertAfter pos x l

/-- The element before `x`, if `x` is in the list: `none` inside is the end before the first one. -/
def before (x : α) (prev : Option α) : List α → Option (Option α)
  | [] => none
  | y :: l => if y = x then some prev else before x (some y) l

variable {l : List α} {x pos : α} {prev b : Option α}

theorem insertAfter_last (hnodup : l.Nodup) (hlast : l.getLast? = some pos) :
    insertAfter pos x l = l ++ [x] := by
  obtain ⟨l, rfl⟩ := List.getLast?_eq_some_iff.1 hlast
  have hpos : pos ∉ l := (List.nodup_cons.1 (List.nodup_append_comm.1 hnodup)).1
  clear hnodup hlast
  induction l with
  | nil => exact if_pos rfl
  | cons y l ih =>
    rw [List.mem_cons, not_or] at hpos
    rw [List.cons_append, insertAfter, if_neg (Ne.symm hpos.1), ih hpos.2]
    rfl

theorem before_eq_none : before x prev l = none ↔ x ∉ l := by
  induction l generalizing prev with
  | nil => simp [before]
  | cons y l ih =>
    rw [before]
    by_cases hy : y = x
    · simp [hy]
    · rw [if_neg hy, ih, List.mem_cons]
      simp [Ne.symm hy]

theorem before_concat (hx : x ∉ l) : before x prev (l ++ [x]) = some (l.getLast?.or prev) := by
  induction l generalizing prev with
  | nil => exact if_pos rfl
  | cons y l ih =>
    rw [List.mem_cons, not_or] at hx
    rw [List.cons_append, before, if_neg (Ne.symm hx.1), ih hx.2, List.getLast?_cons]
    cases l.getLast? <;> rfl

/-- What is before the last element becomes the last one. -/
theorem before_last (hnodup : l.Nodup) (hlast : l.getLast? = some x)
    (hbefore : before x prev l = some b) : b = if l = [x] then prev else (l.erase x).getLast? := by
  obtain ⟨l, rfl⟩ := List.getLast?_eq_some_iff.1 hlast
  have hx : x ∉ l := (List.nodup_cons.1 (List.nodup_append_comm.1 hnodup)).1
  rw [before_concat hx] at hbefore
  cases hbefore
  rw [List.erase_append_right _ hx, List.erase_cons_head, List.append_nil]
  obtain rfl | ⟨l, y, rfl⟩ := l.eq_nil_or_concat'
  · exact (if_pos rfl).symm
  · have hmore : l ++ [y] ++ [x] ≠ [x] := fun h => by simpa using congrArg List.length h
    rw [if_neg hmore, List.getLast?_concat]
    rfl

/-- The last element stays the last one when another leaves. -/
theorem erase_last (hx : x ∈ l) (hlast : l.getLast? ≠ some x) :
    (l.erase x).getLast? = l.getLast? := by
  obtain rfl | ⟨l, y, rfl⟩ := l.eq_nil_or_concat'
  · rfl
  · have hmem : x ∈ l := by
      refine (List.mem_append.1 hx).resolve_right fun hy => hlast ?_
      rw [List.mem_singleton.1 hy, List.getLast?_concat]
    rw [List.erase_append_left _ hmem, List.getLast?_concat, List.getLast?_concat]

end Erebus.TailList
