import Erebus.Utils.RingBuffer

/-!
# The double-ended ring

`RingDeque` of `kernel/include/utils/ring_buffer.hpp`: a queue for one thread in `2 ^ bits` slots.
Both indices run freely in 64 bits and are masked on access only. A slot holds an element from its
construction to its destruction; constructing over an element that is still there, and reading or
destroying one that is not, are faults. An element that is trivially destructible may be built over.
-/

namespace Erebus.Utils

open RingBuffer

/-- `RingDeque`: the indices, and the elements alive in the storage. -/
structure RingDeque (α : Type*) where
  head : BitVec 64
  tail : BitVec 64
  slots : Nat → Option α

namespace RingDeque

variable {α : Type*}

/-- The operations. `popFrontBulk` has the size of its span. -/
inductive Op (α : Type*)
  | emplaceBack (x : α)
  | emplaceFront (x : α)
  | popBack
  | popFront
  | front
  | back
  | pushBackBulk (items : List α)
  | popFrontBulk (out : Nat)
  | clear

/-- What they return: `values` are those written to the span, as many as the number returned. -/
inductive Ret (α : Type*)
  | done
  | full
  | empty
  | value (x : α)
  | count (n : Nat)
  | values (xs : List α)

section Model

variable (bits : Nat) (trivial : Bool) (d : RingDeque α)

/-- `RingDeque()`. -/
def initial : RingDeque α := ⟨0, 0, fun _ => none⟩

/-- `ptr`. -/
def ptr (index : BitVec 64) : Nat := slot bits index.toNat

/-- `size`. -/
def size : Nat := (d.tail - d.head).toNat

/-- `std::construct_at(ptr(index), x)`. -/
def constructAt (index : BitVec 64) (x : α) : Option (Nat → Option α) :=
  if !trivial && (d.slots (ptr bits index)).isSome then none else
    some (Function.update d.slots (ptr bits index) (some x))

/-- `T val = std::move(*ptr(index))` and `std::destroy_at(ptr(index))`. -/
def destroyAt (index : BitVec 64) : Option (α × (Nat → Option α)) :=
  (d.slots (ptr bits index)).map fun x => (x, Function.update d.slots (ptr bits index) none)

/-- `std::construct_at(ptr(m_tail++), x)`. -/
def constructBack (x : α) : Option (RingDeque α) :=
  (d.constructAt bits trivial d.tail x).map fun slots => { d with tail := d.tail + 1, slots }

/-- One round of the loops that take from the front. -/
def destroyFront : Option (α × RingDeque α) :=
  (d.destroyAt bits d.head).map fun p => (p.1, { d with head := d.head + 1, slots := p.2 })

/-- The loop of `pop_front_bulk`. -/
def takeFront : Nat → RingDeque α → Option (List α × RingDeque α)
  | 0, d => some ([], d)
  | n + 1, d => do
    let (x, d) ← d.destroyFront bits
    let (xs, d) ← takeFront n d
    return (x :: xs, d)

/-- The loop of `clear`. -/
def clearLoop (d : RingDeque α) : Option (RingDeque α) :=
  if d.head = d.tail then some d
  else (d.destroyAt bits d.head).bind fun p => clearLoop { d with head := d.head + 1, slots := p.2 }
termination_by d.size
decreasing_by simp only [size]; bv_omega

/-- One operation. -/
def exec : Op α → Option (Ret α × RingDeque α)
  | .emplaceBack x =>
    if d.size = 2 ^ bits then some (.full, d) else (d.constructBack bits trivial x).map (.done, ·)
  | .emplaceFront x =>
    if d.size = 2 ^ bits then some (.full, d)
    else (d.constructAt bits trivial (d.head - 1) x).map fun slots =>
      (.done, { d with head := d.head - 1, slots })
  | .popBack =>
    if d.head = d.tail then some (.empty, d)
    else (d.destroyAt bits (d.tail - 1)).map fun p =>
      (.value p.1, { d with tail := d.tail - 1, slots := p.2 })
  | .popFront =>
    if d.head = d.tail then some (.empty, d) else (d.destroyFront bits).map fun p =>
      (.value p.1, p.2)
  | .front => (d.slots (ptr bits d.head)).map (.value ·, d)
  | .back => (d.slots (ptr bits (d.tail - 1))).map (.value ·, d)
  | .pushBackBulk items =>
    let toWrite := min items.length (2 ^ bits - d.size)
    ((items.take toWrite).foldlM (constructBack bits trivial) d).map (.count toWrite, ·)
  | .popFrontBulk out => (takeFront bits (min out d.size) d).map fun p => (.values p.1, p.2)
  | .clear =>
    if trivial then some (.done, { d with head := d.tail }) else (d.clearLoop bits).map (.done, ·)

/-- The operations on a list of at most `cap` elements; `front` and `back` need an element. -/
def execList (cap : Nat) (l : List α) : Op α → Option (Ret α × List α)
  | .emplaceBack x => some (if l.length = cap then (.full, l) else (.done, l ++ [x]))
  | .emplaceFront x => some (if l.length = cap then (.full, l) else (.done, x :: l))
  | .popBack =>
    some (match l.getLast? with | none => (.empty, l) | some x => (.value x, l.dropLast))
  | .popFront => some (match l with | [] => (.empty, []) | x :: l => (.value x, l))
  | .front => l.head?.map (.value ·, l)
  | .back => l.getLast?.map (.value ·, l)
  | .pushBackBulk items =>
    some (.count (min items.length (cap - l.length)), l ++ items.take (cap - l.length))
  | .popFrontBulk out => some (.values (l.take out), l.drop out)
  | .clear => some (.done, [])

/-- A run of operations, with what each returns. -/
def run {σ : Type*} (exec : σ → Op α → Option (Ret α × σ)) :
    σ → List (Op α) → Option (List (Ret α) × σ)
  | s, [] => some ([], s)
  | s, op :: ops => do
    let (r, s) ← exec s op
    let (rs, s) ← run exec s ops
    return (r :: rs, s)

end Model

/-- The deque is the list: the positions from `head` on hold its elements, and the others are empty
if elements have a destructor. -/
structure Rel (bits : Nat) (trivial : Bool) (d : RingDeque α) (l : List α) : Prop where
  fits : l.length ≤ 2 ^ bits
  tail_eq : d.tail = d.head + BitVec.ofNat 64 l.length
  holds : ∀ i < 2 ^ bits, i < l.length ∨ trivial = false →
    d.slots (ptr bits (d.head + BitVec.ofNat 64 i)) = l[i]?

theorem getElem?_concat (l : List α) (x : α) (i : Nat) :
    (l ++ [x])[i]? = if i = l.length then some x else l[i]? := by
  rcases lt_trichotomy i l.length with hlt | heq | hgt
  · rw [List.getElem?_append_left hlt, if_neg hlt.ne]
  · rw [heq, List.getElem?_concat_length, if_pos rfl]
  · rw [List.getElem?_eq_none (by simp; omega), if_neg hgt.ne', List.getElem?_eq_none hgt.le]

theorem add_succ (h : BitVec 64) (i : Nat) :
    h + 1 + BitVec.ofNat 64 i = h + BitVec.ofNat 64 (i + 1) := by
  rw [BitVec.ofNat_add]
  bv_omega

section Proofs

variable {bits : Nat} (hbits : bits < 64) {trivial : Bool} {d : RingDeque α} {l : List α} {x : α}

include hbits

theorem ptr_add (h : BitVec 64) (i : Nat) :
    ptr bits (h + BitVec.ofNat 64 i) = (h.toNat + i) % 2 ^ bits := by
  rw [ptr, Machine.slot_eq, BitVec.toNat_add, BitVec.toNat_ofNat, Nat.add_mod_mod]
  exact Nat.mod_mod_of_dvd _ (Nat.pow_dvd_pow 2 hbits.le)

/-- The positions of one round have different slots. -/
theorem update_ptr (slots : Nat → Option α) (h : BitVec 64) (v : Option α) {i p : Nat}
    (hp : p < 2 ^ bits)
    (hi : i < 2 ^ bits) :
    Function.update slots (ptr bits (h + BitVec.ofNat 64 p)) v (ptr bits (h + BitVec.ofNat 64 i)) =
      if i = p then v else slots (ptr bits (h + BitVec.ofNat 64 i)) := by
  split
  · next heq => rw [heq, Function.update_self]
  · next hne =>
    apply Function.update_of_ne
    rw [ptr_add hbits, ptr_add hbits]
    exact TicketQueue.slot_ne (a := h.toNat) (by omega) (by omega) (by omega) (by omega) (by omega)

theorem ptr_wrap (h : BitVec 64) :
    ptr bits (h + BitVec.ofNat 64 (2 ^ bits)) = ptr bits (h + BitVec.ofNat 64 0) := by
  rw [ptr_add hbits, ptr_add hbits, Nat.add_mod_right, Nat.add_zero]

variable (h : Rel bits trivial d l)

include h

theorem Rel.size_eq : d.size = l.length := by
  have := Nat.pow_lt_pow_right (a := 2) (by decide) hbits
  have := h.fits
  rw [size, h.tail_eq]
  bv_omega

theorem Rel.empty_iff : d.head = d.tail ↔ l = [] := by
  rw [← List.length_eq_zero_iff, ← h.size_eq hbits, size]
  bv_omega

omit hbits in
theorem Rel.constructAt {i : Nat} (hi : i < 2 ^ bits) (hle : l.length ≤ i) {index : BitVec 64}
    (hindex : ptr bits index = ptr bits (d.head + BitVec.ofNat 64 i)) (x : α) :
    d.constructAt bits trivial index x =
      some (Function.update d.slots (ptr bits index) (some x)) := by
  apply if_neg
  rw [Bool.and_eq_true, Bool.not_eq_true', hindex]
  rintro ⟨htrivial, hsome⟩
  rw [h.holds i hi (.inr htrivial), List.getElem?_eq_none hle] at hsome
  cases hsome

theorem Rel.constructBack (hroom : l.length < 2 ^ bits) (x : α) :
    ∃ d', d.constructBack bits trivial x = some d' ∧ Rel bits trivial d' (l ++ [x]) := by
  have hput := h.constructAt hroom le_rfl (congrArg _ h.tail_eq) x
  refine ⟨_, by rw [RingDeque.constructBack, hput]; rfl, by simp; omega, ?_, ?_⟩
  · simp [h.tail_eq, BitVec.ofNat_add, BitVec.add_assoc]
  · intro i hi hor
    dsimp only
    rw [List.length_append, List.length_singleton] at hor
    rw [h.tail_eq, update_ptr hbits _ _ _ hroom hi, getElem?_concat]
    split
    · rfl
    · exact h.holds i hi (hor.imp_left (by omega))

theorem Rel.constructFront (hroom : l.length < 2 ^ bits) (x : α) :
    ∃ slots, d.constructAt bits trivial (d.head - 1) x = some slots ∧
      Rel bits trivial { d with head := d.head - 1, slots } (x :: l) := by
  have hhead (k : Nat) : d.head - 1 + BitVec.ofNat 64 (k + 1) = d.head + BitVec.ofNat 64 k := by
    rw [← add_succ, BitVec.sub_add_cancel]
  have hpos : 2 ^ bits - 1 + 1 = 2 ^ bits := Nat.sub_add_cancel Nat.one_le_two_pow
  have hlast : ptr bits (d.head - 1) = ptr bits (d.head + BitVec.ofNat 64 (2 ^ bits - 1)) := by
    rw [← hhead, hpos, ptr_wrap hbits]
    simp
  refine ⟨_, h.constructAt (by omega) (by omega) hlast x, hroom, ?_, ?_⟩
  · exact h.tail_eq.trans (hhead _).symm
  · intro i hi hor
    have hupdate := update_ptr hbits d.slots (d.head - 1) (some x) (Nat.two_pow_pos bits) hi
    rw [BitVec.add_zero] at hupdate
    dsimp only
    rw [hupdate]
    cases i with
    | zero => rfl
    | succ k =>
      rw [if_neg (by omega), hhead]
      exact h.holds k (by omega) (hor.imp_left (by simp))

omit hbits h

theorem Rel.front (h : Rel bits trivial d (x :: l)) : d.slots (ptr bits d.head) = some x := by
  have hx := h.holds 0 (Nat.two_pow_pos bits) (.inl (by simp))
  rwa [BitVec.add_zero] at hx

theorem Rel.back (h : Rel bits trivial d (l ++ [x])) :
    d.tail - 1 = d.head + BitVec.ofNat 64 l.length ∧ d.slots (ptr bits (d.tail - 1)) = some x := by
  obtain ⟨hfits, htail, hholds⟩ := h
  rw [List.length_append, List.length_singleton] at hfits htail
  replace htail : d.tail - 1 = d.head + BitVec.ofNat 64 l.length := by
    rw [htail, BitVec.ofNat_add, ← BitVec.add_assoc]
    exact BitVec.add_sub_cancel ..
  refine ⟨htail, ?_⟩
  rw [htail, hholds l.length hfits (.inl (by simp)), getElem?_concat, if_pos rfl]

include hbits

theorem Rel.destroyFront (h : Rel bits trivial d (x :: l)) :
    ∃ slots, d.destroyAt bits d.head = some (x, slots) ∧
    Rel bits trivial { d with head := d.head + 1, slots } l := by
  have hfits : l.length < 2 ^ bits := h.fits
  refine ⟨_, by rw [destroyAt, h.front]; rfl, hfits.le, h.tail_eq.trans (add_succ ..).symm, ?_⟩
  intro i hi hor
  dsimp only
  rw [add_succ]
  by_cases hlast : i + 1 = 2 ^ bits
  · -- the position that comes last now is the one just left
    rw [hlast, ptr_wrap hbits, BitVec.add_zero, Function.update_self,
      List.getElem?_eq_none (by omega)]
  · have hupdate :=
      update_ptr hbits d.slots d.head none (Nat.two_pow_pos bits) (show i + 1 < 2 ^ bits by omega)
    rw [BitVec.add_zero, if_neg (by omega)] at hupdate
    rw [hupdate]
    exact h.holds (i + 1) (by omega) (hor.imp_left (by simp))

theorem Rel.destroyBack (h : Rel bits trivial d (l ++ [x])) : ∃ slots,
    d.destroyAt bits (d.tail - 1) = some (x, slots) ∧
    Rel bits trivial { d with tail := d.tail - 1, slots } l := by
  obtain ⟨htail, hx⟩ := h.back
  have hfits : l.length < 2 ^ bits := by simpa using h.fits
  refine ⟨_, by rw [destroyAt, hx]; rfl, hfits.le, htail, ?_⟩
  intro i hi hor
  have hi' := h.holds i hi (hor.imp_left (by simp; omega))
  dsimp only
  rw [htail, update_ptr hbits _ _ _ hfits hi]
  rw [getElem?_concat] at hi'
  split
  · next heq => rw [heq, List.getElem?_eq_none le_rfl]
  · next hne => rwa [if_neg hne] at hi'

theorem Rel.constructAll (h : Rel bits trivial d l) (items : List α)
    (hroom : l.length + items.length ≤ 2 ^ bits) :
    ∃ d', items.foldlM (RingDeque.constructBack bits trivial) d = some d' ∧
    Rel bits trivial d' (l ++ items) := by
  induction items generalizing d l with
  | nil => exact ⟨d, rfl, by rwa [List.append_nil]⟩
  | cons x items ih =>
    rw [List.length_cons] at hroom
    obtain ⟨d₁, hd₁, h₁⟩ := h.constructBack hbits (by omega) x
    obtain ⟨d₂, hd₂, h₂⟩ := ih h₁ (by simp; omega)
    refine ⟨d₂, ?_, by rwa [List.append_cons]⟩
    rw [List.foldlM_cons, hd₁]
    exact hd₂

theorem Rel.takeFront {n : Nat} (h : Rel bits trivial d l) (hn : n ≤ l.length) :
    ∃ d', takeFront bits n d = some (l.take n, d') ∧ Rel bits trivial d' (l.drop n) := by
  induction n generalizing d l with
  | zero => exact ⟨d, rfl, h⟩
  | succ n ih =>
    cases l with
    | nil => cases hn
    | cons x l =>
      obtain ⟨slots, hd₁, h₁⟩ := h.destroyFront hbits
      obtain ⟨d₂, hd₂, h₂⟩ := ih h₁ (Nat.le_of_succ_le_succ hn)
      refine ⟨d₂, ?_, h₂⟩
      rw [RingDeque.takeFront, RingDeque.destroyFront, hd₁]
      dsimp only [Option.map_some, Option.bind_eq_bind, Option.bind_some]
      rw [hd₂]
      rfl

theorem Rel.clearLoop (h : Rel bits trivial d l) :
    ∃ d', d.clearLoop bits = some d' ∧ Rel bits trivial d' [] := by
  induction l generalizing d with
  | nil => exact ⟨d, by rw [RingDeque.clearLoop, if_pos ((h.empty_iff hbits).mpr rfl)], h⟩
  | cons x l ih =>
    obtain ⟨slots, hslots, h₁⟩ := h.destroyFront hbits
    obtain ⟨d', hd', h'⟩ := ih h₁
    refine ⟨d', ?_, h'⟩
    rw [RingDeque.clearLoop, if_neg (by simp [h.empty_iff hbits]), hslots]
    exact hd'

/-- One operation does to the deque what it does to the list. -/
theorem Rel.exec (h : Rel bits trivial d l) {op : Op α} {r : Ret α} {l' : List α}
    (hop : execList (2 ^ bits) l op = some (r, l')) :
    ∃ d', d.exec bits trivial op = some (r, d') ∧ Rel bits trivial d' l' := by
  have hfits := h.fits
  cases op with
  | emplaceBack x =>
    simp only [execList, RingDeque.exec, h.size_eq hbits] at hop ⊢
    split at hop <;> cases hop
    · next hfull => exact ⟨d, if_pos hfull, h⟩
    · next hroom =>
      obtain ⟨d', hd', h'⟩ := h.constructBack hbits (by omega) x
      exact ⟨d', by rw [if_neg hroom, hd']; rfl, h'⟩
  | emplaceFront x =>
    simp only [execList, RingDeque.exec, h.size_eq hbits] at hop ⊢
    split at hop <;> cases hop
    · next hfull => exact ⟨d, if_pos hfull, h⟩
    · next hroom =>
      obtain ⟨slots, hslots, h'⟩ := h.constructFront hbits (by omega) x
      exact ⟨_, by rw [if_neg hroom, hslots]; rfl, h'⟩
  | popBack =>
    simp only [execList, RingDeque.exec, h.empty_iff hbits] at hop ⊢
    induction l using List.reverseRecOn with
    | nil => cases hop; exact ⟨d, rfl, h⟩
    | append_singleton l x =>
      rw [List.getLast?_concat, List.dropLast_concat] at hop
      cases hop
      obtain ⟨slots, hslots, h'⟩ := h.destroyBack hbits
      exact ⟨_, by rw [if_neg (by simp), hslots]; rfl, h'⟩
  | popFront =>
    simp only [execList, RingDeque.exec, h.empty_iff hbits] at hop ⊢
    cases l with
    | nil => cases hop; exact ⟨d, rfl, h⟩
    | cons x l =>
      cases hop
      obtain ⟨slots, hslots, h'⟩ := h.destroyFront hbits
      exact ⟨_, by rw [if_neg (by simp), RingDeque.destroyFront, hslots]; rfl, h'⟩
  | front =>
    cases l with
    | nil => cases hop
    | cons x l =>
      cases hop
      exact ⟨d, by rw [RingDeque.exec, h.front]; rfl, h⟩
  | back =>
    induction l using List.reverseRecOn with
    | nil => cases hop
    | append_singleton l x =>
      rw [execList, List.getLast?_concat] at hop
      cases hop
      exact ⟨d, by rw [RingDeque.exec, h.back.2]; rfl, h⟩
  | pushBackBulk items =>
    cases hop
    have htake : items.take (2 ^ bits - l.length) =
        items.take (min items.length (2 ^ bits - l.length)) := by
      rw [List.take_eq_take_iff]
      omega
    rw [htake]
    obtain ⟨d', hd', h'⟩ :=
      h.constructAll hbits (items.take (min items.length (2 ^ bits - l.length)))
      (by rw [List.length_take]; omega)
    exact ⟨d', by rw [RingDeque.exec, h.size_eq hbits, hd']; rfl, h'⟩
  | popFrontBulk out =>
    cases hop
    obtain ⟨d', hd', h'⟩ := h.takeFront hbits (min_le_right out l.length)
    have hdrop : l.drop out = l.drop (min out l.length) := by
      rw [List.drop_eq_drop_iff]
      omega
    rw [List.take_eq_take_min, hdrop]
    exact ⟨d', by rw [RingDeque.exec, h.size_eq hbits, hd']; rfl, h'⟩
  | clear =>
    cases hop
    cases trivial with
    | false =>
      obtain ⟨d', hd', h'⟩ := h.clearLoop hbits
      exact ⟨d', by rw [RingDeque.exec, if_neg nofun, hd']; rfl, h'⟩
    | true => exact ⟨_, rfl, Nat.zero_le _, (BitVec.add_zero _).symm, fun _ _ hor => by simp at hor⟩

/-- Every slot is the slot of some position. -/
theorem Rel.slots_nil (h : Rel bits trivial d []) (htrivial : trivial = false) {j : Nat}
    (hj : j < 2 ^ bits) : d.slots j = none := by
  have hmod := Nat.mod_lt d.head.toNat (Nat.two_pow_pos bits)
  have hdiv := Nat.div_add_mod d.head.toNat (2 ^ bits)
  have hi := h.holds ((j + (2 ^ bits - d.head.toNat % 2 ^ bits)) % 2 ^ bits)
    (Nat.mod_lt _ (Nat.two_pow_pos bits)) (.inr htrivial)
  rw [ptr_add hbits, Nat.add_mod_mod, show d.head.toNat +
    (j + (2 ^ bits - d.head.toNat % 2 ^ bits)) =
    j + 2 ^ bits * (d.head.toNat / 2 ^ bits + 1) by rw [Nat.mul_add]; omega,
    Nat.add_mul_mod_self_left, Nat.mod_eq_of_lt hj] at hi
  exact hi

theorem Rel.run (h : Rel bits trivial d l) {ops : List (Op α)} {rs : List (Ret α)} {l' : List α}
    (hrun : run (execList (2 ^ bits)) l ops = some (rs, l')) :
    ∃ d', run (RingDeque.exec bits trivial) d ops = some (rs, d') ∧ Rel bits trivial d' l' := by
  induction ops generalizing d l rs with
  | nil => cases hrun; exact ⟨d, rfl, h⟩
  | cons op ops ih =>
    simp only [RingDeque.run, Option.bind_eq_bind, Option.bind_eq_some_iff] at hrun
    obtain ⟨⟨r, l₁⟩, hop, ⟨rs, l₂⟩, hops, hret⟩ := hrun
    cases hret
    obtain ⟨d₁, hd₁, h₁⟩ := h.exec hbits hop
    obtain ⟨d₂, hd₂, h₂⟩ := ih h₁ hops
    refine ⟨d₂, ?_, h₂⟩
    rw [RingDeque.run, hd₁]
    dsimp only [Option.bind_eq_bind, Option.bind_some]
    rw [hd₂]
    rfl

/-- **The deque refines the list.**  Every run of the list that reads no element from an empty one
is a run of the deque, with the same results: nothing is built over an element or read or destroyed
without one. When the deque is then destroyed, no element with a destructor is left behind. -/
theorem run_refines {ops : List (Op α)} {rs : List (Ret α)}
    (hrun : run (execList (2 ^ bits)) [] ops = some (rs, l)) :
    ∃ d d' : RingDeque α, run (RingDeque.exec bits trivial) initial ops = some (rs, d) ∧
    Rel bits trivial d l ∧
      d.exec bits trivial .clear = some (.done, d') ∧
      (trivial = false → ∀ j < 2 ^ bits, d'.slots j = none) := by
  have hinit : Rel bits trivial (initial : RingDeque α) [] := ⟨Nat.zero_le _, rfl, fun _ _ _ => rfl⟩
  obtain ⟨d, hd, h⟩ := hinit.run hbits hrun
  obtain ⟨d', hclear, h'⟩ := h.exec hbits (show execList (2 ^ bits) l .clear = _ from rfl)
  exact ⟨d, d', hd, h, hclear, fun htrivial j hj => h'.slots_nil hbits htrivial hj⟩

end Proofs

theorem run_refines_wraps : run (execList 2) [] [.emplaceFront 1, .pushBackBulk [2, 3], .popFront] =
      some ([.done, .count 1, .value 1], [2]) ∧
    ∃ d d' : RingDeque Nat,
    run (RingDeque.exec 1 false) initial [.emplaceFront 1, .pushBackBulk [2, 3], .popFront] =
      some ([.done, .count 1, .value 1], d) ∧ Rel 1 false d [2] ∧
      d.exec 1 false .clear = some (.done, d') ∧ (false = false → ∀ j < 2 ^ 1, d'.slots j = none) :=
  ⟨rfl, run_refines (by decide) rfl⟩

end RingDeque

end Erebus.Utils
