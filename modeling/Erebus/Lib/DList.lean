import Mathlib.Tactic

/-!
# Intrusive doubly linked lists

A heap of link cells `next`/`prev` over an arbitrary type of node addresses, and the judgement that
a stretch of that heap is a well formed doubly linked list. Nothing here knows what the nodes are:
free blocks, tree leaves, slabs and memory areas all keep their links this way.

* `Seg L p l q`: the nodes `l` are chained in both directions, entered from `p` and left towards
  `q`.
* `Seg.walk_next`, `Seg.walk_prev`: walking the cells from either end visits exactly the nodes of
  the segment.
* `IsDList L e l`: `l` is a whole list whose end pointers are `e`.
* `pushFront`, `pushBack`, `insertAfter`, `unlink`, `popFront`: the usual pointer writes, each with
  the lemma saying which list they produce and the frame lemma saying which cells they leave alone.
-/

namespace DList

open List (nodup_cons mem_of_head? head?_cons nodup_append concat_eq_append getLast?_append
    mem_append mem_singleton)

variable {α : Type*}

/-- The link cells of every node. -/
structure Links (α : Type*) where
  next : α → Option α
  prev : α → Option α

/-- The two end pointers of one list. -/
structure Ends (α : Type*) where
  head : Option α
  tail : Option α
  deriving DecidableEq

namespace Links

variable [DecidableEq α]

/-- Store into the `next` cell of `x`. -/
def setNext (L : Links α) (x : α) (v : Option α) : Links α :=
  { L with next := Function.update L.next x v }

/-- Store into the `prev` cell of `x`. -/
def setPrev (L : Links α) (x : α) (v : Option α) : Links α :=
  { L with prev := Function.update L.prev x v }

@[simp] theorem setNext_next (L : Links α) (x y : α) (v : Option α) :
    (L.setNext x v).next y = if y = x then v else L.next y := by
  simp [setNext, Function.update_apply]

@[simp] theorem setNext_prev (L : Links α) (x : α) (v : Option α) : (L.setNext x v).prev = L.prev :=
  rfl

@[simp] theorem setPrev_prev (L : Links α) (x y : α) (v : Option α) :
    (L.setPrev x v).prev y = if y = x then v else L.prev y := by
  simp [setPrev, Function.update_apply]

@[simp] theorem setPrev_next (L : Links α) (x : α) (v : Option α) : (L.setPrev x v).next = L.next :=
  rfl

/-- Store into the `next` cell of the node `p` points at, if it points at one. -/
def setNext? (L : Links α) (p : Option α) (v : Option α) : Links α :=
  match p with
  | some x => L.setNext x v
  | none => L

/-- Store into the `prev` cell of the node `p` points at, if it points at one. -/
def setPrev? (L : Links α) (p : Option α) (v : Option α) : Links α :=
  match p with
  | some x => L.setPrev x v
  | none => L

variable (L : Links α) (p : Option α)

@[simp] theorem setNext?_next (y : α) (v : Option α) :
    (L.setNext? p v).next y = if p = some y then v else L.next y := by
  cases p with
  | none => simp [setNext?]
  | some x => simp [setNext?, eq_comm]

@[simp] theorem setNext?_prev (v : Option α) : (L.setNext? p v).prev = L.prev := by
  cases p <;> rfl

@[simp] theorem setPrev?_prev (y : α) (v : Option α) :
    (L.setPrev? p v).prev y = if p = some y then v else L.prev y := by
  cases p with
  | none => simp [setPrev?]
  | some x => simp [setPrev?, eq_comm]

@[simp] theorem setPrev?_next (v : Option α) : (L.setPrev? p v).next = L.next := by
  cases p <;> rfl

/-- `L'` agrees with `L` on the cells of `y`. -/
def SameAt (L L' : Links α) (y : α) : Prop :=
  L'.next y = L.next y ∧ L'.prev y = L.prev y

end Links

open Links
    (SameAt setNext_next setPrev_prev setPrev_next setNext_prev setPrev?_next setNext? setPrev?)

/-- The nodes `l` are chained in both directions: the first one's predecessor is `p`, the last one's
successor is `q`. -/
def Seg (L : Links α) : Option α → List α → Option α → Prop
  | _, [], _ => True
  | p, x :: xs, q => L.prev x = p ∧ L.next x = xs.head?.or q ∧ Seg L (some x) xs q

@[simp] theorem seg_nil (L : Links α) (p q : Option α) : Seg L p [] q := trivial

@[simp] theorem seg_cons (L : Links α) (p q : Option α) (x : α) (xs : List α) :
    Seg L p (x :: xs) q ↔ L.prev x = p ∧ L.next x = xs.head?.or q ∧ Seg L (some x) xs q := Iff.rfl

/-- A segment splits at any point into two segments that meet there. -/
theorem seg_append (L : Links α) (p q : Option α) (xs ys : List α) : Seg L p (xs ++ ys) q ↔
      Seg L p xs (ys.head?.or q) ∧ Seg L (xs.getLast?.or p) ys q := by
  induction xs generalizing p with
  | nil => simp
  | cons x xs ih =>
    have hlast : (x :: xs).getLast?.or p = xs.getLast?.or (some x) := by
      rw [List.getLast?_cons]
      cases xs.getLast? <;> rfl
    simp only [List.cons_append, seg_cons, ih, List.head?_append, Option.or_assoc, hlast]
    tauto

/-- A segment only depends on the cells of its own nodes. -/
theorem seg_congr {L L' : Links α} {l : List α} (h : ∀ y ∈ l, SameAt L L' y)
    (p q : Option α) : Seg L' p l q ↔ Seg L p l q := by
  induction l generalizing p with
  | nil => simp
  | cons x xs ih =>
    have hx := h x (List.mem_cons_self)
    have hxs := ih (fun y hy => h y (List.mem_cons_of_mem _ hy)) (some x)
    simp only [seg_cons, hxs, hx.1, hx.2]

/-- A segment entered from elsewhere. -/
theorem Seg.relink_prev [DecidableEq α] {L L' : Links α} {l : List α} {p p' q : Option α}
    (h : Seg L p l q)
    (hnd : l.Nodup)
    (hcells : ∀ y ∈ l, L'.next y = L.next y ∧ L'.prev y = if l.head? = some y then p'
    else L.prev y) : Seg L' p' l q := by
  cases l with
  | nil => trivial
  | cons x xs =>
    obtain ⟨hnext, hprev⟩ := hcells x List.mem_cons_self
    refine ⟨by simpa using hprev, hnext.trans h.2.1, (seg_congr (fun y hy => ?_) _ _).2 h.2.2⟩
    have hyx : x ≠ y := fun heq => (nodup_cons.1 hnd).1 (heq ▸ hy)
    simpa [SameAt, hyx] using hcells y (List.mem_cons_of_mem x hy)

/-- A segment that leads elsewhere. -/
theorem Seg.relink_next [DecidableEq α] {L L' : Links α} {l : List α} {p q q' : Option α}
    (h : Seg L p l q)
    (hnd : l.Nodup)
    (hcells : ∀ y ∈ l, L'.prev y = L.prev y ∧ L'.next y = if l.getLast? = some y then q'
    else L.next y) : Seg L' p l q' := by
  rcases List.eq_nil_or_concat l with rfl | ⟨xs, x, rfl⟩
  · trivial
  · simp only [concat_eq_append, seg_append, mem_append, mem_singleton,
      getLast?_append] at h hnd hcells ⊢
    obtain ⟨hprev, hnext⟩ := hcells x (.inr rfl)
    refine ⟨(seg_congr (fun y hy => ?_) _ _).2 h.1,
      hprev.trans h.2.1, by simpa using hnext, trivial⟩
    have hyx : x ≠ y := fun heq => (nodup_append.1 hnd).2.2 y hy x (by simp) heq.symm
    simpa [SameAt, hyx, and_comm] using hcells y (.inl hy)

/-- The nodes met by following `f` from `p`, at most `n` of them. -/
def walk (f : α → Option α) : Nat → Option α → List α
  | n + 1, some x => x :: walk f n (f x)
  | _, _ => []

/-- Following the `next` cells from the first node meets the nodes in order and then stops. -/
theorem Seg.walk_next {L : Links α} {p : Option α} {l : List α} (h : Seg L p l none) {n : Nat}
    (hn : l.length ≤ n) : walk L.next n l.head? = l := by
  induction l generalizing p n with
  | nil => cases n <;> rfl
  | cons x xs ih =>
    cases n with
    | zero => simp at hn
    | succ n =>
      obtain ⟨-, hnext, hrest⟩ := (seg_cons L p none x xs).1 h
      have hxs := ih hrest (by simpa using hn)
      simp only [Option.or_none] at hnext
      simp only [head?_cons, walk, hnext, hxs]

/-- Following the `prev` cells from the last node meets the nodes in reverse order and then
stops. -/
theorem Seg.walk_prev {L : Links α} {q : Option α} {l : List α} (h : Seg L none l q) {n : Nat}
    (hn : l.length ≤ n) : walk L.prev n l.getLast? = l.reverse := by
  induction l using List.reverseRecOn generalizing q n with
  | nil => cases n <;> rfl
  | append_singleton xs x ih =>
    cases n with
    | zero => simp at hn
    | succ n =>
      obtain ⟨hfirst, hlast⟩ := (seg_append L none q xs [x]).1 h
      have hprev : L.prev x = xs.getLast? := by simpa using hlast.1
      have hxs := ih hfirst (by simpa using hn)
      simp only [getLast?_append, List.getLast?_singleton, Option.some_or, walk, hprev, hxs,
        List.reverse_append, List.reverse_singleton, List.singleton_append]

/-- `l` is a whole list with end pointers `e`. -/
structure IsDList (L : Links α) (e : Ends α) (l : List α) : Prop where
  head_eq : e.head = l.head?
  tail_eq : e.tail = l.getLast?
  seg : Seg L none l none
  nodup : l.Nodup

theorem IsDList.congr {L L' : Links α} {e : Ends α} {l : List α} (hl : IsDList L e l)
    (h : ∀ y ∈ l, SameAt L L' y) : IsDList L' e l :=
  ⟨hl.head_eq, hl.tail_eq, (seg_congr h none none).2 hl.seg, hl.nodup⟩

theorem isDList_nil (L : Links α) : IsDList L ⟨none, none⟩ ([] : List α) :=
  ⟨rfl, rfl, trivial, List.nodup_nil⟩

theorem IsDList.eq_nil_of_head_none {L : Links α} {e : Ends α} {l : List α}
    (hl : IsDList L e l) (h : e.head = none) : l = [] := by
  rw [hl.head_eq] at h
  exact List.head?_eq_none_iff.mp h

/-- The neighbours of a member are read off its cells. -/
theorem IsDList.cells {L : Links α} {e : Ends α} {a b : List α} {x : α}
    (hl : IsDList L e (a ++ x :: b)) : L.prev x = a.getLast? ∧ L.next x = b.head? := by
  have h := (seg_append L none none a (x :: b)).1 hl.seg
  have hx := (seg_cons L _ none x b).1 h.2
  exact ⟨by simpa using hx.1, by simpa using hx.2.1⟩

section Operations

variable [DecidableEq α]
variable {L : Links α} {e : Ends α} {l a b : List α} {x y : α}

/-- Link `x` in front of the list. -/
def pushFront (L : Links α) (e : Ends α) (x : α) : Links α × Ends α :=
  let L := (L.setNext x e.head).setPrev x none
  match e.head with
  | some h => (L.setPrev h (some x), ⟨some x, e.tail⟩)
  | none => (L, ⟨some x, some x⟩)

/-- Link `x` behind the list. -/
def pushBack (L : Links α) (e : Ends α) (x : α) : Links α × Ends α :=
  let L := (L.setNext x none).setPrev x e.tail
  match e.tail with
  | some t => (L.setNext t (some x), ⟨e.head, some x⟩)
  | none => (L, ⟨some x, some x⟩)

/-- Take `x` out of the list, wherever it is, and clear its cells. -/
def unlink (L : Links α) (e : Ends α) (x : α) : Links α × Ends α :=
  let L₁ := L.setNext? (L.prev x) (L.next x)
  let L₂ := L₁.setPrev? (L.next x) (L.prev x)
  let head := if L.prev x = none then L.next x else e.head
  let tail := if L.next x = none then L.prev x else e.tail
  ((L₂.setNext x none).setPrev x none, ⟨head, tail⟩)

/-- Take the first node out of the list. -/
def popFront (L : Links α) (e : Ends α) : Option α × Links α × Ends α :=
  match e.head with
  | none => (none, L, e)
  | some x =>
    match L.next x with
    | some h => (some x, ((L.setPrev h none).setNext x none).setPrev x none, ⟨some h, e.tail⟩)
    | none => (some x, (L.setNext x none).setPrev x none, ⟨none, none⟩)

/-- Link `y` behind `x`; the end pointers are somebody else's business. -/
def insertAfter (L : Links α) (x y : α) : Links α :=
  let L₁ := (L.setNext y (L.next x)).setPrev y (some x)
  (L₁.setPrev? (L.next x) (some y)).setNext x (some y)

/-- Link `y` in front of `x`. -/
def insertBefore (L : Links α) (e : Ends α) (x y : α) : Links α × Ends α :=
  let L' := ((L.setNext y (some x)).setPrev y (L.prev x)).setNext? (L.prev x) (some y)
  (L'.setPrev x (some y), if L.prev x = none then { e with head := some y } else e)

/-- Unlink the successor `y` of `x`, leaving `y`'s own cells behind. -/
def bypass (L : Links α) (x y : α) : Links α :=
  (L.setNext x (L.next y)).setPrev? (L.next y) (some x)

/-- Pushing a node that is not in the list yet. -/
theorem pushFront_isDList (hl : IsDList L e l) (hx : x ∉ l) :
    IsDList (pushFront L e x).1 (pushFront L e x).2 (x :: l) := by
  cases l with
  | nil =>
    have hhead : e.head = none := by simpa using hl.head_eq
    simp only [pushFront, hhead]
    exact ⟨rfl, rfl, by simp, by simp⟩
  | cons h t =>
    have hhead : e.head = some h := by simpa using hl.head_eq
    have hxh : x ≠ h := fun heq => hx (by simp [heq])
    simp only [pushFront, hhead]
    refine ⟨rfl, ?_, ?_, nodup_cons.2 ⟨hx, hl.nodup⟩⟩
    · simpa [List.getLast?_cons_cons] using hl.tail_eq
    · refine ⟨by simp [hxh], by simp, hl.seg.relink_prev hl.nodup fun y hy => ?_⟩
      have hyx : y ≠ x := fun heq => hx (heq ▸ hy)
      simp [hyx, eq_comm]

theorem pushFront_sameAt (hyx : y ≠ x) (hyh : e.head ≠ some y) :
    SameAt L (pushFront L e x).1 y := by
  cases hh : e.head with
  | none => simp [pushFront, hh, SameAt, hyx]
  | some h =>
    have hyh' : y ≠ h := fun heq => hyh (by rw [hh, heq])
    simp [pushFront, hh, SameAt, hyx, hyh']

theorem pushBack_isDList (hl : IsDList L e l) (hx : x ∉ l) :
    IsDList (pushBack L e x).1 (pushBack L e x).2 (l ++ [x]) := by
  rcases List.eq_nil_or_concat l with rfl | ⟨a, t, rfl⟩
  · have htail : e.tail = none := by simpa using hl.tail_eq
    simp only [pushBack, htail]
    exact ⟨rfl, rfl, by simp, by simp⟩
  · have htail : e.tail = some t := by simpa using hl.tail_eq
    have hx' : x ≠ t := fun heq => hx (by simp [heq])
    simp only [pushBack, htail]
    refine ⟨?_, by simp, ?_, List.nodup_append_comm.2 (nodup_cons.2 ⟨hx, hl.nodup⟩)⟩
    · have := hl.head_eq
      cases a <;> simpa using this
    · rw [seg_append]
      refine ⟨hl.seg.relink_next hl.nodup fun y hy => ?_, by simp, by simp [hx'], trivial⟩
      have hyx : y ≠ x := fun heq => hx (heq ▸ hy)
      simp [hyx, eq_comm]

theorem pushBack_sameAt (hyx : y ≠ x) (hyt : e.tail ≠ some y) : SameAt L (pushBack L e x).1 y := by
  cases ht : e.tail with
  | none => simp [pushBack, ht, SameAt, hyx]
  | some t =>
    have hyt' : y ≠ t := fun heq => hyt (by rw [ht, heq])
    simp [pushBack, ht, SameAt, hyx, hyt']

/-- The cells of `x` are cleared, its neighbours are joined, nothing else is written. -/
theorem unlink_isDList (hl : IsDList L e (a ++ x :: b)) :
    IsDList (unlink L e x).1 (unlink L e x).2 (a ++ b) := by
  obtain ⟨hprev, hnext⟩ := hl.cells
  have hnd := nodup_append.1 hl.nodup
  have hxb : x ∉ b := (nodup_cons.1 hnd.2.1).1
  have hxa : x ∉ a := fun hmem => hnd.2.2 x hmem x (by simp) rfl
  have hab : ∀ y ∈ a, y ∉ b := fun y hy hyb => hnd.2.2 y hy y (by simp [hyb]) rfl
  have hseg := (seg_append L none none a (x :: b)).1 hl.seg
  have hsegb := ((seg_cons L _ none x b).1 hseg.2).2.2
  have hsega : Seg L none a (some x) := by simpa using hseg.1
  refine ⟨?_, ?_, ?_, ?_⟩
  · have hhead := hl.head_eq
    cases a with
    | nil => simp [unlink, hprev, hnext]
    | cons c cs => simpa [unlink, hprev, List.getLast?_cons] using hhead
  · have htail := hl.tail_eq
    cases b with
    | nil => simp [unlink, hprev, hnext]
    | cons c cs =>
      simp only [unlink, hnext, head?_cons, reduceCtorEq, if_false]
      rw [htail, getLast?_append, getLast?_append, List.getLast?_cons_cons]
  · rw [seg_append]
    constructor
    · -- only the last node of `a` sees a write, in its `next` cell
      refine hsega.relink_next hnd.1 fun y hy => ?_
      have hyx : y ≠ x := fun heq => hxa (heq ▸ hy)
      have hyb : b.head? ≠ some y := fun heq => hab y hy (mem_of_head? heq)
      simp [unlink, hprev, hnext, hyx, hyb]
    · -- only the first node of `b` sees a write, in its `prev` cell
      refine hsegb.relink_prev (nodup_cons.1 hnd.2.1).2 fun y hy => ?_
      have hyx : y ≠ x := fun heq => hxb (heq ▸ hy)
      have hya : a.getLast? ≠ some y := fun heq => hab y (List.mem_of_getLast? heq) hy
      simp [unlink, hprev, hnext, hyx, hya]
  · rw [nodup_append]
    exact ⟨hnd.1, (nodup_cons.1 hnd.2.1).2, fun y hy z hz =>
      hnd.2.2 y hy z (List.mem_cons_of_mem _ hz)⟩

/-- Unlinking writes only to the list it unlinks from. -/
theorem unlink_sameAt (hl : IsDList L e l) (hx : x ∈ l) (hy : y ∉ l) :
    SameAt L (unlink L e x).1 y := by
  obtain ⟨a, b, rfl⟩ := List.append_of_mem hx
  obtain ⟨hprev, hnext⟩ := hl.cells
  simp only [mem_append, List.mem_cons, not_or] at hy
  have hya : a.getLast? ≠ some y := fun heq => hy.1 (List.mem_of_getLast? heq)
  have hyb : b.head? ≠ some y := fun heq => hy.2.2 (mem_of_head? heq)
  simp [unlink, SameAt, hprev, hnext, hy.2.1, hya, hyb]

/-- Popping an empty list does nothing; popping any other list is unlinking its first node. -/
theorem popFront_eq (hl : IsDList L e (x :: l)) : popFront L e = (some x, unlink L e x) := by
  have hhead : e.head = some x := by simpa using hl.head_eq
  obtain ⟨hprev, hnext⟩ := IsDList.cells (a := []) (by simpa using hl)
  simp only [List.getLast?_nil] at hprev
  cases l with
  | nil =>
    simp only [List.head?_nil] at hnext
    simp [popFront, hhead, hnext, unlink, hprev, setNext?, setPrev?]
  | cons h t =>
    simp only [head?_cons] at hnext
    simp [popFront, hhead, hnext, unlink, hprev, setNext?, setPrev?]

/-- Inserting `y` behind `x`. -/
theorem insertAfter_seg (hseg : Seg L none (a ++ x :: b) none) (hnd : (a ++ x :: b).Nodup)
    (hy : y ∉ a ++ x :: b) : Seg (insertAfter L x y) none (a ++ x :: y :: b) none := by
  have hnd' := nodup_append.1 hnd
  have hxb : x ∉ b := (nodup_cons.1 hnd'.2.1).1
  have hxa : x ∉ a := fun hmem => hnd'.2.2 x hmem x (by simp) rfl
  have hab : ∀ z ∈ a, z ∉ b := fun z hz hzb => hnd'.2.2 z hz z (by simp [hzb]) rfl
  simp only [mem_append, List.mem_cons, not_or] at hy
  obtain ⟨hya, hyx, hyb⟩ := hy
  have hseg' := (seg_append L none none a (x :: b)).1 hseg
  have hcells := (seg_cons L _ none x b).1 hseg'.2
  have hnext : L.next x = b.head? := by simpa using hcells.2.1
  rw [seg_append]
  refine ⟨(seg_congr (fun z hz => ?_) _ _).2 (by simpa using hseg'.1), ?_⟩
  · have hzx : z ≠ x := fun heq => hxa (heq ▸ hz)
    have hzy : z ≠ y := fun heq => hya (heq ▸ hz)
    have hzb : b.head? ≠ some z := fun heq => hab z hz (mem_of_head? heq)
    simp [insertAfter, SameAt, hnext, hzx, hzy, hzb]
  · have hxy : x ≠ y := fun heq => hyx heq.symm
    have hbx : b.head? ≠ some x := fun heq => hxb (mem_of_head? heq)
    have hby : b.head? ≠ some y := fun heq => hyb (mem_of_head? heq)
    simp only [seg_cons, insertAfter, hnext, setNext_prev, Links.setPrev?_prev,
      setPrev_prev, setNext_next, setPrev?_next, setPrev_next, hxy, hyx,
      hbx, hby, if_false, if_true, head?_cons, Option.or_none]
    refine ⟨by simpa using hcells.1, trivial, trivial, trivial, ?_⟩
    refine Seg.relink_prev hcells.2.2 (nodup_cons.1 hnd'.2.1).2 fun z hz => ?_
    have hzx : z ≠ x := fun heq => hxb (heq ▸ hz)
    have hzy : z ≠ y := fun heq => hyb (heq ▸ hz)
    simp [hzx, hzy]

/-- Inserting behind a node, with the end pointer moved if it was the last. -/
theorem insertAfter_isDList (hl : IsDList L e (a ++ x :: b)) (hy : y ∉ a ++ x :: b) :
    IsDList (insertAfter L x y) (if L.next x = none then { e with tail := some y } else e)
      (a ++ x :: y :: b) := by
  have hnext := hl.cells.2
  have hnodup : (a ++ x :: y :: b).Nodup := by
    have hperm : (a ++ x :: y :: b).Perm (y :: (a ++ x :: b)) := by
      simpa using (List.perm_middle : ((a ++ [x]) ++ y :: b).Perm (y :: ((a ++ [x]) ++ b)))
    exact hperm.nodup_iff.2 (nodup_cons.2 ⟨hy, hl.nodup⟩)
  refine ⟨?_, ?_, insertAfter_seg hl.seg hl.nodup hy, hnodup⟩
  · have hhead := hl.head_eq
    split <;> simpa [List.head?_append] using hhead
  · have htail := hl.tail_eq
    cases b with
    | nil => simp [hnext]
    | cons c cs => simpa [hnext, getLast?_append, List.getLast?_cons] using htail

/-- Inserting behind the last node before `x`, or in front of the list. -/
theorem insertBefore_isDList (hl : IsDList L e (a ++ x :: b)) (hy : y ∉ a ++ x :: b) :
    IsDList (insertBefore L e x y).1 (insertBefore L e x y).2 (a ++ y :: x :: b) := by
  have hprev := hl.cells.1
  rcases List.eq_nil_or_concat a with rfl | ⟨c, t, rfl⟩
  · have hhead : e.head = some x := hl.head_eq
    have heq : insertBefore L e x y = pushFront L e y := by
      simp [insertBefore, pushFront, hprev, hhead, setNext?]
    rw [heq]
    exact pushFront_isDList hl hy
  · simp only [concat_eq_append, List.append_assoc, List.singleton_append] at hl hy hprev ⊢
    have hprev' : L.prev x = some t := by simpa using hprev
    have hnext : L.next t = some x := hl.cells.2
    have heq : insertBefore L e x y = (insertAfter L t y, e) := by
      simp [insertBefore, insertAfter, hprev', hnext, setNext?, setPrev?, Links.setNext,
        Links.setPrev]
    rw [heq]
    have hafter := insertAfter_isDList hl hy
    rwa [hnext, if_neg nofun] at hafter

/-- Bypassing the successor of `x`: the nodes that stay cannot tell it from unlinking. -/
theorem bypass_seg (hseg : Seg L none (a ++ x :: y :: b) none) (hnd : (a ++ x :: y :: b).Nodup) :
    Seg (bypass L x y) none (a ++ x :: b) none := by
  obtain ⟨e, hl⟩ : ∃ e, IsDList L e ((a ++ [x]) ++ y :: b) :=
    ⟨⟨_, _⟩, rfl, rfl, by simpa using hseg, by simpa using hnd⟩
  have hprev : L.prev y = some x := by simpa using hl.cells.1
  have hy := (nodup_cons.1 (List.nodup_middle.1 hl.nodup)).1
  have hunlinked := (unlink_isDList hl).seg
  rw [List.append_assoc, List.singleton_append] at hy hunlinked
  refine (seg_congr (fun z hz => ?_) _ _).2 hunlinked
  have hzy : z ≠ y := fun heq => hy (heq ▸ hz)
  simp [bypass, unlink, SameAt, hprev, hzy, eq_comm]

end Operations

end DList
