import Mathlib.Tactic

/-!
# The intrusive height-balanced tree

A node carries its item, its height and whatever `Traits::update` keeps about the subtree. Climbing
from a node to the root is returning from the recursion that came down to it.

* `insert`, `erase`: the operations, with the rotations of `rebalance_upwards` at every node on the
  way back.
* `insert_toList`, `erase_toList`: what they do to the items in order; `next_eq`: the item after
  another.
* `Balanced`: heights are right and differ by at most one; both operations keep it.
* `Updated`: every node holds what `update` makes of its item and its children; both operations keep
  it.
-/

namespace Erebus

/-- What an `AvlTree` wants to know about its items: the order, and what a node keeps about its
subtree, from its item and what its children keep. -/
structure AvlTraits (α β : Type) where
  less : α → α → Bool
  update : α → Option β → Option β → β

inductive AvlTree (α β : Type)
  | nil
  | node (left : AvlTree α β) (item : α) (height : Nat) (data : β) (right : AvlTree α β)

namespace AvlTree

variable {α β : Type}

/-! ## Operations -/

def height : AvlTree α β → Nat
  | nil => 0
  | node _ _ height _ _ => height

def left : AvlTree α β → AvlTree α β
  | nil => nil
  | node left _ _ _ _ => left

def right : AvlTree α β → AvlTree α β
  | nil => nil
  | node _ _ _ _ right => right

def data : AvlTree α β → Option β
  | nil => none
  | node _ _ _ data _ => some data

/-- The items in order. -/
def toList : AvlTree α β → List α
  | nil => []
  | node left item _ _ right => left.toList ++ item :: right.toList

variable (T : AvlTraits α β)

/-- A node after `refresh`. -/
def refresh (left : AvlTree α β) (item : α) (right : AvlTree α β) : AvlTree α β :=
  node left item (1 + max left.height right.height) (T.update item left.data right.data) right

/-- `rotate_left`. -/
def rotateLeft : AvlTree α β → AvlTree α β
  | node left item _ _ (node pivotLeft pivot _ _ pivotRight) =>
    refresh T (refresh T left item pivotLeft) pivot pivotRight
  | t => t

/-- `rotate_right`. -/
def rotateRight : AvlTree α β → AvlTree α β
  | node (node pivotLeft pivot _ _ pivotRight) item _ _ right =>
    refresh T pivotLeft pivot (refresh T pivotRight item right)
  | t => t

/-- One round of `rebalance_upwards`. -/
def rebalance (left : AvlTree α β) (item : α) (right : AvlTree α β) : AvlTree α β :=
  if right.height + 1 < left.height then
    let left := if left.left.height < left.right.height then rotateLeft T left else left
    rotateRight T (refresh T left item right)
  else if left.height + 1 < right.height then
    let right := if right.right.height < right.left.height then rotateRight T right else right
    rotateLeft T (refresh T left item right)
  else
    refresh T left item right

/-- `AvlTree::insert`. -/
def insert (x : α) : AvlTree α β → AvlTree α β
  | nil => rebalance T nil x nil
  | node left item _ _ right =>
    if T.less x item then
      rebalance T (insert x left) item right
    else
      rebalance T left item (insert x right)

/-- The next node in order leaves its place below the right child; `left`, `item` and `right` are
the parts of the node it is looked for under. -/
def popFirst : AvlTree α β → α → AvlTree α β → α × AvlTree α β
  | nil, item, right => (item, right)
  | node left first _ _ between, item, right =>
    let (x, left) := popFirst left first between
    (x, rebalance T left item right)

/-- What takes the place of an erased node, from its children. -/
def eraseRoot (left : AvlTree α β) : AvlTree α β → AvlTree α β
  | nil => left
  | node rightLeft rightItem height data rightRight =>
    match left with
    | nil => node rightLeft rightItem height data rightRight
    | left =>
      -- two children: the next node in order takes this one's place
      let (next, right) := popFirst T rightLeft rightItem rightRight
      rebalance T left next right

/-- `AvlTree::erase` of the item with the property. In the source an item knows where it is; here it
is looked for. -/
def erase (p : α → Bool) : AvlTree α β → AvlTree α β
  | nil => nil
  | node left item _ _ right =>
    if p item then
      eraseRoot T left right
    else if left.toList.any p then
      rebalance T (erase p left) item right
    else
      rebalance T left item (erase p right)

/-- `AvlTree::first`. -/
def first : AvlTree α β → Option α
  | nil => none
  | node left item _ _ _ => left.first.or (some item)

/-- `AvlTree::next` of the item with the property: the lowest item below its right child or, if
there is none, the nearest ancestor that has it on the left. `above` is the nearest such ancestor of
the tree. -/
def next (p : α → Bool) (above : Option α) : AvlTree α β → Option α
  | nil => none
  | node left item _ _ right =>
    if p item then
      right.first.or above
    else if left.toList.any p then
      next p (some item) left
    else
      next p above right

/-! ## The items in order -/

@[simp] theorem toList_nil : (nil : AvlTree α β).toList = [] := rfl

@[simp] theorem toList_node (l : AvlTree α β) (i : α) (h : Nat) (d : β) (r : AvlTree α β) :
    (node l i h d r).toList = l.toList ++ i :: r.toList := rfl

@[simp] theorem toList_refresh (l : AvlTree α β) (i : α) (r : AvlTree α β) :
    (refresh T l i r).toList = l.toList ++ i :: r.toList := rfl

@[simp] theorem toList_rotateLeft (t : AvlTree α β) : (rotateLeft T t).toList = t.toList := by
  unfold rotateLeft
  split
  · simp
  · rfl

@[simp] theorem toList_rotateRight (t : AvlTree α β) : (rotateRight T t).toList = t.toList := by
  unfold rotateRight
  split
  · simp
  · rfl

@[simp] theorem toList_rebalance (l : AvlTree α β) (i : α) (r : AvlTree α β) :
    (rebalance T l i r).toList = l.toList ++ i :: r.toList := by
  unfold rebalance
  split
  · simp only [toList_rotateRight, toList_refresh]
    split <;> simp
  · split
    · simp only [toList_rotateLeft, toList_refresh]
      split <;> simp
    · rfl

/-- No item is less than one before it. -/
def Sorted (l : List α) : Prop := l.Pairwise fun x y => T.less y x = false

section

variable (hasymm : ∀ x y, T.less x y = true → T.less y x = false)
  (hsplit : ∀ x y z, T.less x y = true → T.less x z = true ∨ T.less z y = true)

include hsplit

/-- **`insert`** puts an item behind all it is not less than. -/
theorem insert_toList (x : α) {t : AvlTree α β} (h : Sorted T t.toList) :
    ∃ a b, t.toList = a ++ b ∧ (insert T x t).toList = a ++ x :: b ∧
      (∀ y ∈ a, T.less x y = false) ∧ ∀ y ∈ b, T.less x y = true := by
  induction t with
  | nil => exact ⟨[], [], rfl, by simp [insert], by simp, by simp⟩
  | node l i height data r ihl ihr =>
    obtain ⟨hl, hir, hcross⟩ := List.pairwise_append.1 h
    obtain ⟨hi, hr⟩ := List.pairwise_cons.1 hir
    rw [insert]
    split
    · rename_i hless
      obtain ⟨a, b, heq, hins, ha, hb⟩ := ihl hl
      refine ⟨a, b ++ i :: r.toList, by simp [heq], by simp [hins], ha, fun y hy => ?_⟩
      rcases List.mem_append.1 hy with hy | hy
      · exact hb y hy
      · rcases List.mem_cons.1 hy with rfl | hy
        · exact hless
        · -- an item behind `i` is not less than `i`, so `x` is less than it too
          refine (hsplit x i y hless).resolve_right fun hyi => ?_
          rw [hi y hy] at hyi
          cases hyi
    · rename_i hless
      obtain ⟨a, b, heq, hins, ha, hb⟩ := ihr hr
      refine ⟨l.toList ++ i :: a, b, by simp [heq], by simp [hins], fun y hy => ?_, hb⟩
      rcases List.mem_append.1 hy with hy | hy
      · rw [Bool.eq_false_iff]
        intro hxy
        rcases hsplit x y i hxy with hxi | hiy
        · exact hless hxi
        · rw [hcross y hy i List.mem_cons_self] at hiy
          cases hiy
      · rcases List.mem_cons.1 hy with rfl | hy
        · simpa using hless
        · exact ha y hy

include hasymm

theorem insert_sorted (x : α) {t : AvlTree α β} (h : Sorted T t.toList) :
    Sorted T (insert T x t).toList := by
  obtain ⟨a, b, heq, hins, ha, hb⟩ := insert_toList T hsplit x h
  rw [heq] at h
  obtain ⟨hsa, hsb, hcross⟩ := List.pairwise_append.1 h
  rw [hins]
  refine List.pairwise_append.2
    ⟨hsa, List.pairwise_cons.2 ⟨fun y hy => hasymm x y (hb y hy), hsb⟩, ?_⟩
  intro y hy z hz
  rcases List.mem_cons.1 hz with rfl | hz
  · exact ha y hy
  · exact hcross y hy z hz

end

theorem popFirst_toList (l : AvlTree α β) (i : α) (r : AvlTree α β) :
    (popFirst T l i r).1 :: (popFirst T l i r).2.toList = l.toList ++ i :: r.toList := by
  induction l generalizing i r with
  | nil => rfl
  | node ll li height data lr ihl =>
    simp only [popFirst, toList_rebalance, toList_node]
    rw [← ihl li lr]
    rfl

@[simp] theorem toList_eraseRoot (l r : AvlTree α β) :
    (eraseRoot T l r).toList = l.toList ++ r.toList := by
  unfold eraseRoot
  split
  · simp
  · split
    · rfl
    · simp only [toList_rebalance, popFirst_toList, toList_node]

/-- **`erase`** takes one item out and leaves the others in order. -/
theorem erase_toList {p : α → Bool} {t : AvlTree α β} (h : t.toList.any p = true) :
    ∃ a x b, t.toList = a ++ x :: b ∧ p x = true ∧ (erase T p t).toList = a ++ b := by
  induction t with
  | nil => cases h
  | node l i height data r ihl ihr =>
    rw [erase]
    split
    · rename_i hp
      exact ⟨l.toList, i, r.toList, rfl, hp, toList_eraseRoot T l r⟩
    · rename_i hp
      split
      · rename_i hl
        obtain ⟨a, x, b, heq, hx, herase⟩ := ihl hl
        exact ⟨a, x, b ++ i :: r.toList, by simp [heq], hx, by simp [herase]⟩
      · rename_i hl
        have hr : r.toList.any p = true := by
          rw [toList_node, List.any_append, List.any_cons] at h
          simpa [hp, hl] using h
        obtain ⟨a, x, b, heq, hx, herase⟩ := ihr hr
        exact ⟨l.toList ++ i :: a, x, b, by simp [heq], hx, by simp [herase]⟩

theorem first_eq (t : AvlTree α β) : t.first = t.toList.head? := by
  induction t with
  | nil => rfl
  | node l i height data r ihl =>
    rw [first, ihl, toList_node]
    cases l.toList <;> rfl

/-- **`next`** finds the item that comes after. -/
theorem next_eq {p : α → Bool} {t : AvlTree α β} (h : t.toList.any p = true) (above : Option α) :
    ∃ a x b, t.toList = a ++ x :: b ∧ p x = true ∧ t.next p above = b.head?.or above := by
  induction t generalizing above with
  | nil => cases h
  | node l i height data r ihl ihr =>
    rw [next]
    split
    · rename_i hp
      exact ⟨l.toList, i, r.toList, rfl, hp, by rw [first_eq]⟩
    · rename_i hp
      split
      · rename_i hl
        obtain ⟨a, x, b, heq, hx, hnext⟩ := ihl hl (some i)
        refine ⟨a, x, b ++ i :: r.toList, by simp [heq], hx, ?_⟩
        rw [hnext]
        cases b <;> rfl
      · rename_i hl
        have hr : r.toList.any p = true := by
          rw [toList_node, List.any_append, List.any_cons] at h
          simpa [hp, hl] using h
        obtain ⟨a, x, b, heq, hx, hnext⟩ := ihr hr above
        exact ⟨l.toList ++ i :: a, x, b, by simp [heq], hx, hnext⟩

/-! ## What nodes keep about their subtrees -/

/-- Every node holds what `update` makes of its item and its children. -/
def Updated : AvlTree α β → Prop
  | nil => True
  | node left item _ data right =>
    data = T.update item left.data right.data ∧ left.Updated ∧ right.Updated

/-- The trees below the nodes of a tree, itself included. -/
def subtrees : AvlTree α β → List (AvlTree α β)
  | nil => []
  | node left item height data right =>
    node left item height data right :: (left.subtrees ++ right.subtrees)

variable {T} {l r t : AvlTree α β} {x i : α} {p : α → Bool}

theorem Updated.subtrees {s : AvlTree α β} (h : t.Updated T)
    (hs : s ∈ t.subtrees) : s.Updated T := by
  induction t with
  | nil => cases hs
  | node l i height data r ihl ihr =>
    rcases List.mem_cons.1 hs with rfl | hs
    · exact h
    · obtain ⟨-, hl, hr⟩ := h
      exact (List.mem_append.1 hs).elim (ihl hl) (ihr hr)

theorem Updated.refresh (hl : l.Updated T) (hr : r.Updated T) (i : α) :
    (refresh T l i r).Updated T :=
  ⟨rfl, hl, hr⟩

theorem Updated.rotateLeft (h : t.Updated T) : (rotateLeft T t).Updated T := by
  unfold AvlTree.rotateLeft
  split
  · obtain ⟨-, hl, -, hrl, hrr⟩ := h
    exact (hl.refresh hrl _).refresh hrr _
  · exact h

theorem Updated.rotateRight (h : t.Updated T) : (rotateRight T t).Updated T := by
  unfold AvlTree.rotateRight
  split
  · obtain ⟨-, ⟨-, hll, hlr⟩, hr⟩ := h
    exact hll.refresh (hlr.refresh hr _) _
  · exact h

theorem Updated.rebalance (hl : l.Updated T) (hr : r.Updated T) (i : α) :
    (rebalance T l i r).Updated T := by
  unfold AvlTree.rebalance
  split
  · simp only
    split
    · exact (hl.rotateLeft.refresh hr i).rotateRight
    · exact (hl.refresh hr i).rotateRight
  · split
    · simp only
      split
      · exact (hl.refresh hr.rotateRight i).rotateLeft
      · exact (hl.refresh hr i).rotateLeft
    · exact hl.refresh hr i

theorem Updated.insert (h : t.Updated T) (x : α) : (insert T x t).Updated T := by
  induction t with
  | nil => exact Updated.rebalance (l := nil) (r := nil) trivial trivial x
  | node l i height data r ihl ihr =>
    obtain ⟨-, hl, hr⟩ := h
    rw [AvlTree.insert]
    split
    · exact (ihl hl).rebalance hr i
    · exact hl.rebalance (ihr hr) i

theorem Updated.popFirst (hl : l.Updated T) (hr : r.Updated T) (i : α) :
    (popFirst T l i r).2.Updated T := by
  induction l generalizing i r with
  | nil => exact hr
  | node ll li height data lr ihl =>
    obtain ⟨-, hll, hlr⟩ := hl
    exact (ihl hll hlr li).rebalance hr i

theorem Updated.eraseRoot (hl : l.Updated T) (hr : r.Updated T) : (eraseRoot T l r).Updated T := by
  unfold AvlTree.eraseRoot
  split
  · exact hl
  · split
    · exact hr
    · obtain ⟨-, hrl, hrr⟩ := hr
      exact hl.rebalance (hrl.popFirst hrr _) _

theorem Updated.erase (h : t.Updated T) (p : α → Bool) : (erase T p t).Updated T := by
  induction t with
  | nil => exact h
  | node l i height data r ihl ihr =>
    obtain ⟨-, hl, hr⟩ := h
    rw [AvlTree.erase]
    split
    · exact hl.eraseRoot hr
    · split
      · exact (ihl hl).rebalance hr i
      · exact hl.rebalance (ihr hr) i

/-! ## Balance -/

/-- Heights are right, and those of two siblings differ by at most one. -/
def Balanced : AvlTree α β → Prop
  | nil => True
  | node left _ height _ right =>
    height = 1 + max left.height right.height ∧ left.height ≤ right.height + 1 ∧
      right.height ≤ left.height + 1 ∧ left.Balanced ∧ right.Balanced

@[simp] theorem height_nil : (nil : AvlTree α β).height = 0 := rfl

@[simp] theorem height_node (l : AvlTree α β) (i : α) (h : Nat) (d : β) (r : AvlTree α β) :
    (node l i h d r).height = h := rfl

@[simp] theorem height_refresh (l : AvlTree α β) (i : α) (r : AvlTree α β) :
    (refresh T l i r).height = 1 + max l.height r.height := rfl

variable (hl : l.Balanced) (hr : r.Balanced)
include hl hr

theorem Balanced.refresh (hle : l.height ≤ r.height + 1)
    (hle' : r.height ≤ l.height + 1) (i : α) : (refresh T l i r).Balanced :=
  ⟨rfl, hle, hle', hl, hr⟩

/-- The left side got too tall. -/
theorem Balanced.rotate_right (hle : l.height = r.height + 2) (i : α) :
    ∃ t, AvlTree.rotateRight T (AvlTree.refresh T
        (if l.left.height < l.right.height then rotateLeft T l else l) i r) = t ∧
      t.Balanced ∧ l.height ≤ t.height ∧ t.height ≤ l.height + 1 := by
  cases l with
  | nil => exact absurd hle (by simp)
  | node ll li height data lr =>
    obtain ⟨hheight, h₁, h₂, hll, hlr⟩ := hl
    rw [height_node] at hle ⊢
    by_cases hlt : ll.height < lr.height
    · rw [left, right, if_pos hlt]
      cases lr with
      | nil => exact absurd hlt (Nat.not_lt_zero _)
      | node lrl lri lrheight lrdata lrr =>
        obtain ⟨hlrheight, h₃, h₄, hlrl, hlrr⟩ := hlr
        rw [height_node] at hlt h₁ h₂ hheight
        refine ⟨AvlTree.refresh T (AvlTree.refresh T ll li lrl) lri
          (AvlTree.refresh T lrr i r), rfl,
          (hll.refresh hlrl ?_ ?_ li).refresh (hlrr.refresh hr ?_ ?_ i) ?_ ?_ lri, ?_, ?_⟩ <;>
          (try simp only [height_refresh]) <;> omega
    · rw [left, right, if_neg hlt]
      refine ⟨AvlTree.refresh T ll li (AvlTree.refresh T lr i r), rfl,
        hll.refresh (hlr.refresh hr ?_ ?_ i) ?_ ?_ li, ?_, ?_⟩ <;>
        (try simp only [height_refresh]) <;> omega

/-- The right side got too tall. -/
theorem Balanced.rotate_left (hle : r.height = l.height + 2) (i : α) :
    ∃ t, AvlTree.rotateLeft T (AvlTree.refresh T l i
        (if r.right.height < r.left.height then rotateRight T r else r)) = t ∧
      t.Balanced ∧ r.height ≤ t.height ∧ t.height ≤ r.height + 1 := by
  cases r with
  | nil => exact absurd hle (by simp)
  | node rl ri height data rr =>
    obtain ⟨hheight, h₁, h₂, hrl, hrr⟩ := hr
    rw [height_node] at hle ⊢
    by_cases hlt : rr.height < rl.height
    · rw [left, right, if_pos hlt]
      cases rl with
      | nil => exact absurd hlt (Nat.not_lt_zero _)
      | node rll rli rlheight rldata rlr =>
        obtain ⟨hrlheight, h₃, h₄, hrll, hrlr⟩ := hrl
        rw [height_node] at hlt h₁ h₂ hheight
        refine ⟨AvlTree.refresh T (AvlTree.refresh T l i rll) rli
          (AvlTree.refresh T rlr ri rr), rfl,
          (hl.refresh hrll ?_ ?_ i).refresh (hrlr.refresh hrr ?_ ?_ ri) ?_ ?_ rli, ?_, ?_⟩ <;>
          (try simp only [height_refresh]) <;> omega
    · rw [left, right, if_neg hlt]
      refine ⟨AvlTree.refresh T (AvlTree.refresh T l i rl) ri rr, rfl,
        (hl.refresh hrl ?_ ?_ i).refresh hrr ?_ ?_ ri, ?_, ?_⟩ <;>
        (try simp only [height_refresh]) <;> omega

/-- One round restores the balance after one side grew or shrank by one. -/
theorem Balanced.rebalance (hle : l.height ≤ r.height + 2)
    (hle' : r.height ≤ l.height + 2) (i : α) :
    (rebalance T l i r).Balanced ∧ max l.height r.height ≤ (rebalance T l i r).height ∧
      (rebalance T l i r).height ≤ 1 + max l.height r.height ∧
      (l.height ≤ r.height + 1 → r.height ≤ l.height + 1 →
        (rebalance T l i r).height = 1 + max l.height r.height) := by
  unfold AvlTree.rebalance
  by_cases htall : r.height + 1 < l.height
  · obtain ⟨t, heq, hbal, hlow, hhigh⟩ := hl.rotate_right (T := T) hr (by omega) i
    rw [if_pos htall, heq]
    exact ⟨hbal, by omega, by omega, fun h => by omega⟩
  rw [if_neg htall]
  by_cases htall' : l.height + 1 < r.height
  · obtain ⟨t, heq, hbal, hlow, hhigh⟩ := hl.rotate_left (T := T) hr (by omega) i
    rw [if_pos htall', heq]
    exact ⟨hbal, by omega, by omega, fun _ h => by omega⟩
  rw [if_neg htall']
  exact ⟨hl.refresh hr (by omega) (by omega) i, by simp, by simp, fun _ _ => rfl⟩

omit hl hr

theorem Balanced.insert (h : t.Balanced) (x : α) :
    (insert T x t).Balanced ∧ t.height ≤ (insert T x t).height ∧
      (insert T x t).height ≤ t.height + 1 := by
  induction t with
  | nil => exact ⟨⟨rfl, by simp, by simp, trivial, trivial⟩, Nat.zero_le _, le_rfl⟩
  | node l i height data r ihl ihr =>
    obtain ⟨hheight, h₁, h₂, hl, hr⟩ := h
    rw [AvlTree.insert, height_node]
    split
    · obtain ⟨hbal, hlow, hhigh⟩ := ihl hl
      obtain ⟨hbal', hlow', hhigh', hsame⟩ := hbal.rebalance (T := T) hr (by omega) (by omega) i
      exact ⟨hbal', by omega, by omega⟩
    · obtain ⟨hbal, hlow, hhigh⟩ := ihr hr
      obtain ⟨hbal', hlow', hhigh', hsame⟩ := hl.rebalance (T := T) hbal (by omega) (by omega) i
      exact ⟨hbal', by omega, by omega⟩

theorem Balanced.popFirst (hl : l.Balanced) (hr : r.Balanced) (hle : l.height ≤ r.height + 1)
    (hle' : r.height ≤ l.height + 1) (i : α) :
    (popFirst T l i r).2.Balanced ∧ max l.height r.height ≤ (popFirst T l i r).2.height ∧
      (popFirst T l i r).2.height ≤ 1 + max l.height r.height := by
  induction l generalizing i r with
  | nil => exact ⟨hr, by simp [popFirst], by simp [popFirst]⟩
  | node ll li height data lr ihl =>
    obtain ⟨hheight, h₁, h₂, hll, hlr⟩ := hl
    rw [height_node] at hle hle' ⊢
    obtain ⟨hbal, hlow, hhigh⟩ := ihl hll hlr h₁ h₂ li
    obtain ⟨hbal', hlow', hhigh', hsame⟩ := hbal.rebalance (T := T) hr (by omega) (by omega) i
    rw [popFirst]
    dsimp only
    exact ⟨hbal', by omega, by omega⟩

theorem Balanced.eraseRoot (hl : l.Balanced) (hr : r.Balanced) (hle : l.height ≤ r.height + 1)
    (hle' : r.height ≤ l.height + 1) :
    (eraseRoot T l r).Balanced ∧ max l.height r.height ≤ (eraseRoot T l r).height ∧
      (eraseRoot T l r).height ≤ 1 + max l.height r.height := by
  unfold AvlTree.eraseRoot
  split
  · exact ⟨hl, by simp, by simp⟩
  · split
    · exact ⟨hr, by simp, by simp⟩
    · obtain ⟨hheight, h₁, h₂, hrl, hrr⟩ := hr
      rename_i rl ri height data rr _ _
      rw [height_node] at hle hle' ⊢
      obtain ⟨hbal, hlow, hhigh⟩ := hrl.popFirst (T := T) hrr h₁ h₂ ri
      obtain ⟨hbal', hlow', hhigh', hsame⟩ :=
        hl.rebalance (T := T) hbal (by omega) (by omega) (AvlTree.popFirst T rl ri rr).1
      dsimp only
      exact ⟨hbal', by omega, by omega⟩

theorem Balanced.erase (h : t.Balanced) (p : α → Bool) :
    (erase T p t).Balanced ∧ (erase T p t).height ≤ t.height ∧
      t.height ≤ (erase T p t).height + 1 := by
  induction t with
  | nil => exact ⟨trivial, le_rfl, Nat.zero_le _⟩
  | node l i height data r ihl ihr =>
    obtain ⟨hheight, h₁, h₂, hl, hr⟩ := h
    rw [AvlTree.erase, height_node]
    split
    · obtain ⟨hbal, hlow, hhigh⟩ := hl.eraseRoot (T := T) hr h₁ h₂
      exact ⟨hbal, by omega, by omega⟩
    · split
      · obtain ⟨hbal, hlow, hhigh⟩ := ihl hl
        obtain ⟨hbal', hlow', hhigh', hsame⟩ := hbal.rebalance (T := T) hr (by omega) (by omega) i
        exact ⟨hbal', by omega, by omega⟩
      · obtain ⟨hbal, hlow, hhigh⟩ := ihr hr
        obtain ⟨hbal', hlow', hhigh', hsame⟩ := hl.rebalance (T := T) hbal (by omega) (by omega) i
        exact ⟨hbal', by omega, by omega⟩

/-- The smallest trees of a height are Fibonacci's. -/
theorem Balanced.fib_le (h : t.Balanced) : Nat.fib (t.height + 2) ≤ t.toList.length + 1 := by
  induction t with
  | nil => exact le_rfl
  | node l i height data r ihl ihr =>
    obtain ⟨rfl, hle, hle', hl, hr⟩ := h
    have hl := ihl hl
    have hr := ihr hr
    have hfib (n : Nat) : Nat.fib (n + 1 + 2) = Nat.fib (n + 1) + Nat.fib (n + 2) := Nat.fib_add_two
    rw [height_node, toList, List.length_append, List.length_cons, add_comm 1, hfib]
    rcases le_total l.height r.height with h | h
    · have hl' := Nat.fib_mono (show r.height + 1 ≤ l.height + 2 by omega)
      rw [max_eq_right h]
      omega
    · have hr' := Nat.fib_mono (show l.height + 1 ≤ r.height + 2 by omega)
      rw [max_eq_left h]
      omega

end AvlTree

end Erebus
