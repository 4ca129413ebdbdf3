import Mathlib.Tactic

/-!
# Maps as sorted lists

The contents of an ordered index: its entries in the order of their keys.

* `insert`, `erase`, `get`, `floor`: what the operations of such an index do to the contents.
* `Sorted`: the keys go up.
* `floor_append`, `insert_append`, `erase_append`: an operation at a key works between the smaller
  and the bigger keys.
-/

namespace KeyMap

variable {K V : Type*} [LinearOrder K]

/-- Add an entry, in the place of the one with the same key. -/
def insert (key : K) (val : V) (t : List (K × V)) : List (K × V) :=
  t.filter (·.1 < key) ++ (key, val) :: t.filter (key < ·.1)

/-- Remove the entry with the key. -/
def erase (key : K) (t : List (K × V)) : List (K × V) := t.filter (·.1 ≠ key)

/-- The value at the key. -/
def get (key : K) (t : List (K × V)) : Option V := (t.find? (·.1 = key)).map Prod.snd

/-- The entry with the biggest key that is not above the given one. -/
def floor (key : K) (t : List (K × V)) : Option (K × V) := (t.filter (·.1 ≤ key)).getLast?

/-- The keys go up. -/
def Sorted (t : List (K × V)) : Prop := t.Pairwise (·.1 < ·.1)

section

variable {key : K} {val : V} {a b : List (K × V)}

theorem filter_lt_append (ha : ∀ e ∈ a, e.1 < key) (hb : ∀ e ∈ b, key ≤ e.1) :
    (a ++ b).filter (·.1 < key) = a := by
  rw [List.filter_append, List.filter_eq_self.2 (by simpa using ha),
    List.filter_eq_nil_iff.2 (by simpa using hb), List.append_nil]

theorem filter_gt_append (ha : ∀ e ∈ a, e.1 ≤ key) (hb : ∀ e ∈ b, key < e.1) :
    (a ++ b).filter (key < ·.1) = b := by
  rw [List.filter_append, List.filter_eq_nil_iff.2 (by simpa using ha),
    List.filter_eq_self.2 (by simpa using hb), List.nil_append]

/-- A new key goes between the smaller and the bigger ones. -/
theorem insert_append (ha : ∀ e ∈ a, e.1 < key) (hb : ∀ e ∈ b, key < e.1) :
    insert key val (a ++ b) = a ++ (key, val) :: b := by
  rw [insert, filter_lt_append ha fun e he => (hb e he).le,
    filter_gt_append (fun e he => (ha e he).le) hb]

theorem erase_append (ha : ∀ e ∈ a, e.1 ≠ key) (hb : ∀ e ∈ b, e.1 ≠ key) :
    erase key (a ++ (key, val) :: b) = a ++ b := by
  rw [erase, List.filter_append, List.filter_eq_self.2 (by simpa using ha),
    List.filter_cons_of_neg (by simp), List.filter_eq_self.2 (by simpa using hb)]

/-- Two keys do not get in each other's way. -/
theorem erase_insert_of_ne {key' : K} (hne : key ≠ key') (val : V) (t : List (K × V)) :
    erase key' (insert key val t) = insert key val (erase key' t) := by
  have hcomm : ∀ p : K × V → Bool, (t.filter p).filter (·.1 ≠ key') =
      (t.filter (·.1 ≠ key')).filter p := by
    intro p
    simp only [List.filter_filter]
    exact List.filter_congr fun e _ => Bool.and_comm ..
  rw [insert, insert, erase, List.filter_append, List.filter_cons_of_pos (by simpa using hne),
    hcomm, hcomm]
  rfl

/-- The last of the keys that are not above is the floor. -/
theorem floor_append {e : K × V} (ha : ∀ x ∈ a, x.1 ≤ key) (he : e.1 ≤ key)
    (hb : ∀ x ∈ b, key < x.1) : floor key (a ++ e :: b) = some e := by
  have hfilter : (a ++ e :: b).filter (·.1 ≤ key) = a ++ [e] := by
    rw [List.filter_append, List.filter_eq_self.2 (by simpa using ha),
      List.filter_cons_of_pos (by simpa using he), List.filter_eq_nil_iff.2 (by simpa using hb)]
  rw [floor, hfilter, List.getLast?_append_of_ne_nil _ (List.cons_ne_nil _ _)]
  rfl

theorem floor_none (hb : ∀ x ∈ b, key < x.1) : floor key b = none := by
  rw [floor, List.filter_eq_nil_iff.2 (by simpa using hb)]
  rfl

end

/-- A sorted list splits at every key. -/
theorem Sorted.split {t : List (K × V)} (h : Sorted t) (key : K) :
    ∃ a b, t = a ++ b ∧ (∀ e ∈ a, e.1 ≤ key) ∧ ∀ e ∈ b, key < e.1 := by
  induction t with
  | nil => exact ⟨[], [], rfl, nofun, nofun⟩
  | cons x t ih =>
    obtain ⟨hx, ht⟩ := List.pairwise_cons.1 h
    rcases le_or_gt x.1 key with hle | hgt
    · obtain ⟨a, b, rfl, ha, hb⟩ := ih ht
      exact ⟨x :: a, b, rfl, List.forall_mem_cons.2 ⟨hle, ha⟩, hb⟩
    · exact ⟨[], x :: t, rfl, nofun, List.forall_mem_cons.2 ⟨hgt, fun e he => hgt.trans (hx e he)⟩⟩

/-- **The floor**: nothing if all keys are above, or the last entry of those that are not. -/
theorem Sorted.floor_cases {t : List (K × V)} (h : Sorted t) (key : K) :
    (floor key t = none ∧ ∀ e ∈ t, key < e.1) ∨
      ∃ a e b, t = a ++ e :: b ∧ floor key t = some e ∧ (∀ x ∈ a, x.1 < e.1) ∧ e.1 ≤ key ∧
      ∀ x ∈ b, key < x.1 := by
  obtain ⟨a, b, rfl, ha, hb⟩ := h.split key
  rcases List.eq_nil_or_concat a with rfl | ⟨a, e, rfl⟩
  · exact Or.inl ⟨floor_none hb, hb⟩
  · right
    rw [List.concat_eq_append] at ha h ⊢
    rw [List.append_assoc] at h ⊢
    have he := ha e (by simp)
    refine ⟨a, e, b, rfl, floor_append (fun x hx => ha x (by simp [hx])) he hb,
      fun x hx => ?_, he, hb⟩
    exact (List.pairwise_append.1 h).2.2 x hx e (by simp)

theorem Sorted.get_append {t a b : List (K × V)} {e : K × V} (h : Sorted t) (ht : t = a ++ e :: b) :
    get e.1 t = some e.2 := by
  subst ht
  have ha : ∀ x ∈ a, ¬ x.1 = e.1 := fun x hx => ((List.pairwise_append.1 h).2.2 x hx e (by simp)).ne
  rw [get, List.find?_append, List.find?_eq_none.2 (by simpa using ha), Option.none_or,
    List.find?_cons_of_pos (by simp)]
  rfl

end KeyMap
