import Erebus.Utils.BPlusTree.Model

/-!
# The structural invariant of the B+ tree

* `search_split`: both searches cut a sorted key array into the keys that pass the comparison and
  the keys that do not.
* `Fence Q lo ks cs hi`: the separators `ks` and children `cs` of one node alternate: the child
  between two separators satisfies `Q` within them. `fence_window` is the one-hole context every
  rewrite of a node's children goes through: a split, a borrow and a merge replace a window of a
  fence by another fence with the same outer bounds.
* `WF P m h lo hi n`: `n` is a subtree of height `h`, all keys within `[lo, hi)`, whose top node
  holds between `m` and `MAX_KEYS` keys and every other node between `MIN_KEYS` and `MAX_KEYS`.
-/

namespace Erebus.BPlusTree

/-! ## The searches -/

section

variable {K : Type}

variable (p : K → Bool) (arr : List K) (hmono : arr.Pairwise (fun x y => p y = true → p x = true))
include p arr hmono

theorem searchLinear_split : ∃ S T, arr = S ++ T ∧ S.length = searchLinear p arr ∧
      (∀ x ∈ S, p x = true) ∧ ∀ x ∈ T, p x = false := by
  induction arr with
  | nil => exact ⟨[], [], rfl, rfl, by simp, by simp⟩
  | cons x xs ih =>
    obtain ⟨hx, hxs⟩ := List.pairwise_cons.1 hmono
    cases hp : p x with
    | true =>
      obtain ⟨S, T, rfl, hlen, hS, hT⟩ := ih hxs
      refine ⟨x :: S, T, rfl, by simp [searchLinear, hp, hlen], ?_, hT⟩
      intro y hy
      rcases List.mem_cons.1 hy with rfl | hy
      · exact hp
      · exact hS y hy
    | false =>
      refine ⟨[], x :: xs, rfl, by simp [searchLinear, hp], by simp, ?_⟩
      intro y hy
      rcases List.mem_cons.1 hy with rfl | hy
      · exact hp
      · by_contra hne
        have := hx y hy (by simpa using hne)
        rw [hp] at this
        contradiction

/-- The loop invariant of the halving search: everything before `first` passes, everything from
`first + count` on fails. -/
theorem searchBinary_spec (first count : Nat) (hbound : first + count ≤ arr.length)
    (hbefore : ∀ i (hi : i < arr.length), i < first → p arr[i] = true)
    (hafter : ∀ i (hi : i < arr.length), first + count ≤ i → p arr[i] = false) :
    searchBinary p arr first count ≤ arr.length ∧ ∀ i (hi : i < arr.length),
        (i < searchBinary p arr first count → p arr[i] = true) ∧
        (searchBinary p arr first count ≤ i → p arr[i] = false) := by
  induction count using Nat.strong_induction_on generalizing first with
  | _ count ih =>
    rw [searchBinary]
    by_cases hc : count = 0
    · subst hc
      simp only [if_true]
      exact ⟨by omega, fun i hi => ⟨hbefore i hi, fun hle => hafter i hi (by omega)⟩⟩
    · have hit : first + count / 2 < arr.length := by omega
      rw [if_neg hc, List.getElem?_eq_getElem hit]
      simp only
      have hpair := List.pairwise_iff_getElem.1 hmono
      split
      · rename_i hp
        refine ih (count - (count / 2 + 1)) (by omega) (first + count / 2 + 1) (by omega) ?_ ?_
        · intro i hi hlt
          rcases Nat.lt_or_ge i (first + count / 2) with hlt' | hge
          · exact hpair i (first + count / 2) hi hit hlt' hp
          · have : i = first + count / 2 := by omega
            subst this
            exact hp
        · intro i hi hle
          exact hafter i hi (by omega)
      · rename_i hp
        refine ih (count / 2) (by omega) first (by omega) hbefore ?_
        intro i hi hle
        by_contra hne
        have htrue : p arr[i] = true := by simpa using hne
        rcases Nat.lt_or_ge (first + count / 2) i with hlt' | hge
        · exact hp (hpair (first + count / 2) i hit hi hlt' htrue)
        · have : i = first + count / 2 := by omega
          subst this
          exact hp htrue

omit p arr hmono

/-- Both searches return the cut point of a monotone comparison. -/
theorem search_split (P : Nat) (p : K → Bool) (arr : List K)
    (hmono : arr.Pairwise (fun x y => p y = true → p x = true)) :
    ∃ S T, arr = S ++ T ∧ S.length = search P p arr ∧
      (∀ x ∈ S, p x = true) ∧ ∀ x ∈ T, p x = false := by
  unfold search
  split
  · exact searchLinear_split p arr hmono
  · obtain ⟨hle, hspec⟩ := searchBinary_spec p arr hmono 0 arr.length (by omega)
      (fun i hi hlt => by omega) (fun i hi hge => by omega)
    refine ⟨arr.take (searchBinary p arr 0 arr.length), arr.drop (searchBinary p arr 0 arr.length),
      (List.take_append_drop _ _).symm, by simpa using hle, ?_, ?_⟩
    · intro x hx
      obtain ⟨i, hi, rfl⟩ := List.mem_take_iff_getElem.1 hx
      exact (hspec i (by omega)).1 (by omega)
    · intro x hx
      obtain ⟨i, hi, rfl⟩ := List.mem_drop_iff_getElem.1 hx
      have hle' := (hspec _ hi).2 (by omega)
      simpa only [Nat.add_comm] using hle'

variable [LinearOrder K]

theorem searchLowerBound_split (P : Nat) {arr : List K} (harr : arr.Pairwise (· < ·)) (key : K) :
    ∃ S T, arr = S ++ T ∧ S.length = searchLowerBound P arr key ∧ (∀ x ∈ S, x < key) ∧
    ∀ x ∈ T, key ≤ x := by
  obtain ⟨S, T, h, hlen, hS, hT⟩ := search_split P (fun x => decide (x < key)) arr
    (harr.imp (fun {x y} hxy hy => by simp only [decide_eq_true_eq] at *; exact hxy.trans hy))
  exact ⟨S, T, h, hlen, fun x hx => by simpa using hS x hx, fun x hx => by simpa using hT x hx⟩

theorem searchUpperBound_split (P : Nat) {arr : List K} (harr : arr.Pairwise (· < ·)) (key : K) :
    ∃ S T, arr = S ++ T ∧ S.length = searchUpperBound P arr key ∧ (∀ x ∈ S, x ≤ key) ∧
    ∀ x ∈ T, key < x := by
  obtain ⟨S, T, h, hlen, hS, hT⟩ :=
    search_split P (fun x => !decide (key < x)) arr (harr.imp (fun {x y} hxy hy => by
      simp only [Bool.not_eq_true', decide_eq_false_iff_not, not_lt] at *
      exact hxy.le.trans hy))
  exact ⟨S, T, h, hlen, fun x hx => by simpa using hS x hx, fun x hx => by simpa using hT x hx⟩

end

/-! ## Contents of a node -/

namespace Node

variable {K V : Type}

/-- The key/value pairs below a node, leaf by leaf. -/
def entries : Node K V → List (K × V)
  | .leaf _ es => es
  | .internal _ _ cs => cs.flatMap entries

/-- The addresses of the leaves below a node, from left to right. -/
def leaves : Node K V → List Nat
  | .leaf a _ => [a]
  | .internal _ _ cs => cs.flatMap leaves

/-- The addresses of all nodes of a subtree. -/
def addrs : Node K V → List Nat
  | .leaf a _ => [a]
  | .internal a _ cs => a :: cs.flatMap addrs

variable (a : Nat)

@[simp] theorem entries_leaf (es : List (K × V)) : (leaf a es).entries = es := by
  rw [entries]

@[simp] theorem entries_internal (ks : List K) (cs : List (Node K V)) :
    (internal a ks cs).entries = cs.flatMap entries := by
  rw [entries]

@[simp] theorem leaves_leaf (es : List (K × V)) : (leaf a es).leaves = [a] := by
  rw [leaves]

@[simp] theorem leaves_internal (ks : List K) (cs : List (Node K V)) :
    (internal a ks cs).leaves = cs.flatMap leaves := by
  rw [leaves]

@[simp] theorem addrs_leaf (es : List (K × V)) : (leaf a es).addrs = [a] := by
  rw [addrs]

@[simp] theorem addrs_internal (ks : List K) (cs : List (Node K V)) :
    (internal a ks cs).addrs = a :: cs.flatMap addrs := by
  rw [addrs]

@[simp] theorem parts_leaf (es : List (K × V)) : (leaf a es).parts = [(a, es)] := by
  rw [parts]

@[simp] theorem parts_internal (ks : List K) (cs : List (Node K V)) :
    (internal a ks cs).parts = cs.flatMap parts := by
  rw [parts]

@[simp] theorem count_leaf (es : List (K × V)) : (leaf a es).count = es.length := rfl

@[simp] theorem count_internal (ks : List K) (cs : List (Node K V)) :
    (internal a ks cs).count = ks.length := rfl

end Node

/-! ## Bounds and fences -/

section

variable {K V : Type}

/-- Separators and children alternate between `lo` and `hi`, each child satisfying `Q` between its
two neighbours. -/
def Fence (Q : Option K → Option K → Node K V → Prop) :
    Option K → List K → List (Node K V) → Option K → Prop
  | lo, [], [c], hi => Q lo hi c
  | lo, k :: ks, c :: cs, hi => Q lo (some k) c ∧ Fence Q (some k) ks cs hi
  | _, _, _, _ => False

/-- The separators `S` and children `A` of a fence up to its last separator. -/
def Pickets (Q : Option K → Option K → Node K V → Prop) : Option K → List K → List (Node K V) → Prop
  | _, [], [] => True
  | lo, k :: S, c :: A => Q lo (some k) c ∧ Pickets Q (some k) S A
  | _, _, _ => False

variable {Q : Option K → Option K → Node K V → Prop} {lo hi : Option K} {k : K} {S T ks : List K}
  {A B cs : List (Node K V)}

theorem fence_length (h : Fence Q lo ks cs hi) : cs.length = ks.length + 1 := by
  induction ks generalizing lo cs with
  | nil =>
    match cs, h with
    | [_], _ => rfl
    | [], h => exact h.elim
    | _ :: _ :: _, h => exact h.elim
  | cons k ks ih =>
    cases cs with
    | nil => exact h.elim
    | cons c cs => simp [ih h.2]

@[simp] theorem fence_single (lo hi : Option K) (c : Node K V) : Fence Q lo [] [c] hi ↔ Q lo hi c :=
  Iff.rfl

@[simp] theorem fence_cons (lo hi : Option K) (k : K) (ks : List K) (c : Node K V)
    (cs : List (Node K V)) :
    Fence Q lo (k :: ks) (c :: cs) hi ↔ Q lo (some k) c ∧ Fence Q (some k) ks cs hi := by
  cases ks <;> cases cs <;> rfl

/-- Cut a fence behind its first `S.length` children. -/
theorem fence_append_left {X : List K} {Y : List (Node K V)} (hlen : A.length = S.length) :
    Fence Q lo (S ++ X) (A ++ Y) hi ↔ Pickets Q lo S A ∧ Fence Q (S.getLast?.or lo) X Y hi := by
  induction S generalizing lo A with
  | nil =>
    have : A = [] := List.length_eq_zero_iff.1 (by simpa using hlen)
    subst this
    simp [Pickets]
  | cons k S ih =>
    cases A with
    | nil => simp at hlen
    | cons c A =>
      have hlast : (k :: S).getLast?.or lo = S.getLast?.or (some k) := by
        rw [List.getLast?_cons]
        cases S.getLast? <;> rfl
      rw [List.cons_append, List.cons_append, fence_cons, ih (by simpa using hlen), hlast]
      exact and_assoc.symm

/-- Cut a fence at the separator `k`. -/
theorem fence_append_right {M : List K} {C : List (Node K V)} (hlen : C.length = M.length + 1) :
    Fence Q lo (M ++ k :: T) (C ++ B) hi ↔ Fence Q lo M C (some k) ∧ Fence Q (some k) T B hi := by
  induction M generalizing lo C with
  | nil =>
    match C, hlen with
    | [c], _ => simp
  | cons m M ih =>
    cases C with
    | nil => simp at hlen
    | cons c C =>
      rw [List.cons_append, List.cons_append, fence_cons, fence_cons, ih (by simpa using hlen)]
      exact and_assoc.symm

/-- **The one-hole context of a fence.**  A window `M`, `C` of consecutive separators and children
is itself a fence between the neighbouring separators, and any other fence between these may take
its place. -/
theorem fence_window {M : List K} {C : List (Node K V)} (hA : A.length = S.length)
    (hC : C.length = M.length + 1) (h : Fence Q lo (S ++ (M ++ T)) (A ++ (C ++ B)) hi) :
    Fence Q (S.getLast?.or lo) M C (T.head?.or hi) ∧
    ∀ M' C', Fence Q (S.getLast?.or lo) M' C' (T.head?.or hi) →
        Fence Q lo (S ++ (M' ++ T)) (A ++ (C' ++ B)) hi := by
  rw [fence_append_left hA] at h
  obtain ⟨hpre, h⟩ := h
  cases T with
  | nil =>
    have hB : B = [] := by
      have := fence_length h
      simp only [List.length_append, List.append_nil] at this
      exact List.length_eq_zero_iff.1 (by omega)
    subst hB
    simp only [List.append_nil, List.head?_nil, Option.none_or] at h ⊢
    exact ⟨h, fun M' C' h' => (fence_append_left hA).2 ⟨hpre, h'⟩⟩
  | cons k T =>
    simp only [List.head?_cons, Option.some_or]
    rw [fence_append_right hC] at h
    refine ⟨h.1, fun M' C' h' => (fence_append_left hA).2 ⟨hpre, ?_⟩⟩
    exact (fence_append_right (fence_length h')).2 ⟨h', h.2⟩

/-- The child a separator index leads to. -/
theorem fence_split_at (h : Fence Q lo (S ++ T) cs hi) :
    ∃ A c B, cs = A ++ c :: B ∧ A.length = S.length ∧ B.length = T.length := by
  have hlen := fence_length h
  simp only [List.length_append] at hlen
  have hlt : S.length < cs.length := by omega
  refine ⟨cs.take S.length, cs[S.length], cs.drop (S.length + 1),
    ?_, by simp; omega, by simp; omega⟩
  rw [← List.drop_eq_getElem_cons hlt, List.take_append_drop]

end

section Bounds

variable {K V : Type} [LinearOrder K] {Q : Option K → Option K → Node K V → Prop} {lo hi : Option K}
  {k : K} {S T ks : List K} {A B cs : List (Node K V)}

/-- `k` lies in `[lo, hi)`; a missing bound bounds nothing. -/
def InRange (lo hi : Option K) (k : K) : Prop :=
  (∀ l ∈ lo, l ≤ k) ∧ ∀ h ∈ hi, k < h

/-- The range `[lo, hi)` is not degenerate. -/
def Below (lo hi : Option K) : Prop :=
  ∀ l ∈ lo, ∀ h ∈ hi, l < h

/-- Sorted by key, without repetitions. -/
def Sorted (es : List (K × V)) : Prop :=
  es.Pairwise (fun x y => x.1 < y.1)

theorem below_some_right : Below lo (some k) ↔ ∀ l ∈ lo, l < k := by
  simp [Below]

theorem below_some_left : Below (some k) hi ↔ ∀ h ∈ hi, k < h := by
  simp [Below]

theorem inRange_some_right {x : K} : InRange lo (some k) x ↔ (∀ l ∈ lo, l ≤ x) ∧ x < k := by
  simp [InRange]

theorem inRange_some_left {x : K} : InRange (some k) hi x ↔ k ≤ x ∧ ∀ h ∈ hi, x < h := by
  simp [InRange]

theorem InRange.weaken_right {x : K} (h : InRange lo (some k) x) (hk : Below (some k) hi) :
    InRange lo hi x :=
  ⟨h.1, fun b hb => (h.2 k rfl).trans (hk k rfl b hb)⟩

theorem InRange.weaken_left {x : K} (h : InRange (some k) hi x) (hk : Below lo (some k)) :
    InRange lo hi x :=
  ⟨fun l hl => (hk l hl k rfl).le.trans (h.1 k rfl), h.2⟩

theorem Below.trans (h₁ : Below lo (some k)) (h₂ : Below (some k) hi) : Below lo hi :=
  fun l hl h hh => (h₁ l hl k rfl).trans (h₂ k rfl h hh)

theorem Sorted.map_fst {es : List (K × V)} (h : Sorted es) : (es.map Prod.fst).Pairwise (· < ·) :=
  List.pairwise_map.2 h

/-- What every child of a fence promises about its contents. -/
def Holds (lo hi : Option K) (c : Node K V) : Prop :=
  Below lo hi ∧ Sorted c.entries ∧ ∀ e ∈ c.entries, InRange lo hi e.1

/-- A fence of such children: the separators increase strictly inside the bounds, and the
concatenated contents are sorted inside them. -/
theorem fence_holds (hQ : ∀ a b c, Q a b c → Holds a b c) (h : Fence Q lo ks cs hi) :
    Below lo hi ∧ ks.Pairwise (· < ·) ∧ (∀ k ∈ ks, Below lo (some k) ∧ Below (some k) hi) ∧
      Sorted (cs.flatMap Node.entries) ∧ ∀ e ∈ cs.flatMap Node.entries, InRange lo hi e.1 := by
  induction ks generalizing lo cs with
  | nil =>
    match cs, h with
    | [c], h =>
      obtain ⟨hlt, hs, hr⟩ := hQ _ _ _ h
      exact ⟨hlt, List.Pairwise.nil, by simp, by simpa using hs, by simpa using hr⟩
  | cons k ks ih =>
    cases cs with
    | nil => exact h.elim
    | cons c cs =>
      obtain ⟨hc, hrest⟩ := (fence_cons lo hi k ks c cs).1 h
      obtain ⟨hlt, hs, hr⟩ := hQ _ _ _ hc
      obtain ⟨hlt', hks, hbetween, hs', hr'⟩ := ih hrest
      refine ⟨hlt.trans hlt', ?_, ?_, ?_, ?_⟩
      · exact List.pairwise_cons.2 ⟨fun k' hk' => (hbetween k' hk').1 k rfl k' rfl, hks⟩
      · intro k' hk'
        rcases List.mem_cons.1 hk' with rfl | hk'
        · exact ⟨hlt, hlt'⟩
        · exact ⟨hlt.trans (hbetween k' hk').1, (hbetween k' hk').2⟩
      · simp only [List.flatMap_cons]
        refine List.pairwise_append.2 ⟨hs, hs', fun x hx y hy => ?_⟩
        exact ((hr x hx).2 k rfl).trans_le ((hr' y hy).1 k rfl)
      · intro e he
        simp only [List.flatMap_cons, List.mem_append] at he
        rcases he with he | he
        · exact (hr e he).weaken_right hlt'
        · exact (hr' e he).weaken_left hlt

section

variable (hQ : ∀ a b c, Q a b c → Holds a b c) {c : Node K V}
  (h : Fence Q lo (S ++ T) (A ++ c :: B) hi) (hA : A.length = S.length)
include hQ h hA

/-- Everything left of a child lies below one of the separators left of it. -/
theorem fence_before : ∀ e ∈ A.flatMap Node.entries, ∃ k ∈ S, e.1 < k := by
  intro e he
  rcases List.eq_nil_or_concat S with rfl | ⟨S', s, rfl⟩
  · have hnil : A = [] := List.length_eq_zero_iff.1 (by simpa using hA)
    subst hnil
    simp at he
  · have h' : Fence Q lo (S' ++ s :: T) (A ++ c :: B) hi := by simpa using h
    have hfst := ((fence_append_right (by simpa using hA)).1 h').1
    have hmem := (fence_holds hQ hfst).2.2.2.2 e he
    exact ⟨s, by simp, hmem.2 s rfl⟩

/-- Everything right of a child lies above one of the separators right of it. -/
theorem fence_after (hB : B.length = T.length) :
    ∀ e ∈ B.flatMap Node.entries, ∃ k ∈ T, k ≤ e.1 := by
  intro e he
  cases T with
  | nil =>
    have hnil : B = [] := List.length_eq_zero_iff.1 (by simpa using hB)
    subst hnil
    simp at he
  | cons t T =>
    have h' : Fence Q lo (S ++ t :: T) ((A ++ [c]) ++ B) hi := by simpa using h
    have hsnd := ((fence_append_right (by simpa using hA)).1 h').2
    have hmem := (fence_holds hQ hsnd).2.2.2.2 e he
    exact ⟨t, by simp, hmem.1 t rfl⟩

end

/-- **Routing.**  `search_upper_bound` leads a key inside a fence to the child whose bounds contain
it; that child may be replaced by any fence within the same bounds, and no other child holds the
key. -/
theorem fence_route (hQ : ∀ a b c, Q a b c → Holds a b c) (h : Fence Q lo ks cs hi) (P : Nat)
    {key : K} (hkey : InRange lo hi key) :
    ∃ (S T : List K) (A : List (Node K V)) (c : Node K V) (B : List (Node K V)),
      ks = S ++ T ∧ cs = A ++ c :: B ∧ S.length = searchUpperBound P ks key ∧
      A.length = S.length ∧ B.length = T.length ∧
      InRange (S.getLast?.or lo) (T.head?.or hi) key ∧ Q (S.getLast?.or lo) (T.head?.or hi) c ∧
      (∀ M' C', Fence Q (S.getLast?.or lo) M' C' (T.head?.or hi) →
        Fence Q lo (S ++ (M' ++ T)) (A ++ (C' ++ B)) hi) ∧
      (∀ e ∈ A.flatMap Node.entries, e.1 < key) ∧ ∀ e ∈ B.flatMap Node.entries, key < e.1 := by
  obtain ⟨-, hks, -, hsorted, -⟩ := fence_holds hQ h
  obtain ⟨S, T, hST, hlen, hS, hT⟩ := searchUpperBound_split P hks key
  subst hST
  obtain ⟨A, c, B, hcs, hA, hB⟩ := fence_split_at h
  subst hcs
  have hwin :=
    fence_window (M := []) (C := [c]) (S := S) (T := T) (A := A) (B := B) hA rfl (by simpa using h)
  have hrange : InRange (S.getLast?.or lo) (T.head?.or hi) key := by
    constructor
    · intro l hl
      rcases List.eq_nil_or_concat S with rfl | ⟨S', s, rfl⟩
      · exact hkey.1 l (by simpa using hl)
      · have : s = l := by simpa using hl
        exact hS l (by simp [this])
    · intro b hb
      cases T with
      | nil => exact hkey.2 b (by simpa using hb)
      | cons t T' =>
        have : t = b := by simpa using hb
        exact hT b (by simp [this])
  refine ⟨S, T, A, c, B, rfl, rfl, hlen, hA, hB, hrange, hwin.1, hwin.2, fun e he => ?_,
    fun e he => ?_⟩
  · obtain ⟨k, hk, hlt⟩ := fence_before hQ h hA e he
    exact hlt.trans_le (hS k hk)
  · obtain ⟨k, hk, hle⟩ := fence_after hQ h hA hB e he
    exact (hT k hk).trans_le hle

end Bounds

/-! ## Well formed subtrees -/

section

variable {K V : Type} [LinearOrder K] {P m h : Nat} {lo hi : Option K} {n : Node K V}

/-- A subtree of height `h` with all keys in `[lo, hi)`; its top node holds at least `m` keys. -/
def WF (P : Nat) : Nat → Nat → Option K → Option K → Node K V → Prop
  | m, 0, lo, hi, .leaf _ es =>
    Below lo hi ∧ Sorted es ∧ (∀ e ∈ es, InRange lo hi e.1) ∧ m ≤ es.length ∧ es.length ≤ maxKeys P
  | m, h + 1, lo, hi, .internal _ ks cs =>
    m ≤ ks.length ∧ ks.length ≤ maxKeys P ∧ Fence (WF P (minKeys P) h) lo ks cs hi
  | _, _, _, _, _ => False

theorem WF.eq_leaf (hw : WF P m 0 lo hi n) : ∃ a es, n = .leaf a es := by
  cases n with
  | leaf a es => exact ⟨a, es, rfl⟩
  | internal a ks cs => exact hw.elim

theorem WF.eq_internal (hw : WF P m (h + 1) lo hi n) : ∃ a ks cs, n = .internal a ks cs := by
  cases n with
  | leaf a es => exact hw.elim
  | internal a ks cs => exact ⟨a, ks, cs, rfl⟩

theorem WF.holds (hw : WF P m h lo hi n) : Holds lo hi n := by
  induction h generalizing m lo hi n with
  | zero =>
    obtain ⟨a, es, rfl⟩ := hw.eq_leaf
    exact ⟨hw.1, by simpa using hw.2.1, by simpa using hw.2.2.1⟩
  | succ h ih =>
    obtain ⟨a, ks, cs, rfl⟩ := hw.eq_internal
    obtain ⟨hlt, -, -, hs, hr⟩ := fence_holds (fun _ _ _ hc => ih hc) hw.2.2
    exact ⟨hlt, by simpa using hs, by simpa using hr⟩

theorem WF.count_le (hw : WF P m h lo hi n) : m ≤ n.count ∧ n.count ≤ maxKeys P := by
  match h, n, hw with
  | 0, .leaf a es, hw => exact ⟨hw.2.2.2.1, hw.2.2.2.2⟩
  | h + 1, .internal a ks cs, hw => exact ⟨hw.1, hw.2.1⟩

/-- Only the count of the top node decides which `m` it satisfies. -/
theorem WF.mono {m' : Nat} (hw : WF P m h lo hi n) (hm : m' ≤ n.count) : WF P m' h lo hi n := by
  match h, n, hw with
  | 0, .leaf a es, hw => exact ⟨hw.1, hw.2.1, hw.2.2.1, hm, hw.2.2.2.2⟩
  | h + 1, .internal a ks cs, hw => exact ⟨hm, hw.2.1, hw.2.2⟩

end

end Erebus.BPlusTree
