import Erebus.Utils.BPlusTree.Map

/-!
# Neighbours: `get_floor` and `range`

Both leave the leaf their descent ends at: `get_floor` by one step to the left, `range` by steps to
the right.

* `Inv.leafAt`: following a leaf pointer leads to a leaf of the tree.
* `getFloor_eq`: `get_floor` finds the last entry that is not greater.
* `range_eq`: `range` calls back for the entries of an interval, in order, until one call returns
  `false`.
* `run_neighbours`: both, for every tree that calls can build, against the map it stands for.
-/

namespace Erebus.BPlusTree

open DList (Links Seg)

variable {K V σ : Type} [LinearOrder K] {P : Nat} {t : BPlusTree K V} {root : Node K V}

namespace Node

omit [LinearOrder K] in
theorem parts_leaves : ∀ n : Node K V, n.parts.map Prod.fst = n.leaves
  | .leaf a es => by simp
  | .internal a ks cs => by
    rw [parts_internal, leaves_internal, List.map_flatMap]
    exact List.flatMap_congr fun c hc => parts_leaves c

end Node

/-- Only the root may be an empty leaf. -/
theorem WF.parts_ne_nil {m h : Nat} {lo hi : Option K} {n : Node K V} (hP : 3 ≤ P) (hm : 1 ≤ m)
    (hw : WF P m h lo hi n) : ∀ p ∈ n.parts, p.2 ≠ [] := by
  induction h generalizing m lo hi n with
  | zero =>
    obtain ⟨a, es, rfl⟩ := hw.eq_leaf
    intro p hp
    rw [Node.parts_leaf, List.mem_singleton] at hp
    rw [hp]
    exact List.ne_nil_of_length_pos (hm.trans hw.2.2.2.1)
  | succ h ih =>
    obtain ⟨a, ks, cs, rfl⟩ := hw.eq_internal
    intro p hp
    rw [Node.parts_internal, List.mem_flatMap] at hp
    obtain ⟨c, hc, hp⟩ := hp
    obtain ⟨lo', hi', hwc, -⟩ := WF.child hw.2.2 hc
    exact ih (by unfold minKeys maxKeys; omega) hwc p hp

/-- A leaf pointer leads to the leaf. -/
theorem Inv.leafAt (ht : Inv P t) (hroot : t.root = some root) {p : Nat × List (K × V)}
    (hp : p ∈ root.parts) : root.parts.lookup p.1 = some p.2 := by
  have hnodup : (root.parts.map Prod.fst).Nodup := by
    have hall := ht.nodup
    rw [addrs, hroot] at hall
    rw [Node.parts_leaves]
    exact hall.sublist root.leaves_sublist_addrs
  exact lookup_of_mem hnodup hp
where
  lookup_of_mem : ∀ {l : List (Nat × List (K × V))}, (l.map Prod.fst).Nodup → p ∈ l →
    l.lookup p.1 = some p.2 := by
    intro l hnodup hp
    induction l with
    | nil => cases hp
    | cons q l ih =>
      rw [List.map_cons, List.nodup_cons] at hnodup
      rw [List.lookup_cons]
      rcases List.mem_cons.1 hp with rfl | hp
      · rw [beq_self_eq_true]
      · have hne : (p.1 == q.1) = false := by
          rw [beq_eq_false_iff_ne]
          exact fun heq => hnodup.1 (heq ▸ List.mem_map_of_mem hp)
        rw [hne]
        exact ih hnodup.2 hp

/-- **`get_floor`** finds the last entry whose key is not greater. -/
theorem getFloor_eq (hP : 3 ≤ P) (ht : Inv P t) (key : K) :
    t.getFloor P key = some ((t.entries.filter fun e => decide (e.1 ≤ key)).getLast?) := by
  cases hroot : t.root with
  | none => simp [getFloor, entries, hroot]
  | some root =>
    obtain ⟨h, hw⟩ := ht.wf root hroot
    obtain ⟨a, es, A, B, hfind, hs, hparts, hleft, hright⟩ := findLeaf_ok hw key
    obtain ⟨S', T', hcat, hlen, hS, hT⟩ := searchUpperBound_split P hs.map_fst key
    obtain ⟨S, T, rfl, rfl, rfl⟩ := List.map_eq_append_iff.1 hcat
    -- what is not greater: everything left of the leaf, and its entries up to the bound
    have hfloor : t.entries.filter (fun e => decide (e.1 ≤ key)) = A.flatMap Prod.snd ++ S := by
      rw [entries, hroot, Option.elim_some, ← Node.flatMap_parts.parts_entries root, hparts,
        List.flatMap_append,
        List.flatMap_cons, List.filter_append, List.filter_append, List.filter_append,
        List.filter_eq_self.2 fun e he => decide_eq_true (hleft e he).le,
        List.filter_eq_self.2 fun e he => decide_eq_true (hS e.1 (List.mem_map_of_mem he)),
        List.filter_eq_nil_iff.2 fun e he => by simpa using hT e.1 (List.mem_map_of_mem he),
        List.filter_eq_nil_iff.2 fun e he => by simpa using hright e he, List.append_nil,
        List.append_nil]
    rw [hfloor]
    simp only [getFloor, hroot, hfind, ← hlen, List.length_map]
    rcases List.eq_nil_or_concat S with rfl | ⟨S, e, rfl⟩
    · rw [if_neg (by simp), List.append_nil]
      -- one leaf to the left, if there is one
      have hseg := ht.chain root hroot
      rw [← Node.parts_leaves, hparts, List.map_append, DList.seg_append, List.map_cons,
        DList.seg_cons] at hseg
      rcases List.eq_nil_or_concat A with rfl | ⟨A, p, rfl⟩
      · rw [show t.links.prev a = none by simpa using hseg.2.1]
        rfl
      · have hp : p ∈ root.parts := by simp [hparts]
        rw [show t.links.prev a = some p.1 by simpa using hseg.2.1]
        simp only [ht.leafAt hroot hp, Option.bind_some, ← List.getLast?_eq_getElem?]
        rw [List.concat_eq_append, List.flatMap_append, List.flatMap_singleton,
          List.getLast?_append_of_ne_nil _ (hw.parts_ne_nil hP le_rfl p hp)]
        rw [List.getLast?_eq_some_getLast (hw.parts_ne_nil hP le_rfl p hp)]
        rfl
    · rw [if_pos (by simp)]
      simp

/-- Calls for one entry after the other until one returns `false`: what the callback remembers then,
and whether no call did. -/
def callUntil (callback : σ → K → V → σ × Bool) : σ → List (K × V) → σ × Bool
  | s, [] => (s, true)
  | s, (k, v) :: es =>
    match callback s k v with
    | (s, false) => (s, false)
    | (s, true) => callUntil callback s es

section Range

variable {callback : σ → K → V → σ × Bool} {startKey endKey : K}

omit [LinearOrder K] in
theorem callUntil_append (s : σ) (xs ys : List (K × V)) : callUntil callback s (xs ++ ys) =
      if (callUntil callback s xs).2 then callUntil callback (callUntil callback s xs).1 ys
      else callUntil callback s xs := by
  fun_induction callUntil callback s xs with
  | case1 => simp
  | case2 s k v es s' hcall => simp [callUntil, hcall]
  | case3 s k v es s' hcall ih => simpa [callUntil, hcall] using ih

theorem rangeLeaf_eq (s : σ) {es : List (K × V)} (hs : Sorted es) : rangeLeaf endKey callback s es =
      ((callUntil callback s (es.filter fun e => decide (e.1 ≤ endKey))).1,
        (callUntil callback s (es.filter fun e => decide (e.1 ≤ endKey))).2 && es.all fun e =>
          decide (e.1 ≤ endKey)) := by
  fun_induction rangeLeaf endKey callback s es with
  | case1 => rfl
  | case2 s k v es hlt =>
    have hnone : ((k, v) :: es).filter (fun e => decide (e.1 ≤ endKey)) = [] := by
      rw [List.filter_eq_nil_iff]
      intro e he
      rw [decide_eq_true_eq, not_le]
      rcases List.mem_cons.1 he with rfl | he
      · exact hlt
      · exact hlt.trans ((List.pairwise_cons.1 hs).1 e he)
    rw [hnone]
    simp [callUntil, hlt]
  | case3 s k v es hle s' hcall => simp [callUntil, not_lt.1 hle, hcall]
  | case4 s k v es hle s' hcall ih =>
    rw [ih (List.pairwise_cons.1 hs).2]
    simp [callUntil, not_lt.1 hle, hcall]

/-- From a leaf on, by induction on the leaves that are still ahead. -/
theorem rangeFrom_eq {leaf : Nat → Option (List (K × V))} {links : Links Nat} {p : Option Nat}
    {idx fuel : Nat}
    {R : List (Nat × List (K × V))} (s : σ) (hs : Sorted ((R.flatMap Prod.snd).drop idx))
    (hidx : ∀ q ∈ R.head?, idx ≤ q.2.length) (hleaf : ∀ q ∈ R, leaf q.1 = some q.2)
    (hseg : Seg links p (R.map Prod.fst) none) (hfuel : R.length ≤ fuel) :
    rangeFrom endKey callback leaf links.next fuel (R.map Prod.fst).head? idx s =
      some (callUntil callback s
        (((R.flatMap Prod.snd).drop idx).filter fun e => decide (e.1 ≤ endKey))).1 := by
  induction R generalizing p idx fuel s with
  | nil => cases fuel <;> simp [rangeFrom, callUntil]
  | cons q R ih =>
    obtain ⟨fuel, rfl⟩ : ∃ n, fuel = n + 1 :=
      Nat.exists_eq_add_one.2 (Nat.lt_of_lt_of_le (by simp) hfuel)
    rw [List.flatMap_cons, List.drop_append_of_le_length (hidx q rfl)] at hs ⊢
    obtain ⟨hs₁, hs₂, hs₁₂⟩ := List.pairwise_append.1 hs
    have hnext : links.next q.1 = (R.map Prod.fst).head? := by simpa using hseg.2.1
    rw [List.filter_append, callUntil_append, List.map_cons, List.head?_cons, rangeFrom,
      hleaf q List.mem_cons_self]
    simp only [rangeLeaf_eq s hs₁]
    cases hgo : (callUntil callback s ((q.2.drop idx).filter fun e => decide (e.1 ≤ endKey))).2 with
    | false => rfl
    | true =>
      simp only [Bool.true_and, if_true]
      cases hall : (q.2.drop idx).all fun e => decide (e.1 ≤ endKey) with
      | false =>
        -- the leaf has a key beyond the end, and so has every later one
        obtain ⟨e, he, hlt⟩ : ∃ e ∈ q.2.drop idx, endKey < e.1 := by simpa using hall
        have hnone : (R.flatMap Prod.snd).filter (fun e => decide (e.1 ≤ endKey)) = [] :=
          List.filter_eq_nil_iff.2 fun e' he' => by simpa using hlt.trans (hs₁₂ e he e' he')
        rw [hnone]
        rfl
      | true =>
        have hrest : Sorted ((R.flatMap Prod.snd).drop 0) := hs₂
        simp only [hnext]
        rw [ih _ hrest (by simp) (fun q' hq => hleaf q' (List.mem_cons_of_mem _ hq)) hseg.2.2
          (by simpa using hfuel)]
        rfl

/-- **`range`** calls back for the entries of the interval. -/
theorem range_eq (ht : Inv P t) (s : σ) {fuel : Nat}
    (hfuel : (t.root.elim [] Node.leaves).length ≤ fuel) :
    t.range endKey callback P fuel startKey s = some (callUntil callback s
        (t.entries.filter fun e => decide (startKey ≤ e.1) && decide (e.1 ≤ endKey))).1 := by
  cases hroot : t.root with
  | none => simp [range, entries, hroot, callUntil]
  | some root =>
    obtain ⟨h, hw⟩ := ht.wf root hroot
    obtain ⟨a, es, A, B, hfind, hs, hparts, hleft, hright⟩ :=
      descend_ok hw fun ks hks => searchLowerBound_split P hks startKey
    obtain ⟨S, T, rfl, hlen, hS, hT⟩ := leaf_split P hs startKey
    have hentries : t.entries = A.flatMap Prod.snd ++ (S ++ (T ++ B.flatMap Prod.snd)) := by
      rw [entries, hroot, Option.elim_some, ← Node.flatMap_parts.parts_entries root, hparts,
        List.flatMap_append, List.flatMap_cons, List.append_assoc]
    have hsorted := ht.sorted
    rw [hentries] at hsorted
    have hrest : Sorted (T ++ B.flatMap Prod.snd) :=
      (List.pairwise_append.1 (List.pairwise_append.1 hsorted).2.1).2.1
    have hbefore : ∀ e ∈ A.flatMap Prod.snd ++ S, e.1 < startKey := by
      intro e he
      rcases List.mem_append.1 he with he | he
      · obtain ⟨k, hk, hlt⟩ := hleft e he
        exact hlt.trans hk
      · exact hS e he
    have hfrom : ∀ e ∈ T ++ B.flatMap Prod.snd, startKey ≤ e.1 := by
      intro e he
      rcases List.mem_append.1 he with he | he
      · exact hT e he
      · obtain ⟨k, hk, hle⟩ := hright e he
        exact hk.trans hle
    have hfilter : t.entries.filter (fun e => decide (startKey ≤ e.1) && decide (e.1 ≤ endKey)) =
        (T ++ B.flatMap Prod.snd).filter fun e => decide (e.1 ≤ endKey) := by
      rw [hentries, ← List.append_assoc, List.filter_append,
        List.filter_eq_nil_iff.2 fun e he => by simp [hbefore e he], List.nil_append]
      exact List.filter_congr fun e he => by simp [hfrom e he]
    have hseg := ht.chain root hroot
    rw [← Node.parts_leaves, hparts, List.map_append, DList.seg_append] at hseg
    rw [hroot, Option.elim_some, ← Node.parts_leaves, hparts, List.length_map,
      List.length_append] at hfuel
    have hahead : (((a, S ++ T) :: B).flatMap Prod.snd).drop S.length = T ++
        B.flatMap Prod.snd := by simp
    simp only [range, hroot, hfind, hfilter, ← hlen, ← hahead]
    rw [← hahead] at hrest
    exact rangeFrom_eq s hrest (by simp)
      (fun q hq => ht.leafAt hroot (by rw [hparts]; exact List.mem_append_right _ hq))
      hseg.2 (by omega)

end Range

/-- The last entry is the one with the greatest key. -/
theorem Sorted.getLast?_eq_some_iff {es : List (K × V)} (hs : Sorted es) (e : K × V) :
    es.getLast? = some e ↔ e ∈ es ∧ ∀ e' ∈ es, e'.1 ≤ e.1 := by
  rcases List.eq_nil_or_concat es with rfl | ⟨es, last, rfl⟩
  · simp
  · rw [List.concat_eq_append] at hs ⊢
    have hlast : ∀ x ∈ es, x.1 < last.1 :=
      fun x hx => (List.pairwise_append.1 hs).2.2 x hx last List.mem_cons_self
    simp only [List.getLast?_append, List.getLast?_singleton, Option.some_or, Option.some.injEq,
      List.mem_append, List.mem_singleton]
    constructor
    · rintro rfl
      exact ⟨Or.inr rfl, fun x hx => hx.elim (fun hx => (hlast x hx).le) fun hx => hx ▸ le_rfl⟩
    · rintro ⟨he | rfl, hmax⟩
      · exact absurd (hmax last (Or.inr rfl)) (not_le.2 (hlast e he))
      · rfl

/-- **Neighbours in every tree.**  After any calls, `get_floor` answers with the greatest key not
above the given one, and `range` calls back for the keys of an interval in order, until a call
returns `false`. -/
theorem run_neighbours (hP : 3 ≤ P) {m : K → Option V} (hrun : Run P t m) :
    (∀ key, ∃ r, t.getFloor P key = some r ∧
      (∀ k v, r = some (k, v) ↔ m k = some v ∧ k ≤ key ∧ ∀ k', (m k').isSome → k' ≤ key → k' ≤ k) ∧
      (r = none ↔ ∀ k ≤ key, m k = none)) ∧ ∀ startKey endKey, ∃ es : List (K × V), Sorted es ∧
        (∀ k v, (k, v) ∈ es ↔ m k = some v ∧ startKey ≤ k ∧ k ≤ endKey) ∧
        ∃ enough, ∀ (σ : Type) (callback : σ → K → V → σ × Bool) (s : σ) (fuel : Nat),
        enough ≤ fuel →
          t.range endKey callback P fuel startKey s = some (callUntil callback s es).1 := by
  obtain ⟨ht, hm⟩ := run_inv hP hrun
  refine ⟨fun key => ⟨_, getFloor_eq hP ht key, fun k v => ?_, ?_⟩, fun startKey endKey => ?_⟩
  · rw [Sorted.getLast?_eq_some_iff (ht.sorted.filter _)]
    simp only [List.mem_filter, decide_eq_true_eq, Prod.forall, hm _ _, Option.isSome_iff_exists]
    grind
  · rw [List.getLast?_eq_none_iff, List.filter_eq_nil_iff]
    simp only [decide_eq_true_eq, Prod.forall, hm _ _]
    constructor
    · intro h k hk
      exact Option.eq_none_iff_forall_ne_some.2 fun v hv => h k v hv hk
    · intro h k v hv hk
      rw [h k hk] at hv
      cases hv
  · refine ⟨_, ht.sorted.filter fun e => decide (startKey ≤ e.1) && decide (e.1 ≤ endKey),
      fun k v => ?_, _, fun σ callback s fuel hfuel => range_eq ht s hfuel⟩
    rw [List.mem_filter, Bool.and_eq_true, decide_eq_true_eq, decide_eq_true_eq, hm]

/-- The greatest key up to 3 is in the leaf before the one that 3 belongs to. -/
theorem run_neighbours_gap : ∃ (t : BPlusTree Nat Nat) (m : Nat → Option Nat), Run 3 t m ∧
    t.addrs = [10, 0, 12, 11] ∧ m 3 = none ∧ t.getFloor 3 3 = some (some (2, 20)) := by
  obtain ⟨L, hrun⟩ := run_gap
  obtain ⟨r, hr, hfloor, -⟩ := (run_neighbours (le_refl 3) hrun).1 3
  refine ⟨_, _, hrun, by simp [addrs], rfl, ?_⟩
  rw [hr, (hfloor 2 20).2 ⟨rfl, by decide, fun k hk hle => ?_⟩]
  by_contra hgt
  obtain rfl : k = 3 := by omega
  cases hk

end Erebus.BPlusTree
