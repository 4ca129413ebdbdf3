import Erebus.Utils.BPlusTree.Insert

/-!
# `erase_recursive` keeps the tree well formed

Erasing a key may leave the top node of a subtree one key short (`WF P (m - 1)`), and its parent
then repairs it with a neighbour. Borrowing and merging are both rewrites of a window of two
children: `PairOk` says what such a rewrite delivers, and `PairOk.rebuild` puts its result back into
the parent.

* `borrowFromLeft_ok`, `borrowFromRight_ok`, `mergeChildren_ok`: the three repairs.
* `rebalance_ok`: the choice between them always finds one that applies.
* `eraseRecursive_ok`: the recursion: contents, occupancy, leaf chain and addresses.
-/

namespace Erebus.BPlusTree

open List (length_cons flatMap_cons flatMap_append length_append append_assoc eq_nil_or_concat
  mem_append cons_append length_nil)
open DList (Links Seg)

/-! ## Effects on leaves and addresses -/

/-- The leaves of a subtree before and after an erase: some may be gone, and the links are still
chained in both directions wherever the subtree stands. -/
def ChainErase (l : List Nat) (L : Links Nat) (l' : List Nat) (L' : Links Nat) : Prop :=
  l'.Sublist l ∧ ∀ X Y, (X ++ l ++ Y).Nodup → Seg L none (X ++ l ++ Y) none →
    Seg L' none (X ++ l' ++ Y) none

theorem ChainErase.refl (l : List Nat) (L : Links Nat) : ChainErase l L l L :=
  ⟨.refl l, fun _ _ _ hseg => hseg⟩

theorem ChainErase.trans {l₁ l₂ l₃ : List Nat} {L₁ L₂ L₃ : Links Nat}
    (h₁ : ChainErase l₁ L₁ l₂ L₂) (h₂ : ChainErase l₂ L₂ l₃ L₃) : ChainErase l₁ L₁ l₃ L₃ := by
  refine ⟨h₂.1.trans h₁.1, fun X Y hnd hseg => ?_⟩
  have hsub : (X ++ l₂ ++ Y).Sublist (X ++ l₁ ++ Y) :=
    ((List.Sublist.refl X).append h₁.1).append (List.Sublist.refl Y)
  exact h₂.2 X Y (hnd.sublist hsub) (h₁.2 X Y hnd hseg)

theorem ChainErase.context {l l' : List Nat} {L L' : Links Nat} (h : ChainErase l L l' L')
    (X Y : List Nat) : ChainErase (X ++ l ++ Y) L (X ++ l' ++ Y) L' := by
  refine ⟨((List.Sublist.refl X).append h.1).append (List.Sublist.refl Y), ?_⟩
  intro X' Y' hnd hseg
  have hmove : ∀ m : List Nat, X' ++ (X ++ m ++ Y) ++ Y' = (X' ++ X) ++ m ++ (Y ++ Y') := by
    intro m
    simp
  rw [hmove] at hnd hseg ⊢
  exact h.2 _ _ hnd hseg

/-- Merging two neighbouring leaves drops the right one from the chain. -/
theorem ChainErase.bypass (x y : Nat) (L : Links Nat) :
    ChainErase [x, y] L [x] (DList.bypass L x y) := by
  refine ⟨by simp, fun X Y hnd hseg => ?_⟩
  simp only [append_assoc, cons_append, List.nil_append] at hnd hseg ⊢
  exact DList.bypass_seg hseg hnd

section Erase

variable {K V : Type} [LinearOrder K] {P m h a addr : Nat} {lo hi : Option K} {s sep key : K}
  {S T : List K} {A B : List (Node K V)} {c c' x y : Node K V} {L L' : Links Nat}

theorem minKeys_pos (hP : 3 ≤ P) : 1 ≤ minKeys P := by
  unfold minKeys maxKeys
  omega

/-! ## The three repairs -/

/-- What a repair of the neighbours `x` and `y` delivers: separators `M` and children `C` to put in
their place. -/
structure PairOk (P h : Nat) (lo hi : Option K) (x y : Node K V) (L : Links Nat) (M : List K)
    (C : List (Node K V)) (L' : Links Nat) : Prop where
  fence : Fence (WF P (minKeys P) h) lo M C hi
  short : M.length ≤ 1
  entries : C.flatMap Node.entries = x.entries ++ y.entries
  chain : ChainErase (x.leaves ++ y.leaves) L (C.flatMap Node.leaves) L'
  addrs : (C.flatMap Node.addrs).Subperm (x.addrs ++ y.addrs)

/-- The contents of two neighbours, one after the other. -/
theorem leaf_join {m' b : Nat} {es fs : List (K × V)} (hl : WF P m 0 lo (some sep) (.leaf a es))
    (hr : WF P m' 0 (some sep) hi (.leaf b fs)) :
    Below lo hi ∧ Sorted (es ++ fs) ∧ ∀ x ∈ es ++ fs, InRange lo hi x.1 := by
  have hpair : Fence Holds lo [sep] [.leaf a es, .leaf b fs] hi := ⟨hl.holds, hr.holds⟩
  obtain ⟨hlt, -, -, hs, hr⟩ := fence_holds (fun _ _ _ hc => hc) hpair
  exact ⟨hlt, by simpa using hs, by simpa using hr⟩

theorem borrowFromLeft_ok (hP : 3 ≤ P) {left child : Node K V} (L : Links Nat)
    (hl : WF P (minKeys P) h lo (some sep) left) (hrich : minKeys P < left.count)
    (hc : WF P (minKeys P - 1) h (some sep) hi child) (hlow : child.count < minKeys P) :
    ∃ l' s c', borrowFromLeft left sep child = some (l', s, c') ∧
    PairOk P h lo hi left child L [s] [l', c'] L := by
  have hmin := minKeys_pos hP
  have hhalf : 2 * minKeys P ≤ maxKeys P := by unfold minKeys; omega
  cases h with
  | zero =>
    obtain ⟨la, les, rfl⟩ := hl.eq_leaf
    obtain ⟨ca, ces, rfl⟩ := hc.eq_leaf
    obtain ⟨-, hs, hr⟩ := leaf_join hl hc
    obtain ⟨-, -, -, -, hmaxl⟩ := hl
    obtain ⟨-, -, -, hmc, -⟩ := hc
    simp only [Node.count_leaf] at hrich hlow
    rcases eq_nil_or_concat les with rfl | ⟨les', e, rfl⟩
    · simp at hrich
    · simp only [List.concat_eq_append, length_append, length_cons, length_nil,
        append_assoc, cons_append, List.nil_append] at hrich hmaxl hs hr ⊢
      refine ⟨.leaf la les', e.1, .leaf ca (e :: ces), by simp [borrowFromLeft], ?_⟩
      refine ⟨?_, by simp, by simp, by simpa using ChainErase.refl _ L, by simpa using .refl [la,
        ca]⟩
      exact leaf_cut hP hs hr (by omega) (by omega) (by omega) (by omega) la ca
  | succ h =>
    obtain ⟨la, lks, lcs, rfl⟩ := hl.eq_internal
    obtain ⟨ca, cks, ccs, rfl⟩ := hc.eq_internal
    obtain ⟨-, hmaxl, hfl⟩ := hl
    obtain ⟨hmc, -, hfc⟩ := hc
    simp only [Node.count_internal] at hrich hlow
    have hlen := fence_length hfl
    rcases eq_nil_or_concat lks with rfl | ⟨lks', k, rfl⟩
    · simp at hrich
    rcases eq_nil_or_concat lcs with rfl | ⟨lcs', c, rfl⟩
    · simp at hlen
    simp only [List.concat_eq_append, length_append, length_cons,
      length_nil] at hrich hmaxl hlen hfl ⊢
    have hcut := (fence_append_right (show lcs'.length = lks'.length + 1 by omega)).1 hfl
    refine ⟨.internal la lks' lcs', k,
      .internal ca (sep :: cks) (c :: ccs), by simp [borrowFromLeft], ?_⟩
    refine ⟨?_, by simp, by simp, by simpa using .refl _ L, ?_⟩
    · rw [fence_cons, fence_single]
      refine ⟨⟨by omega, by omega, hcut.1⟩,
        ⟨by simp only [length_cons]; omega, by simp only [length_cons]; omega, ?_⟩⟩
      exact (fence_cons _ _ _ _ _ _).2 ⟨hcut.2, hfc⟩
    · simp only [flatMap_cons, List.flatMap_nil, List.append_nil, Node.addrs_internal,
        flatMap_append, cons_append, append_assoc]
      apply List.Perm.subperm
      apply List.Perm.cons
      apply List.Perm.append_left
      exact List.perm_middle.symm

theorem borrowFromRight_ok (hP : 3 ≤ P) {child right : Node K V} (L : Links Nat)
    (hc : WF P (minKeys P - 1) h lo (some sep) child) (hlow : child.count < minKeys P)
    (hr : WF P (minKeys P) h (some sep) hi right) (hrich : minKeys P < right.count) :
    ∃ c' s r', borrowFromRight child sep right = some (c', s, r') ∧
    PairOk P h lo hi child right L [s] [c', r'] L := by
  have hmin := minKeys_pos hP
  have hhalf : 2 * minKeys P ≤ maxKeys P := by unfold minKeys; omega
  cases h with
  | zero =>
    obtain ⟨ca, ces, rfl⟩ := hc.eq_leaf
    obtain ⟨ra, res, rfl⟩ := hr.eq_leaf
    obtain ⟨-, hs, hall⟩ := leaf_join hc hr
    obtain ⟨-, -, -, hmc, -⟩ := hc
    obtain ⟨-, -, -, -, hmaxr⟩ := hr
    simp only [Node.count_leaf] at hrich hlow
    match res, hrich with
    | [], hrich => simp at hrich
    | [_], hrich => simp only [length_cons, length_nil] at hrich; omega
    | e :: e' :: res, hrich =>
      simp only [length_cons] at hrich hmaxr
      have hlen : (ces ++ [e]).length = ces.length + 1 := by simp
      refine ⟨.leaf ca (ces ++ [e]), e'.1, .leaf ra (e' :: res), by simp [borrowFromRight], ?_⟩
      refine ⟨?_, by simp, by simp, by simpa using ChainErase.refl _ L, by simpa using .refl [ca,
        ra]⟩
      rw [List.append_cons] at hs hall
      exact leaf_cut hP hs hall (by omega) (by omega) (by omega) (by omega) ca ra
  | succ h =>
    obtain ⟨ca, cks, ccs, rfl⟩ := hc.eq_internal
    obtain ⟨ra, rks, rcs, rfl⟩ := hr.eq_internal
    obtain ⟨hmc, -, hfc⟩ := hc
    obtain ⟨-, hmaxr, hfr⟩ := hr
    simp only [Node.count_internal] at hrich hlow
    cases rks with
    | nil => simp at hrich
    | cons k rks =>
    cases rcs with
    | nil => exact hfr.elim
    | cons c rcs =>
    simp only [length_cons] at hrich hmaxr
    obtain ⟨hmoved, hrest⟩ := (fence_cons _ _ _ _ _ _).1 hfr
    refine ⟨.internal ca (cks ++ [sep]) (ccs ++ [c]), k,
      .internal ra rks rcs, by simp [borrowFromRight], ?_⟩
    refine ⟨?_, by simp, by simp, by simpa using .refl _ L, ?_⟩
    · rw [fence_cons, fence_single]
      have hlen : (cks ++ [sep]).length = cks.length + 1 := by simp
      refine ⟨⟨by omega, by omega, ?_⟩, ⟨by omega, by omega, hrest⟩⟩
      exact (fence_append_right (fence_length hfc)).2 ⟨hfc, hmoved⟩
    · simp only [flatMap_cons, List.flatMap_nil, List.append_nil, Node.addrs_internal,
        flatMap_append, cons_append, append_assoc]
      apply List.Perm.subperm
      apply List.Perm.cons
      apply List.Perm.append_left
      exact List.perm_middle

/-- Two neighbours that fit into one node, with the separator between them. -/
theorem mergeChildren_ok {m' : Nat} {left right : Node K V} (L : Links Nat)
    (hl : WF P m h lo (some sep) left) (hr : WF P m' h (some sep) hi right)
    (hfull : minKeys P ≤ left.count + right.count) (hfit : left.count + right.count < maxKeys P) :
    ∃ n L', mergeChildren P left sep right L = some (n, L') ∧
    PairOk P h lo hi left right L [] [n] L' := by
  cases h with
  | zero =>
    obtain ⟨la, les, rfl⟩ := hl.eq_leaf
    obtain ⟨ra, res, rfl⟩ := hr.eq_leaf
    obtain ⟨hlt, hs, hall⟩ := leaf_join hl hr
    simp only [Node.count_leaf] at hfull hfit
    refine ⟨.leaf la (les ++ res), DList.bypass L la ra, ?_, ?_⟩
    · show (if les.length + res.length ≤ maxKeys P then _ else _) = _
      rw [if_pos hfit.le]
    refine ⟨?_, by simp, by simp, by simpa using ChainErase.bypass la ra L, ?_⟩
    · rw [fence_single]
      exact ⟨hlt, hs, hall, by simpa using hfull, by simpa using hfit.le⟩
    · simp only [flatMap_cons, List.flatMap_nil, List.append_nil, Node.addrs_leaf]
      exact (List.sublist_append_left [la] [ra]).subperm
  | succ h =>
    obtain ⟨la, lks, lcs, rfl⟩ := hl.eq_internal
    obtain ⟨ra, rks, rcs, rfl⟩ := hr.eq_internal
    simp only [Node.count_internal] at hfull hfit
    refine ⟨.internal la (lks ++ sep :: rks) (lcs ++ rcs), L, ?_, ?_⟩
    · show (if lks.length + (rks.length + 1) ≤ maxKeys P then _ else _) = _
      rw [if_pos (by omega)]
    refine ⟨?_, by simp, by simp, by simpa using ChainErase.refl _ L, ?_⟩
    · rw [fence_single]
      refine ⟨by simp only [length_append, length_cons]; omega,
        by simp only [length_append, length_cons]; omega, ?_⟩
      exact (fence_append_right (fence_length hl.2.2)).2 ⟨hl.2.2, hr.2.2⟩
    · simp only [flatMap_cons, List.flatMap_nil, List.append_nil, Node.addrs_internal,
        flatMap_append, cons_append]
      apply List.Sublist.subperm
      apply List.Sublist.cons_cons
      exact (List.Sublist.refl _).append (List.sublist_cons_self _ _)

/-! ## Back into the parent -/

/-- What `rebalance` delivers for a parent with children `cs`, one of them short. -/
structure RebalanceOk (P h : Nat) (lo hi : Option K) (n : Nat) (cs : List (Node K V))
    (L : Links Nat) (ks' : List K) (cs' : List (Node K V)) (L' : Links Nat) : Prop where
  fence : Fence (WF P (minKeys P) h) lo ks' cs' hi
  lower : n ≤ ks'.length + 1
  upper : ks'.length ≤ n
  entries : cs'.flatMap Node.entries = cs.flatMap Node.entries
  chain : ChainErase (cs.flatMap Node.leaves) L (cs'.flatMap Node.leaves) L'
  addrs : (cs'.flatMap Node.addrs).Subperm (cs.flatMap Node.addrs)

/-- A repaired pair takes the place of the old one. -/
theorem PairOk.rebuild {M : List K} {C : List (Node K V)}
    (hpair : PairOk P h (S.getLast?.or lo) (T.head?.or hi) x y L M C L')
    (hctx : ∀ M' C', Fence (WF P (minKeys P) h) (S.getLast?.or lo) M' C' (T.head?.or hi) →
      Fence (WF P (minKeys P) h) lo (S ++ (M' ++ T)) (A ++ (C' ++ B)) hi) :
    RebalanceOk P h lo hi (S ++ s :: T).length (A ++ x :: y :: B) L (S ++ (M ++ T))
      (A ++ (C ++ B)) L' := by
  have hshort := hpair.short
  refine ⟨hctx M C hpair.fence, ?_, ?_, ?_, ?_, ?_⟩
  · simp only [length_append, length_cons]
    omega
  · simp only [length_append, length_cons]
    omega
  · simp only [flatMap_append, flatMap_cons, hpair.entries, append_assoc]
  · have := hpair.chain.context (A.flatMap Node.leaves) (B.flatMap Node.leaves)
    simpa using this
  · simp only [flatMap_append, flatMap_cons]
    have := hpair.addrs.append (.refl (B.flatMap Node.addrs))
    simpa using (List.Subperm.refl (A.flatMap Node.addrs)).append this

omit [LinearOrder K] in
/-- Two neighbouring children, by their index. -/
theorem pair_at (hA : A.length = S.length) (x y : Node K V) :
    (A ++ x :: y :: B)[S.length]? = some x ∧ (A ++ x :: y :: B)[S.length + 1]? = some y ∧
      ∀ x' y', ((A ++ x :: y :: B).set S.length x').set (S.length + 1) y' = A ++ x' :: y' :: B := by
  rw [← hA]
  refine ⟨getElem?_append_length A x (y :: B), by simp, fun x' y' => ?_⟩
  rw [set_append_length]
  simp

omit [LinearOrder K] in
theorem mergeAt_eq {n : Node K V} (hA : A.length = S.length)
    (hmerge : mergeChildren P x s y L = some (n, L')) :
    mergeAt P addr (S ++ s :: T) (A ++ x :: y :: B) S.length L =
      some (.internal addr (S ++ T) (A ++ n :: B), L') := by
  obtain ⟨hx, hy, -⟩ := pair_at (B := B) hA x y
  have hset : (A ++ x :: y :: B).set S.length n = A ++ n :: y :: B := by
    rw [← hA]
    exact set_append_length A x n (y :: B)
  have herase : (A ++ n :: y :: B).eraseIdx (S.length + 1) = A ++ n :: B := by
    have := eraseIdx_append_length (A ++ [n]) y B
    simpa [hA] using this
  simp only [mergeAt, hx, hy, getElem?_append_length, hmerge, hset, herase, eraseIdx_append_length]

omit [LinearOrder K] in
/-- The window of a parent around two neighbouring children. -/
theorem fence_pair {Q : Option K → Option K → Node K V → Prop} (hA : A.length = S.length)
    (hf : Fence Q lo (S ++ s :: T) (A ++ x :: y :: B) hi) :
    Q (S.getLast?.or lo) (some s) x ∧ Q (some s) (T.head?.or hi) y ∧
      ∀ M' C', Fence Q (S.getLast?.or lo) M' C' (T.head?.or hi) →
      Fence Q lo (S ++ (M' ++ T)) (A ++ (C' ++ B)) hi := by
  have hwin := fence_window (M := [s]) (C := [x, y]) hA rfl hf
  simp only [fence_cons, fence_single] at hwin
  exact ⟨hwin.1.1, hwin.1.2, hwin.2⟩

theorem rebalance_left_ok (hP : 3 ≤ P) {l : Node K V} (L : Links Nat) (hA : A.length = S.length)
    (hf : Fence (WF P (minKeys P) h) lo (S ++ s :: T) (A ++ l :: c :: B) hi)
    (hc' : WF P (minKeys P - 1) h (some s) (T.head?.or hi) c') (hlow : c'.count < minKeys P)
    (hpoor : minKeys P < l.count ∨ ∀ r ∈ B.head?, r.count ≤ minKeys P) :
    ∃ ks' cs' L', rebalance P addr (S ++ s :: T) (A ++ l :: c' :: B) (S.length + 1) L =
        some (.internal addr ks' cs', L') ∧
      RebalanceOk P h lo hi (S ++ s :: T).length (A ++ l :: c' :: B) L ks' cs' L' := by
  obtain ⟨hl, -, hctx⟩ := fence_pair hA hf
  obtain ⟨hgetl, hgetc, hset⟩ := pair_at (B := B) hA l c'
  have hgetr : (A ++ l :: c' :: B)[S.length + 1 + 1]? = B.head? := by
    have htwo : A.length + 1 + 1 - A.length = 2 := by omega
    rw [← hA, List.getElem?_append_right (by omega), htwo]
    cases B <;> rfl
  by_cases hrich : minKeys P < l.count
  · obtain ⟨l₁, s₁, c₁, hborrow, hpair⟩ := borrowFromLeft_ok hP L hl hrich hc' hlow
    refine ⟨_, _, L, ?_, hpair.rebuild hctx⟩
    simp [rebalance, hgetl, hgetc, hrich, hborrow, hset]
  · have hlc := (WF.count_le hl).1
    have hhalf : 2 * minKeys P ≤ maxKeys P := by unfold minKeys; omega
    obtain ⟨n, L', hmerge, hpair⟩ := mergeChildren_ok L hl hc' (by omega) (by omega)
    refine ⟨_, _, L', ?_, hpair.rebuild hctx⟩
    have hright : ¬ minKeys P < (if S.length + 1 < (S ++ s :: T).length then B.head?
        else none).elim 0 Node.count := by
      rcases hpoor with hpoor | hpoor
      · exact absurd hpoor hrich
      · split
        · cases hB : B.head? with
          | none => simp
          | some r => exact not_lt.2 (hpoor r (by rw [hB]; rfl))
        · simp
    rw [rebalance]
    simp only [Nat.add_sub_cancel, Nat.zero_lt_succ, if_true, hgetl, hgetr, Option.elim_some,
      if_neg hrich, if_neg hright, Option.isSome_some]
    exact mergeAt_eq hA hmerge

theorem rebalance_right_ok (hP : 3 ≤ P) {r : Node K V} (L : Links Nat) (hA : A.length = S.length)
    (hf : Fence (WF P (minKeys P) h) lo (S ++ s :: T) (A ++ c :: r :: B) hi)
    (hc' : WF P (minKeys P - 1) h (S.getLast?.or lo) (some s) c') (hlow : c'.count < minKeys P)
    (hleft : ∀ l ∈ A.getLast?, l.count ≤ minKeys P) (hpoor : minKeys P < r.count ∨ A = []) :
    ∃ ks' cs' L', rebalance P addr (S ++ s :: T) (A ++ c' :: r :: B) S.length L =
      some (.internal addr ks' cs', L') ∧
      RebalanceOk P h lo hi (S ++ s :: T).length (A ++ c' :: r :: B) L ks' cs' L' := by
  obtain ⟨-, hr, hctx⟩ := fence_pair hA hf
  obtain ⟨hgetc, hgetr, hset⟩ := pair_at (B := B) hA c' r
  have hidx : S.length < (S ++ s :: T).length := by simp
  have hgetl : (if 0 < S.length then (A ++ c' :: r :: B)[S.length - 1]? else none) =
      A.getLast? := by
    rcases eq_nil_or_concat A with rfl | ⟨A', l, rfl⟩
    · simp [← hA]
    · simp only [List.concat_eq_append] at *
      have hpos : 0 < S.length := by rw [← hA]; simp
      have hlen : S.length - 1 = A'.length := by rw [← hA]; simp
      simp [hpos, hlen]
  have hleft' : ¬ minKeys P < (A.getLast?).elim 0 Node.count := by
    cases hl : A.getLast? with
    | none => simp
    | some l => exact not_lt.2 (hleft l (by rw [hl]; rfl))
  by_cases hrich : minKeys P < r.count
  · obtain ⟨c₁, s₁, r₁, hborrow, hpair⟩ := borrowFromRight_ok hP L hc' hlow hr hrich
    refine ⟨_, _, L, ?_, hpair.rebuild hctx⟩
    rw [rebalance]
    simp only [hgetl, if_neg hleft', if_pos hidx, hgetr, Option.elim_some, if_pos hrich, hgetc,
      getElem?_append_length, hborrow, hset, set_append_length]
    simp
  · have hnil : A = [] := hpoor.resolve_left hrich
    have hrc := (WF.count_le hr).1
    have hhalf : 2 * minKeys P ≤ maxKeys P := by unfold minKeys; omega
    obtain ⟨n, L', hmerge, hpair⟩ := mergeChildren_ok L hc' hr (by omega) (by omega)
    refine ⟨_, _, L', ?_, hpair.rebuild hctx⟩
    rw [rebalance]
    simp only [hgetl, if_neg hleft', if_pos hidx, hgetr, Option.elim_some, if_neg hrich,
      Option.isSome_some, if_true]
    rw [if_neg (by simp [hnil])]
    exact mergeAt_eq hA hmerge

/-- **Rebalancing.**  An internal node always has a second child to borrow from or to merge with. -/
theorem rebalance_ok (hP : 3 ≤ P) (L : Links Nat) (hA : A.length = S.length)
    (hf : Fence (WF P (minKeys P) h) lo (S ++ T) (A ++ c :: B) hi)
    (hc' : WF P (minKeys P - 1) h (S.getLast?.or lo) (T.head?.or hi) c')
    (hlow : c'.count < minKeys P) (hone : 1 ≤ (S ++ T).length) :
    ∃ ks' cs' L', rebalance P a (S ++ T) (A ++ c' :: B) S.length L =
      some (.internal a ks' cs', L') ∧
      RebalanceOk P h lo hi (S ++ T).length (A ++ c' :: B) L ks' cs' L' := by
  have hlen := fence_length hf
  simp only [length_append, length_cons] at hlen hone
  -- a left neighbour comes with a separator before it
  have hleft : ∀ A' l, A = A' ++ [l] → ∃ S' s, S = S' ++ [s] ∧ A'.length = S'.length := by
    intro A' l hAl
    rcases eq_nil_or_concat S with rfl | ⟨S', s, rfl⟩
    · simp [hAl] at hA
    · exact ⟨S', s, by simp, by simpa [hAl] using hA⟩
  by_cases hB :
    (∃ r ∈ B.head?, minKeys P < r.count ∧ ∀ l ∈ A.getLast?, l.count ≤ minKeys P) ∨ A = []
  · -- the right neighbour is the one to borrow from, or the only one there is
    cases B with
    | nil =>
      rcases hB with ⟨r, hr, -⟩ | rfl
      · simp at hr
      · simp only [length_nil] at hA hlen
        omega
    | cons r B =>
      cases T with
      | nil =>
        simp only [length_nil, length_cons] at hlen
        omega
      | cons s T =>
        have hpoor : minKeys P < r.count ∨ A = [] := by
          rcases hB with ⟨r', hr', hrich, -⟩ | hnil
          · simp only [List.head?_cons, Option.mem_def, Option.some.injEq] at hr'
            exact .inl (hr' ▸ hrich)
          · exact .inr hnil
        have hpoor' : ∀ l ∈ A.getLast?, l.count ≤ minKeys P := by
          rcases hB with ⟨-, -, -, hl⟩ | rfl
          · exact hl
          · simp
        exact rebalance_right_ok hP L hA hf hc' hlow hpoor' hpoor
  · rcases eq_nil_or_concat A with rfl | ⟨A', l, rfl⟩
    · exact absurd (.inr rfl) hB
    · obtain ⟨S', s, rfl, hA'⟩ := hleft A' l (by simp)
      simp only [List.concat_eq_append, append_assoc, cons_append, List.nil_append,
        List.getLast?_append_cons, List.getLast?_singleton, Option.some_or] at hf hc' hB ⊢
      rw [show (S' ++ [s]).length = S'.length + 1 by simp]
      refine rebalance_left_ok hP L hA' hf hc' hlow ?_
      by_cases hrich : minKeys P < l.count
      · exact .inl hrich
      · refine .inr fun r hr => ?_
        by_contra hmore
        refine hB (.inl ⟨r, hr, not_le.1 hmore, fun l' hl' => ?_⟩)
        simp at hl'
        exact hl' ▸ not_lt.1 hrich

/-! ## The recursion -/

/-- What erasing `key` from `n` has to deliver. -/
structure EraseOk (P m h : Nat) (lo hi : Option K) (key : K) (n : Node K V) (L : Links Nat)
    (found : Bool) (n' : Node K V) (L' : Links Nat) : Prop where
  wf : WF P (m - 1) h lo hi n'
  mem : ∀ e, e ∈ n'.entries ↔ e ∈ n.entries ∧ e.1 ≠ key
  length : n'.entries.length + (if found then 1 else 0) = n.entries.length
  hit : found = true → ∃ e ∈ n.entries, e.1 = key
  miss : found = false → n' = n ∧ L' = L
  chain : ChainErase n.leaves L n'.leaves L'
  addrs : n'.addrs.Subperm n.addrs

/-- Nothing is erased: the node is as it was. -/
theorem EraseOk.of_absent {n : Node K V} (L : Links Nat) (hw : WF P m h lo hi n)
    (habsent : ∀ e ∈ n.entries, e.1 ≠ key) : EraseOk P m h lo hi key n L false n L where
  wf := hw.mono (by have := hw.count_le.1; omega)
  mem e := ⟨fun he => ⟨he, habsent e he⟩, fun he => he.1⟩
  length := by simp
  hit hfound := by contradiction
  miss _ := ⟨rfl, rfl⟩
  chain := ChainErase.refl _ L
  addrs := .refl _

theorem eraseRecursive_leaf {es : List (K × V)} (L : Links Nat) (hw : WF P m 0 lo hi (.leaf a es)) :
    ∃ found n' L', eraseRecursive P key (.leaf a es) L = some (found, n', L') ∧
      EraseOk P m 0 lo hi key (.leaf a es) L found n' L' := by
  obtain ⟨hlt, hs, hr, hm, hmax⟩ := id hw
  obtain ⟨S, T, rfl, hidx, hS, hT⟩ := leaf_split P hs key
  have hST := List.pairwise_append.1 hs
  rw [eraseRecursive]
  simp only [← hidx]
  cases T with
  | nil =>
    simp only [List.append_nil, List.getElem?_length] at hw ⊢
    exact ⟨_, _, _, rfl, EraseOk.of_absent L hw fun e he => (hS e (by simpa using he)).ne⟩
  | cons e T =>
    simp only [getElem?_append_length, eraseIdx_append_length]
    have hTe := List.pairwise_cons.1 hST.2.1
    have hge : ∀ x ∈ T, key < x.1 := fun x hx => (hT e (by simp)).trans_lt (hTe.1 x hx)
    by_cases hk : e.1 = key
    · rw [if_pos hk]
      refine ⟨_, _, _, rfl, ?_⟩
      have hsub : (S ++ T).Sublist (S ++ e :: T) :=
        (List.Sublist.refl S).append (List.sublist_cons_self e T)
      have hlen : (S ++ T).length + 1 = (S ++ e :: T).length := by
        simp only [length_append, length_cons]
        omega
      refine ⟨⟨hlt, hs.sublist hsub, fun x hx => hr x (hsub.subset hx), by omega, by omega⟩, ?_,
        by simp; omega, fun _ => ⟨e, by simp, hk⟩, fun hfalse => by contradiction,
        by simpa using .refl [a] L, by simp⟩
      intro x
      simp only [Node.entries_leaf, mem_append, List.mem_cons]
      constructor
      · rintro (hx | hx)
        · exact ⟨.inl hx, (hS x hx).ne⟩
        · exact ⟨.inr (.inr hx), (hge x hx).ne'⟩
      · rintro ⟨hx | rfl | hx, hne⟩
        · exact .inl hx
        · exact absurd hk hne
        · exact .inr hx
    · rw [if_neg hk]
      refine ⟨_, _, _, rfl, EraseOk.of_absent L hw fun x hx => ?_⟩
      simp only [Node.entries_leaf, mem_append, List.mem_cons] at hx
      rcases hx with hx | rfl | hx
      · exact (hS x hx).ne
      · exact hk
      · exact (hge x hx).ne'

/-- The parent of a child that lost the key, once the child has been repaired if it had to be. -/
theorem EraseOk.parent {lo' hi' : Option K} {ks ks' : List K} {cs' : List (Node K V)}
    {L'' : Links Nat} (hm : m ≤ ks.length) (hmax : ks.length ≤ maxKeys P)
    (hok : EraseOk P (minKeys P) h lo' hi' key c L true c' L')
    (hreb : RebalanceOk P h lo hi ks.length (A ++ c' :: B) L' ks' cs' L'')
    (hleft : ∀ e ∈ A.flatMap Node.entries, e.1 < key)
    (hright : ∀ e ∈ B.flatMap Node.entries, key < e.1) :
    EraseOk P m (h + 1) lo hi key (.internal a ks (A ++ c :: B)) L true
      (.internal a ks' cs') L'' := by
  have hlower := hreb.lower
  have hupper := hreb.upper
  have hlen := hok.length
  simp only [if_true] at hlen
  refine ⟨⟨by omega, by omega, hreb.fence⟩, ?_, ?_, ?_, fun hfalse => by contradiction, ?_, ?_⟩
  · intro e
    simp only [Node.entries_internal, hreb.entries, flatMap_append, flatMap_cons,
      mem_append, hok.mem]
    constructor
    · rintro (he | ⟨he, hne⟩ | he)
      · exact ⟨.inl he, (hleft e he).ne⟩
      · exact ⟨.inr (.inl he), hne⟩
      · exact ⟨.inr (.inr he), (hright e he).ne'⟩
    · rintro ⟨he | he | he, hne⟩
      · exact .inl he
      · exact .inr (.inl ⟨he, hne⟩)
      · exact .inr (.inr he)
  · simp only [Node.entries_internal, hreb.entries, flatMap_append, flatMap_cons,
      length_append, if_true]
    omega
  · intro _
    obtain ⟨e, he, hek⟩ := hok.hit rfl
    exact ⟨e, by simp [he], hek⟩
  · have hchild := hok.chain.context (A.flatMap Node.leaves) (B.flatMap Node.leaves)
    have hpar := hreb.chain
    simp only [Node.leaves_internal, flatMap_append, flatMap_cons, append_assoc] at hchild hpar ⊢
    exact hchild.trans hpar
  · have hchild := (List.Subperm.refl (A.flatMap Node.addrs)).append
        (hok.addrs.append (.refl (B.flatMap Node.addrs)))
    have hpar := hreb.addrs
    simp only [Node.addrs_internal, flatMap_append, flatMap_cons] at hpar ⊢
    exact (List.subperm_cons a).2 (hpar.trans hchild)

theorem eraseRecursive_internal (key : K) (a : Nat) (ks : List K) (cs : List (Node K V))
    (L : Links Nat) : eraseRecursive P key (.internal a ks cs) L =
      cs[searchUpperBound P ks key]?.bind fun child => (eraseRecursive P key child L).bind fun r =>
        let cs := cs.set (searchUpperBound P ks key) r.2.1
        if r.1 = false then some (false, .internal a ks cs, r.2.2)
        else if r.2.1.count < minKeys P then
          (rebalance P a ks cs (searchUpperBound P ks key) r.2.2).map fun r => (true, r)
        else some (true, .internal a ks cs, r.2.2) := by
  rw [eraseRecursive]
  split
  · simp [*]
  · rename_i child hchild
    rw [hchild, Option.bind_some]
    rcases eraseRecursive P key child L with _ | ⟨_ | _, child', links⟩
    · rfl
    · rfl
    · simp only [Option.bind_some, Bool.true_eq_false, if_false]
      cases rebalance P a ks (cs.set (searchUpperBound P ks key) child')
        (searchUpperBound P ks key) links <;> rfl

/-- **The erase recursion.**  Induction on the height; the parent's step is `rebalance_ok` when the
child ran short and nothing otherwise. -/
theorem eraseRecursive_ok (hP : 3 ≤ P) :
    ∀ {h m : Nat} {lo hi : Option K} {n : Node K V} (L : Links Nat), WF P m h lo hi n → 1 ≤ m →
    InRange lo hi key →
      ∃ found n' L', eraseRecursive P key n L = some (found, n', L') ∧
      EraseOk P m h lo hi key n L found n' L' := by
  intro h
  induction h with
  | zero =>
    intro m lo hi n L hw hone hkey
    obtain ⟨a, es, rfl⟩ := hw.eq_leaf
    exact eraseRecursive_leaf L hw
  | succ h ih =>
    intro m lo hi n L hw hone hkey
    obtain ⟨a, ks, cs, rfl⟩ := hw.eq_internal
    obtain ⟨hm, hmax, hf⟩ := id hw
    obtain ⟨S, T, A, c, B, rfl, rfl, hidx, hA, hB, hrange, hc, hctx, hleft, hright⟩ :=
      fence_route (fun _ _ _ hc => hc.holds) hf P hkey
    have hchild : (A ++ c :: B)[searchUpperBound P (S ++ T) key]? = some c := by
      rw [← hidx, ← hA]
      exact getElem?_append_length A c B
    obtain ⟨found, c', L', hrec, hok⟩ := ih L hc (minKeys_pos hP) hrange
    have hset : (A ++ c :: B).set (searchUpperBound P (S ++ T) key) c' = A ++ c' :: B := by
      rw [← hidx, ← hA]
      exact set_append_length A c c' B
    have hunfold : eraseRecursive P key (.internal a (S ++ T) (A ++ c :: B)) L =
        if found = false then some (false, .internal a (S ++ T) (A ++ c' :: B), L')
        else if c'.count < minKeys P then
          (rebalance P a (S ++ T) (A ++ c' :: B) S.length L').map fun r => (true, r)
        else some (true, .internal a (S ++ T) (A ++ c' :: B), L') := by
      rw [eraseRecursive_internal, hchild, Option.bind_some, hrec, Option.bind_some]
      simp only [hset, hidx]
    rw [hunfold]
    cases found with
    | false =>
      obtain ⟨rfl, rfl⟩ := hok.miss rfl
      refine ⟨_, _, _, if_pos rfl, EraseOk.of_absent L' hw fun e he => ?_⟩
      simp only [Node.entries_internal, flatMap_append, flatMap_cons, mem_append] at he
      rcases he with he | he | he
      · exact (hleft e he).ne
      · exact ((hok.mem e).1 he).2
      · exact (hright e he).ne'
    | true =>
      simp only [Bool.true_eq_false, if_false]
      by_cases hlow : c'.count < minKeys P
      · obtain ⟨ks', cs', L'', hreb, hrebok⟩ :=
          rebalance_ok (a := a) hP L' hA hf hok.wf hlow (hone.trans hm)
        rw [if_pos hlow, hreb]
        exact ⟨_, _, _, rfl, hok.parent hm hmax hrebok hleft hright⟩
      · rw [if_neg hlow]
        refine ⟨_, _, _, rfl, hok.parent hm hmax ?_ hleft hright⟩
        have hfence := hctx [] [c'] (hok.wf.mono (not_lt.1 hlow))
        exact ⟨by simpa using hfence, by omega, le_refl _, rfl, ChainErase.refl _ L', .refl _⟩

end Erase

end Erebus.BPlusTree
