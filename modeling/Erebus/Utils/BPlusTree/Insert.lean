import Erebus.Utils.BPlusTree.Invariant

/-!
# `insert_recursive` keeps the tree well formed

The result of an insertion into a subtree is one node, or two nodes and the separator between them
(`Inserted.nodes`, `Inserted.seps`). Either way it is a fence over the bounds of the old subtree, so
a parent can put it in the place of the child it descended into. `InsertOk` collects what the parent
needs:

* the fence, the contents and the number of entries;
* the leaves, which are the old ones or the old ones with one new leaf behind the split one, with
  exactly the link writes of `DList.insertAfter`;
* the addresses, which are the old ones and the spares that were taken;
* the number of spares taken, which never exceeds the run of full nodes counted by `spares_needed`.
-/

namespace Erebus.BPlusTree

open Node

open List (mem_cons pairwise_append pairwise_cons flatMap_append mem_append flatMap_cons)
open DList (Links)

/-! ## Positions in lists -/

section

variable {α : Type}

theorem getElem?_append_length (A : List α) (c : α) (B : List α) :
    (A ++ c :: B)[A.length]? = some c := by
  simp

theorem set_append_length (A : List α) (c c' : α) (B : List α) :
    (A ++ c :: B).set A.length c' = A ++ c' :: B := by
  simp

theorem insertIdx_append_length (S T : List α) (k : α) :
    (S ++ T).insertIdx S.length k = S ++ k :: T := by
  induction S with
  | nil => simp
  | cons s S ih => simpa using ih

theorem eraseIdx_append_length (A : List α) (c : α) (B : List α) :
    (A ++ c :: B).eraseIdx A.length = A ++ B := by
  rw [List.eraseIdx_append_of_length_le (Nat.le_refl _)]
  simp

end

section Insert

variable {K V : Type}

namespace Inserted

/-- The node or nodes that replace the old one. -/
def nodes (r : Inserted K V) : List (Node K V) :=
  r.node :: (r.split.map Prod.snd).toList

/-- The separator between them. -/
def seps (r : Inserted K V) : List K :=
  (r.split.map Prod.fst).toList

end Inserted

open Inserted (nodes seps)

variable {P m a : Nat} {lo hi : Option K} {es : List (K × V)} {key : K}

/-- The leaves of a subtree before and after: unchanged, or one spare linked in behind a leaf. -/
def ChainStep (spares : List Nat) (l : List Nat) (L : Links Nat) (l' : List Nat) (L' : Links Nat) :
    Prop :=
  (l' = l ∧ L' = L) ∨ ∃ A x y B, l = A ++ x :: B ∧ l' = A ++ x :: y :: B ∧
    L' = DList.insertAfter L x y ∧ y ∈ spares

theorem ChainStep.context {spares l l' : List Nat} {L L' : Links Nat}
    (h : ChainStep spares l L l' L') (X Y : List Nat) :
    ChainStep spares (X ++ l ++ Y) L (X ++ l' ++ Y) L' := by
  rcases h with ⟨rfl, rfl⟩ | ⟨A, x, y, B, rfl, rfl, rfl, hy⟩
  · exact .inl ⟨rfl, rfl⟩
  · exact .inr ⟨X ++ A, x, y, B ++ Y, by simp, by simp, rfl, hy⟩

/-! ## The run of full nodes -/

/-- The run reaches a node only if it covers everything below and the node is full too. -/
theorem cascade_cons (P c : Nat) (l : List Nat) : cascade P (c :: l) =
      if cascade P l = l.length ∧ c = maxKeys P then cascade P l + 1 else cascade P l := by
  unfold cascade
  rw [List.reverse_cons, List.takeWhile_append]
  simp only [List.length_reverse]
  by_cases hfull : (l.reverse.takeWhile (fun c => c == maxKeys P)).length = l.length
  · by_cases hc : c = maxKeys P
    · simp [hfull, hc]
    · simp [hfull, hc]
  · simp [hfull]

variable [LinearOrder K]

/-- What inserting `key` into `n` has to deliver. -/
structure InsertOk (P m h : Nat) (lo hi : Option K) (key : K) (val : V) (n : Node K V)
    (pool : Pool) (r : Inserted K V) : Prop where
  fence : Fence (WF P (if r.split.isSome then minKeys P else m) h) lo r.seps r.nodes hi
  mem : ∀ e, e ∈ r.nodes.flatMap Node.entries ↔ e = (key, val) ∨ (e ∈ n.entries ∧ e.1 ≠ key)
  length : (r.nodes.flatMap Node.entries).length = n.entries.length + (if r.isNew then 1 else 0)
  old : r.isNew = false → r.split = none
  addrs : (r.nodes.flatMap Node.addrs ++ r.pool.spares).Perm (n.addrs ++ pool.spares)
  chain : ChainStep pool.spares n.leaves pool.links (r.nodes.flatMap Node.leaves) r.pool.links
  spares : pool.spares.length ≤ r.pool.spares.length + cascade P (descentCounts P key n)
  cascades : r.split.isSome → cascade P (descentCounts P key n) = (descentCounts P key n).length

/-- What the two splitting epilogues deliver for a node with contents `es` and addresses `ad` that
holds `n` keys. -/
structure SplitOk (P m h : Nat) (lo hi : Option K) (es : List (K × V)) (ad : List Nat) (n : Nat)
    (pool : Pool) (r : Inserted K V) : Prop where
  isNew : r.isNew = true
  fence : Fence (WF P (if r.split.isSome then minKeys P else m) h) lo r.seps r.nodes hi
  entries : r.nodes.flatMap Node.entries = es
  addrs : (r.nodes.flatMap Node.addrs ++ r.pool.spares).Perm (ad ++ pool.spares)
  spares : pool.spares.length = r.pool.spares.length + (if n = P then 1 else 0)
  splits : r.split.isSome → n = P

/-- The result is one node. -/
theorem fence_whole {h : Nat} {r : Inserted K V} (hsplit : r.split = none) :
    Fence (WF P (if r.split.isSome then minKeys P else m) h) lo r.seps r.nodes hi ↔
    WF P m h lo hi r.node := by
  simp only [seps, nodes, hsplit, Option.map_none, Option.toList_none, fence_single,
    Option.isSome_none, Bool.false_eq_true, if_false]

/-- Where a full node is cut. -/
theorem middle (hP : 3 ≤ P) {α : Type*} {l : List α} (hfull : l.length = P) :
    ∃ x tl, l.drop (P / 2) = x :: tl ∧
    l.take (P / 2) ++ x :: tl = l ∧ (l.take (P / 2)).length = P / 2 ∧
    tl.length + 1 = P - P / 2 := by
  have hmid : P / 2 < l.length := by omega
  obtain ⟨x, tl, hdrop⟩ : ∃ x tl, l.drop (P / 2) = x :: tl := ⟨_, _, List.drop_eq_getElem_cons hmid⟩
  have htail := congrArg List.length hdrop
  rw [List.length_drop, hfull] at htail
  exact ⟨x, tl, hdrop, by rw [← hdrop, List.take_append_drop],
    List.length_take_of_le hmid.le, htail.symm⟩

/-- The contents of a leaf, cut before `e`: `e.1` separates the parts. -/
theorem leaf_cut (hP : 3 ≤ P) {fs : List (K × V)} {e : K × V} (hs : Sorted (es ++ e :: fs))
    (hr : ∀ x ∈ es ++ e :: fs, InRange lo hi x.1) (hlow : minKeys P ≤ es.length)
    (hhigh : es.length ≤ maxKeys P)
    (hlow' : minKeys P ≤ fs.length + 1) (hhigh' : fs.length + 1 ≤ maxKeys P) (a b : Nat) :
    Fence (WF P (minKeys P) 0) lo [e.1] [.leaf a es, .leaf b (e :: fs)] hi := by
  obtain ⟨hs₁, hs₂, hless⟩ := pairwise_append.1 hs
  have hbefore : ∀ x ∈ es, x.1 < e.1 := fun x hx => hless x hx e (by simp)
  -- the left part keeps at least one key, which is between `lo` and the separator
  obtain ⟨f, hf⟩ :=
    List.exists_mem_of_length_pos (show 0 < es.length by unfold minKeys maxKeys at hlow; omega)
  rw [fence_cons, fence_single]
  refine ⟨⟨below_some_right.2 fun l hl => ?_, hs₁, fun x hx => ?_, hlow, hhigh⟩,
    ⟨below_some_left.2 (hr e (by simp)).2, hs₂, fun x hx => ?_, hlow', hhigh'⟩⟩
  · exact ((hr f (by simp [hf])).1 l hl).trans_lt (hbefore f hf)
  · exact inRange_some_right.2 ⟨(hr x (by simp [hx])).1, hbefore x hx⟩
  · refine inRange_some_left.2 ⟨?_, (hr x (List.mem_append_right es hx)).2⟩
    rcases mem_cons.1 hx with rfl | hx
    · exact le_refl _
    · exact ((pairwise_cons.1 hs₂).1 x hx).le

/-- Splitting a leaf: the halves are sorted, within bounds, and hold at least `MIN_KEYS` each. -/
theorem splitLeaf_ok (hP : 3 ≤ P) (pool : Pool) (hlt : Below lo hi) (hs : Sorted es)
    (hr : ∀ e ∈ es, InRange lo hi e.1) (hm : m ≤ es.length) (hle : es.length ≤ P)
    (hspare : es.length = P → pool.spares ≠ []) : ∃ r, splitLeaf P a es pool = some r ∧
      ChainStep pool.spares [a] pool.links (r.nodes.flatMap leaves) r.pool.links ∧
      SplitOk P m 0 lo hi es [a] es.length pool r := by
  by_cases hfull : es.length = P
  · obtain ⟨y, rest, hpool⟩ := List.exists_cons_of_ne_nil (hspare hfull)
    obtain ⟨kv, tl, hdrop, hcat, htake, htail⟩ := middle hP hfull
    refine ⟨_, by simp only [splitLeaf, hfull, if_true, takeSpare, hpool, hdrop]; rfl, ?_, ?_⟩
    · exact .inr ⟨[], a, y, [], by simp, by simp [nodes], rfl, by simp [hpool]⟩
    refine ⟨rfl, ?_, ?_, ?_, ?_, fun _ => hfull⟩
    · simp only [seps, nodes, Option.map_some, Option.toList_some,
        Option.isSome_some, if_true]
      refine leaf_cut hP (by rwa [hcat]) (by rwa [hcat]) ?_ ?_ ?_ ?_ a y <;>
        simp only [minKeys, maxKeys] <;> omega
    · simpa [nodes] using hcat
    · simp [nodes, hpool]
    · simp [hpool, hfull]
  · refine ⟨_, by simp only [splitLeaf, hfull, if_false]; rfl, .inl ⟨by simp [nodes], rfl⟩, ?_⟩
    refine ⟨rfl, (fence_whole rfl).2 ?_, by simp [nodes], by simp [nodes], by simp [hfull], by simp⟩
    exact ⟨hlt, hs, hr, hm, by unfold maxKeys; omega⟩

/-- Splitting an internal node: the middle separator goes up. -/
theorem splitInternal_ok {h : Nat} (hP : 3 ≤ P) {ks : List K} {cs : List (Node K V)} {pool : Pool}
    (hf : Fence (WF P (minKeys P) h) lo ks cs hi) (hm : m ≤ ks.length) (hle : ks.length ≤ P)
    (hspare : ks.length = P → pool.spares ≠ []) :
    ∃ r, splitInternal P a ks cs pool = some r ∧ r.pool.links = pool.links ∧
      r.nodes.flatMap leaves = cs.flatMap leaves ∧
      SplitOk P m (h + 1) lo hi (cs.flatMap entries) (a :: cs.flatMap addrs) ks.length pool r := by
  by_cases hfull : ks.length = P
  · obtain ⟨y, rest, hpool⟩ := List.exists_cons_of_ne_nil (hspare hfull)
    obtain ⟨k, tl, hdrop, hcat, htake, htail⟩ := middle hP hfull
    have hclen := fence_length hf
    have hctake : (cs.take (P / 2 + 1)).length = (ks.take (P / 2)).length + 1 := by
      rw [htake]; simp; omega
    have hf' : Fence (WF P (minKeys P) h) lo (ks.take (P / 2) ++ k :: tl)
        (cs.take (P / 2 + 1) ++ cs.drop (P / 2 + 1)) hi := by
      rw [hcat, List.take_append_drop]
      exact hf
    have hcut := (fence_append_right hctake).1 hf'
    refine ⟨_, by simp only [splitInternal, hfull, if_true, takeSpare, hpool, hdrop]; rfl, rfl,
      by simp [nodes, ← flatMap_append], ?_⟩
    refine ⟨rfl, ?_, ?_, ?_, ?_, fun _ => hfull⟩
    · simp only [seps, nodes, Option.map_some, Option.toList_some,
        Option.isSome_some, if_true, fence_cons, fence_single]
      refine ⟨⟨?_, ?_, hcut.1⟩, ⟨?_, ?_, hcut.2⟩⟩
      · rw [htake]; unfold minKeys maxKeys; omega
      · rw [htake]; unfold maxKeys; omega
      · unfold minKeys maxKeys; omega
      · unfold maxKeys; omega
    · simp [nodes, ← flatMap_append]
    · simp only [nodes, Option.map_some, Option.toList_some, flatMap_cons,
        List.flatMap_nil, addrs_internal, List.append_nil, hpool]
      conv_rhs => rw [← List.take_append_drop (P / 2 + 1) cs, flatMap_append]
      simp only [List.cons_append, List.append_assoc]
      exact List.Perm.cons _ (List.Perm.append_left _ List.perm_middle.symm)
    · simp [hpool, hfull]
  · refine ⟨_, by simp only [splitInternal, hfull, if_false]; rfl, rfl, by simp [nodes], ?_⟩
    refine ⟨rfl, (fence_whole rfl).2 ?_, by simp [nodes], by simp [nodes], by simp [hfull], by simp⟩
    exact ⟨hm, by unfold maxKeys; omega, hf⟩

/-! ## The recursion -/

/-- `search_lower_bound` on the keys of a sorted leaf. -/
theorem leaf_split (P : Nat) (hs : Sorted es) (key : K) :
    ∃ S T, es = S ++ T ∧ S.length = searchLowerBound P (es.map Prod.fst) key ∧
      (∀ e ∈ S, e.1 < key) ∧ ∀ e ∈ T, key ≤ e.1 := by
  obtain ⟨S', T', hcat, hlen, hS, hT⟩ := searchLowerBound_split P hs.map_fst key
  obtain ⟨S, T, rfl, rfl, rfl⟩ := List.map_eq_append_iff.1 hcat
  refine ⟨S, T, rfl, by simpa using hlen, fun e he => hS e.1 (List.mem_map_of_mem he),
    fun e he => hT e.1 (List.mem_map_of_mem he)⟩

/-- A new entry goes between the smaller and the larger ones. -/
theorem sorted_insert {S T : List (K × V)} (hs : Sorted (S ++ T)) (val : V)
    (hS : ∀ e ∈ S, e.1 < key) (hT : ∀ e ∈ T, key < e.1) : Sorted (S ++ (key, val) :: T) := by
  obtain ⟨hs₁, hs₂, hs₁₂⟩ := pairwise_append.1 hs
  refine pairwise_append.2 ⟨hs₁, pairwise_cons.2 ⟨hT, hs₂⟩, fun x hx y hy => ?_⟩
  rcases mem_cons.1 hy with rfl | hy
  · exact hS x hx
  · exact hs₁₂ x hx y hy

theorem insertRecursive_leaf (hP : 3 ≤ P) {val : V} {pool : Pool} (hw : WF P m 0 lo hi (.leaf a es))
    (hkey : InRange lo hi key)
    (hspares : cascade P (descentCounts P key (.leaf a es)) ≤ pool.spares.length) :
    ∃ r, insertRecursive P key val (.leaf a es) pool = some r ∧
    InsertOk P m 0 lo hi key val (.leaf a es) pool r := by
  obtain ⟨hlt, hs, hr, hm, hmax⟩ := hw
  obtain ⟨S, T, rfl, hidx, hS, hT⟩ := leaf_split P hs key
  have hneed : cascade P (descentCounts P key (.leaf a (S ++ T))) = if (S ++ T).length =
      maxKeys P then 1 else 0 := by
    rw [descentCounts, cascade_cons]
    simp [cascade]
  have hinside : ∀ {T' : List (K × V)}, T' ⊆ T → ∀ e ∈ S ++ (key, val) :: T',
      InRange lo hi e.1 := by
    intro T' hsub e he
    simp only [mem_append, mem_cons] at he
    rcases he with he | rfl | he
    · exact hr e (by simp [he])
    · exact hkey
    · exact hr e (by simp [hsub he])
  -- The key is absent: it goes in between `S` and `T`, and the leaf may fill up.
  have hnew : (∀ e ∈ T, key < e.1) → ∃ r, splitLeaf P a (S ++ (key, val) :: T) pool = some r ∧
        InsertOk P m 0 lo hi key val (.leaf a (S ++ T)) pool r := by
    intro hT'
    have hlen : (S ++ (key, val) :: T).length = (S ++ T).length + 1 := by simp; omega
    obtain ⟨r, hr', hchain, hok⟩ := splitLeaf_ok (a := a) (m := m) hP pool hlt
      (sorted_insert hs val hS hT') (hinside (List.Subset.refl T)) (by omega)
      (by unfold maxKeys at hmax; omega) (fun hfull => by
        rw [hneed, if_pos (by unfold maxKeys; omega)] at hspares
        intro hnil
        simp [hnil] at hspares)
    have hsplits : r.split.isSome → (S ++ T).length = maxKeys P := fun hsome => by
      have := hok.splits hsome
      unfold maxKeys; omega
    refine ⟨r, hr', hok.fence, ?_, ?_, ?_, by simpa using hok.addrs, by simpa using hchain, ?_, ?_⟩
    · intro e
      rw [hok.entries]
      simp only [mem_append, mem_cons, entries_leaf]
      constructor
      · rintro (he | rfl | he)
        · exact .inr ⟨.inl he, (hS e he).ne⟩
        · exact .inl rfl
        · exact .inr ⟨.inr he, (hT' e he).ne'⟩
      · rintro (rfl | ⟨he | he, -⟩)
        · exact .inr (.inl rfl)
        · exact .inl he
        · exact .inr (.inr he)
    · rw [hok.entries, hok.isNew, hlen]
      simp
    · intro hold
      rw [hok.isNew] at hold
      contradiction
    · have hsp := hok.spares
      rw [hneed]
      by_cases hfull : (S ++ T).length = maxKeys P
      · rw [if_pos (by unfold maxKeys at hfull; omega)] at hsp
        rw [if_pos hfull]
        omega
      · rw [if_neg (by unfold maxKeys at hfull; omega)] at hsp
        rw [if_neg hfull]
        omega
    · intro hsome
      rw [hneed, if_pos (hsplits hsome), descentCounts]
      rfl
  rw [insertRecursive]
  simp only [← hidx, insertIdx_append_length]
  cases T with
  | nil =>
    simp only [List.append_nil, List.getElem?_length] at hnew ⊢
    exact hnew (by simp)
  | cons e T =>
    simp only [getElem?_append_length, set_append_length]
    have hlater : ∀ x ∈ T, e.1 < x.1 := (pairwise_cons.1 (pairwise_append.1 hs).2.1).1
    by_cases hk : e.1 = key
    · -- The key is present: only its value changes.
      rw [if_pos hk]
      refine ⟨_, rfl, (fence_whole rfl).2 ?_, ?_, by simp [nodes], fun _ => rfl,
        by simp [nodes], .inl ⟨by simp [nodes], rfl⟩, by simp, by simp⟩
      · have hrest : Sorted (S ++ T) := hs.sublist ((List.sublist_cons_self e T).append_left S)
        exact ⟨hlt, sorted_insert hrest val hS fun y hy => hk ▸ hlater y hy,
          hinside (List.subset_cons_self e T), by simpa using hm, by simpa using hmax⟩
      · intro x
        simp only [nodes, Option.map_none, Option.toList_none, flatMap_cons,
          List.flatMap_nil, entries_leaf, List.append_nil, mem_append, mem_cons]
        constructor
        · rintro (hx | rfl | hx)
          · exact .inr ⟨.inl hx, (hS x hx).ne⟩
          · exact .inl rfl
          · exact .inr ⟨.inr (.inr hx), fun heq => absurd (hlater x hx) (by rw [heq, hk]; simp)⟩
        · rintro (rfl | ⟨hx | rfl | hx, hne⟩)
          · exact .inr (.inl rfl)
          · exact .inl hx
          · exact absurd hk hne
          · exact .inr (.inr hx)
    · rw [if_neg hk]
      refine hnew (fun x hx => ?_)
      rcases mem_cons.1 hx with rfl | hx'
      · exact lt_of_le_of_ne (hT x hx) (Ne.symm hk)
      · exact (hT e (by simp)).trans_lt (hlater x hx')

theorem descentCounts_internal (key : K) (a : Nat) (ks : List K) (cs : List (Node K V)) :
    descentCounts P key (.internal a ks cs) =
      ks.length :: cs[searchUpperBound P ks key]?.elim [] (descentCounts P key) := by
  rw [descentCounts]
  split <;> simp [*]

theorem insertRecursive_internal (key : K) (val : V) (a : Nat) (ks : List K) (cs : List (Node K V))
    (pool : Pool) : insertRecursive P key val (.internal a ks cs) pool =
      cs[searchUpperBound P ks key]?.bind fun child =>
        (insertRecursive P key val child pool).bind fun r =>
        let idx := searchUpperBound P ks key
        if r.isNew = false then
          some { r with node := .internal a ks (cs.set idx r.node), split := none }
        else match r.split with
          | none => splitInternal P a ks (cs.set idx r.node) r.pool
          | some (k, right) => splitInternal P a (ks.insertIdx idx k)
              ((cs.set idx r.node).insertIdx (idx + 1) right) r.pool := by
  rw [insertRecursive]
  split
  · simp [*]
  · rename_i child hchild
    rw [hchild, Option.bind_some]
    cases insertRecursive P key val child pool <;> rfl

/-- The parent's step: put the result for one child in its place and split if that filled the
node. -/
theorem insertRecursive_ok (hP : 3 ≤ P) (val : V) :
    ∀ {h m : Nat} {lo hi : Option K} {n : Node K V} (pool : Pool), WF P m h lo hi n →
      InRange lo hi key → cascade P (descentCounts P key n) ≤ pool.spares.length →
      ∃ r, insertRecursive P key val n pool = some r ∧ InsertOk P m h lo hi key val n pool r := by
  intro h
  induction h with
  | zero =>
    intro m lo hi n pool hw hkey hspares
    obtain ⟨a, es, rfl⟩ := hw.eq_leaf
    exact insertRecursive_leaf hP hw hkey hspares
  | succ h ih =>
    intro m lo hi n pool hw hkey hspares
    obtain ⟨a, ks, cs, rfl⟩ := hw.eq_internal
    obtain ⟨hm, hmax, hf⟩ := hw
    obtain ⟨S, T, A, c, B, rfl, rfl, hidx, hA, hB, hrange, hc, hctx, hleft, hright⟩ :=
      fence_route (fun _ _ _ hc => hc.holds) hf P hkey
    have hchild : (A ++ c :: B)[searchUpperBound P (S ++ T) key]? = some c := by
      rw [← hidx, ← hA]
      exact getElem?_append_length A c B
    have hcounts : descentCounts P key (.internal a (S ++ T) (A ++ c :: B)) =
        (S ++ T).length :: descentCounts P key c := by
      rw [descentCounts_internal, hchild, Option.elim_some]
    rw [hcounts, cascade_cons] at hspares
    obtain ⟨r, hr, hok⟩ := ih pool hc hrange (by
      refine le_trans ?_ hspares
      split <;> omega)
    have hother : ∀ e ∈ A.flatMap entries ++ B.flatMap entries, e.1 ≠ key := by
      intro e he
      rcases mem_append.1 he with he | he
      · exact (hleft e he).ne
      · exact (hright e he).ne'
    -- the contents of the rebuilt node, whatever becomes of it
    have hmem : ∀ e, e ∈ (A ++ (r.nodes ++ B)).flatMap entries ↔ e = (key, val) ∨
          (e ∈ (internal a (S ++ T) (A ++ c :: B)).entries ∧ e.1 ≠ key) := by
      intro e
      simp only [flatMap_append, mem_append, hok.mem, entries_internal, flatMap_cons]
      constructor
      · rintro (he | (rfl | ⟨he, hne⟩) | he)
        · exact .inr ⟨.inl he, hother e (by simp [he])⟩
        · exact .inl rfl
        · exact .inr ⟨.inr (.inl he), hne⟩
        · exact .inr ⟨.inr (.inr he), hother e (by simp [he])⟩
      · rintro (rfl | ⟨he | he | he, hne⟩)
        · exact .inr (.inl (.inl rfl))
        · exact .inl he
        · exact .inr (.inl (.inr ⟨he, hne⟩))
        · exact .inr (.inr he)
    have hlength : ((A ++ (r.nodes ++ B)).flatMap entries).length =
        (internal a (S ++ T) (A ++ c :: B)).entries.length + (if r.isNew then 1 else 0) := by
      simp only [flatMap_append, List.length_append, hok.length, entries_internal, flatMap_cons]
      omega
    have haddrs : (a :: (A ++ (r.nodes ++ B)).flatMap addrs ++ r.pool.spares).Perm
        ((internal a (S ++ T) (A ++ c :: B)).addrs ++ pool.spares) := by
      simp only [flatMap_append, addrs_internal, flatMap_cons, List.cons_append, List.append_assoc]
      refine List.Perm.cons _ (List.Perm.append_left _ ?_)
      have h₁ := List.Perm.append_right (B.flatMap addrs) hok.addrs
      have h₂ : ∀ X Y Z : List Nat, (X ++ (Y ++ Z)).Perm (X ++ Z ++ Y) := fun X Y Z => by
        rw [List.append_assoc]
        exact List.Perm.append_left _ List.perm_append_comm
      exact (h₂ _ _ _).trans (h₁.trans (h₂ _ _ _).symm)
    have hchain : ChainStep pool.spares (internal a (S ++ T) (A ++ c :: B)).leaves pool.links
        ((A ++ (r.nodes ++ B)).flatMap leaves) r.pool.links := by
      have := hok.chain.context (A.flatMap leaves) (B.flatMap leaves)
      simpa using this
    have hsetIdx : (A ++ c :: B).set (searchUpperBound P (S ++ T) key) r.node =
        A ++ r.node :: B := by
      rw [← hidx, ← hA]
      exact set_append_length A c r.node B
    rw [insertRecursive_internal, hchild, Option.bind_some, hr, Option.bind_some]
    by_cases hisNew : r.isNew = false
    · -- overwritten further down: nothing splits
      have hsplit := hok.old hisNew
      have hnodes : r.nodes = [r.node] := by simp [nodes, hsplit]
      have hrebuilt := hctx [] [r.node] ((fence_single ..).2 ((fence_whole hsplit).1 hok.fence))
      refine ⟨{ r with node := .internal a (S ++ T) (A ++ r.node :: B), split := none }, ?_, ?_⟩
      · simp only [hisNew, if_true, hsetIdx]
      · rw [hnodes] at hmem hlength haddrs hchain
        refine ⟨(fence_whole rfl).2 ⟨hm, hmax, by simpa using hrebuilt⟩, ?_, ?_, fun _ => rfl, ?_,
          ?_, ?_, by simp⟩
        · simpa [nodes] using hmem
        · simpa [nodes] using hlength
        · simpa [nodes] using haddrs
        · simpa [nodes] using hchain
        · have := hok.spares
          rw [hcounts, cascade_cons]
          split <;> simp only <;> omega
    · have hchildFence :
          Fence (WF P (minKeys P) h) (S.getLast?.or lo) r.seps r.nodes (T.head?.or hi) := by
        have := hok.fence
        split at this <;> exact this
      have hrebuilt := hctx r.seps r.nodes hchildFence
      have hklen : (S ++ (r.seps ++ T)).length = (S ++ T).length +
          (if r.split.isSome then 1 else 0) := by
        simp only [seps, List.length_append]
        cases r.split <;> simp
        omega
      -- the node fills up only if it was full and its child was split
      have hgrow : (S ++ (r.seps ++ T)).length = P →
          cascade P (descentCounts P key c) = (descentCounts P key c).length ∧
          (S ++ T).length = maxKeys P := by
        intro hfull
        have hsome : r.split.isSome := by
          by_contra hnone
          rw [if_neg hnone] at hklen
          unfold maxKeys at hmax
          omega
        rw [if_pos hsome] at hklen
        exact ⟨hok.cascades hsome, by unfold maxKeys; omega⟩
      have hspares' : (S ++ (r.seps ++ T)).length = P → r.pool.spares ≠ [] := by
        intro hfull hnil
        have hsp := hok.spares
        rw [hnil, List.length_nil] at hsp
        rw [if_pos (hgrow hfull)] at hspares
        omega
      obtain ⟨r', hr', hlinks, hleaves, hok'⟩ := splitInternal_ok (a := a) (m := m) hP hrebuilt
        (by rw [hklen]; omega) (by unfold maxKeys at hmax; rw [hklen]; split <;> omega) hspares'
      refine ⟨r', ?_, ?_⟩
      · simp only [hisNew, hsetIdx]
        rw [← hr']
        cases hsp : r.split with
        | none => simp [seps, nodes, hsp]
        | some kr =>
          obtain ⟨k, right⟩ := kr
          have h₁ : (S ++ T).insertIdx (searchUpperBound P (S ++ T) key) k = S ++ k :: T := by
            rw [← hidx]
            exact insertIdx_append_length S T k
          have h₂ : (A ++ r.node :: B).insertIdx (searchUpperBound P (S ++ T) key + 1) right
              = A ++ r.node :: right :: B := by
            have := insertIdx_append_length (A ++ [r.node]) B right
            simpa [← hidx, ← hA] using this
          simp [seps, nodes, hsp, h₁, h₂]
      · have hnew : r.isNew = true := by simpa using hisNew
        refine ⟨hok'.fence, ?_, ?_, ?_, hok'.addrs.trans haddrs, ?_, ?_, ?_⟩
        · rw [hok'.entries]
          exact hmem
        · rw [hok'.entries, hok'.isNew, hlength, hnew]
        · intro hold
          rw [hok'.isNew] at hold
          contradiction
        · rw [hlinks, hleaves]
          exact hchain
        · have h₁ := hok'.spares
          have h₂ := hok.spares
          rw [hcounts, cascade_cons]
          by_cases hfull : (S ++ (r.seps ++ T)).length = P
          · rw [if_pos (hgrow hfull)]
            rw [if_pos hfull] at h₁
            omega
          · rw [if_neg hfull] at h₁
            split <;> omega
        · intro hsome
          obtain ⟨h₁, h₂⟩ := hgrow (hok'.splits hsome)
          rw [hcounts, cascade_cons, if_pos ⟨h₁, h₂⟩, h₁]
          simp

end Insert

end Erebus.BPlusTree
