import Erebus.Utils.BPlusTree.Erase

/-!
# The B+ tree refines a finite map

* `Inv P t`: the invariant of a whole tree between two operations, and one lemma per operation
  saying that it keeps it and what it does to the entries: `insert_ok`, `erase_ok`, `clear_ok`.
* `Structured P t`: the same invariant spelled out node by node: depth of the leaves, occupancy,
  order of keys and separators, the leaf chain in both directions.
* `Run P t m`: the trees `t` reachable by any sequence of operations, with the map `m` that the
  successful ones build up.
-/

namespace Erebus.BPlusTree

open DList (Links Seg)

/-! ## The invariant, node by node -/

section

variable {K V : Type}

namespace Node

/-- `c` stands somewhere below the node. -/
inductive Descends : Node K V → Node K V → Prop
  | child {a : Nat} {ks : List K} {cs : List (Node K V)} {c : Node K V} (hc : c ∈ cs) :
      Descends c (.internal a ks cs)
  | deeper {a : Nat} {ks : List K} {cs : List (Node K V)} {c n : Node K V} (hc : c ∈ cs)
      (hn : Descends n c) : Descends n (.internal a ks cs)

/-- How far below a node its leaves are, from left to right. -/
def leafDepths : Node K V → List Nat
  | .leaf _ _ => [0]
  | .internal _ _ cs => (cs.flatMap leafDepths).map (· + 1)

/-- The keys of a node and of everything below it, separators included. -/
def keysBelow : Node K V → List K
  | .leaf _ es => es.map Prod.fst
  | .internal _ ks cs => ks ++ cs.flatMap keysBelow

/-- The keys of one node increase, and its separators bound the children around them. -/
def Ordered [LinearOrder K] : Node K V → Prop
  | .leaf _ es => (es.map Prod.fst).Pairwise (· < ·)
  | .internal _ ks cs =>
    cs.length = ks.length + 1 ∧ ks.Pairwise (· < ·) ∧ ∀ (i : Nat) (k : K) (c : Node K V),
      ks[i]? = some k →
        (cs[i]? = some c → ∀ x ∈ c.keysBelow, x < k) ∧
        (cs[i + 1]? = some c → ∀ x ∈ c.keysBelow, k ≤ x)

@[simp] theorem leafDepths_leaf (a : Nat) (es : List (K × V)) : (leaf a es).leafDepths = [0] := by
  rw [leafDepths]

@[simp] theorem leafDepths_internal (a : Nat) (ks : List K) (cs : List (Node K V)) :
    (internal a ks cs).leafDepths = (cs.flatMap leafDepths).map (· + 1) := by
  rw [leafDepths]

@[simp] theorem keysBelow_leaf (a : Nat) (es : List (K × V)) :
    (leaf a es).keysBelow = es.map Prod.fst := by
  rw [keysBelow]

@[simp] theorem keysBelow_internal (a : Nat) (ks : List K) (cs : List (Node K V)) :
    (internal a ks cs).keysBelow = ks ++ cs.flatMap keysBelow := by
  rw [keysBelow]

/-- The parts of a node tile its entries. -/
theorem flatMap_parts (cs : List (Node K V)) :
    (cs.flatMap parts).flatMap Prod.snd = cs.flatMap entries := by
  rw [List.flatMap_assoc]
  exact List.flatMap_congr fun c _ => parts_entries c
where
  parts_entries : ∀ n : Node K V, n.parts.flatMap Prod.snd = n.entries
    | .leaf a es => by simp
    | .internal a ks cs => by
      rw [parts_internal, entries_internal, List.flatMap_assoc]
      exact List.flatMap_congr fun c hc => parts_entries c

/-- A leaf is a node: its address is one of the addresses of the subtree. -/
theorem leaves_sublist_addrs : ∀ n : Node K V, n.leaves.Sublist n.addrs
  | .leaf a es => by simp
  | .internal a ks cs => by
    rw [leaves_internal, addrs_internal]
    apply List.Sublist.cons
    exact List.Sublist.flatMap_right cs fun c hc => leaves_sublist_addrs c
termination_by n => n
decreasing_by
  have hmem := List.sizeOf_lt_of_mem hc
  simp only [internal.sizeOf_spec]
  omega

end Node

variable {Q : Option K → Option K → Node K V → Prop} {P m h : Nat} {lo hi : Option K} {ks : List K}
  {cs : List (Node K V)} {n c : Node K V}

/-- The children on both sides of a separator are bounded by it. -/
theorem fence_around (h : Fence Q lo ks cs hi) {i : Nat} {k : K} (hk : ks[i]? = some k) :
    (cs[i]? = some c → ∃ lo', Q lo' (some k) c) ∧
    (cs[i + 1]? = some c → ∃ hi', Q (some k) hi' c) := by
  obtain ⟨hlt, rfl⟩ := List.getElem?_eq_some_iff.1 hk
  have hks : ks = ks.take i ++ ks[i] :: ks.drop (i + 1) := by
    rw [← List.drop_eq_getElem_cons hlt, List.take_append_drop]
  have hi : (ks.take i).length = i := List.length_take_of_le hlt.le
  rw [hks] at h
  obtain ⟨A, x, B, rfl, hA, hB⟩ := fence_split_at h
  obtain ⟨y, B, rfl⟩ := List.exists_cons_of_length_eq_add_one hB
  obtain ⟨hx, hy, -⟩ := fence_pair hA h
  obtain ⟨hgetx, hgety, -⟩ := pair_at (B := B) hA x y
  rw [hi] at hgetx hgety
  rw [hgetx, hgety]
  constructor
  · rintro ⟨⟩
    exact ⟨_, hx⟩
  · rintro ⟨⟩
    exact ⟨_, hy⟩

variable [LinearOrder K]

/-- Every child of a well formed node is well formed, within bounds inside those of the node. -/
theorem WF.child (hf : Fence (WF P m h) lo ks cs hi) (hc : c ∈ cs) :
    ∃ lo' hi', WF P m h lo' hi' c ∧ ∀ x, InRange lo' hi' x → InRange lo hi x := by
  induction ks generalizing lo cs with
  | nil =>
    match cs, hf with
    | [c'], hf =>
      rw [List.mem_singleton] at hc
      exact ⟨lo, hi, hc ▸ hf, fun _ hx => hx⟩
  | cons k ks ih =>
    cases cs with
    | nil => exact hf.elim
    | cons c' cs =>
      obtain ⟨hfirst, hrest⟩ := (fence_cons lo hi k ks c' cs).1 hf
      rcases List.mem_cons.1 hc with rfl | hc
      · have hhi := (fence_holds (fun _ _ _ hc => hc.holds) hrest).1
        exact ⟨lo, some k, hfirst, fun x hx => hx.weaken_right hhi⟩
      · obtain ⟨lo', hi', hwc, hrange⟩ := ih hrest hc
        exact ⟨lo', hi', hwc, fun x hx => (hrange x hx).weaken_left hfirst.holds.1⟩

variable (hw : WF P m h lo hi n)
include hw

/-- Separators lie inside the bounds too, not only the keys of the leaves. -/
theorem WF.keysBelow_inRange : ∀ x ∈ n.keysBelow, InRange lo hi x := by
  induction h generalizing m lo hi n with
  | zero =>
    obtain ⟨a, es, rfl⟩ := hw.eq_leaf
    intro x hx
    simp only [Node.keysBelow_leaf, List.mem_map] at hx
    obtain ⟨e, he, rfl⟩ := hx
    exact hw.2.2.1 e he
  | succ h ih =>
    obtain ⟨a, ks, cs, rfl⟩ := hw.eq_internal
    have hfence := hw.2.2
    obtain ⟨-, -, hsep, -, -⟩ := fence_holds (fun _ _ _ hc => hc.holds) hfence
    intro x hx
    simp only [Node.keysBelow_internal, List.mem_append] at hx
    rcases hx with hx | hx
    · exact ⟨fun l hl => ((hsep x hx).1 l hl x rfl).le, fun b hb => (hsep x hx).2 x rfl b hb⟩
    · obtain ⟨c, hc, hx⟩ := List.mem_flatMap.1 hx
      obtain ⟨lo', hi', hwc, hrange⟩ := WF.child hfence hc
      exact hrange x (ih hwc x hx)

theorem WF.leafDepths_eq : ∀ d ∈ n.leafDepths, d = h := by
  induction h generalizing m lo hi n with
  | zero =>
    obtain ⟨a, es, rfl⟩ := hw.eq_leaf
    simp
  | succ h ih =>
    obtain ⟨a, ks, cs, rfl⟩ := hw.eq_internal
    intro d hd
    simp only [Node.leafDepths_internal, List.mem_map, List.mem_flatMap] at hd
    obtain ⟨d', ⟨c, hc, hd'⟩, rfl⟩ := hd
    obtain ⟨lo', hi', hwc, -⟩ := WF.child hw.2.2 hc
    rw [ih hwc d' hd']

/-- Everything below a well formed node is well formed, and at least half full. -/
theorem WF.descends (hc : c.Descends n) : ∃ h' lo' hi', WF P (minKeys P) h' lo' hi' c := by
  induction hc generalizing m h lo hi with
  | child hc =>
    cases h with
    | zero => exact hw.elim
    | succ h =>
      obtain ⟨lo', hi', hwc, -⟩ := WF.child hw.2.2 hc
      exact ⟨h, lo', hi', hwc⟩
  | deeper hc _ ih =>
    cases h with
    | zero => exact hw.elim
    | succ h =>
      obtain ⟨lo', hi', hwc, -⟩ := WF.child hw.2.2 hc
      exact ih hwc

theorem WF.ordered : n.Ordered := by
  match h, n, hw with
  | 0, .leaf a es, hw => exact hw.2.1.map_fst
  | h + 1, .internal a ks cs, hw =>
    have hfence := hw.2.2
    obtain ⟨-, hks, -, -, -⟩ := fence_holds (fun _ _ _ hc => hc.holds) hfence
    refine ⟨fence_length hfence, hks, fun i k c hk => ?_⟩
    obtain ⟨hbefore, hafter⟩ := fence_around (c := c) hfence hk
    constructor
    · intro hc x hx
      obtain ⟨lo', hwc⟩ := hbefore hc
      exact (inRange_some_right.1 (hwc.keysBelow_inRange x hx)).2
    · intro hc x hx
      obtain ⟨hi', hwc⟩ := hafter hc
      exact (inRange_some_left.1 (hwc.keysBelow_inRange x hx)).1

omit hw

end

/-! ## Lookups -/

section

variable {K V : Type} [LinearOrder K] {P m h : Nat} {lo hi : Option K} {n : Node K V}
  {t : BPlusTree K V}

/-- **Every descent** ends at a leaf between what is left and what is right of the separators it
chose. -/
theorem descend_ok (hw : WF P m h lo hi n) {idx : List K → Nat} {left right : K → Prop}
    (hidx : ∀ ks : List K, ks.Pairwise (· < ·) →
      ∃ S T, ks = S ++ T ∧ S.length = idx ks ∧ (∀ k ∈ S, left k) ∧ ∀ k ∈ T, right k) :
    ∃ a es A B, descend idx n = some (a, es) ∧ Sorted es ∧ n.parts = A ++ (a, es) :: B ∧
      (∀ e ∈ A.flatMap Prod.snd, ∃ k, left k ∧ e.1 < k) ∧
      ∀ e ∈ B.flatMap Prod.snd, ∃ k, right k ∧ k ≤ e.1 := by
  induction h generalizing m lo hi n with
  | zero =>
    obtain ⟨a, es, rfl⟩ := hw.eq_leaf
    exact ⟨a, es, [], [], by rw [descend], hw.2.1, by simp, by simp, by simp⟩
  | succ h ih =>
    obtain ⟨a, ks, cs, rfl⟩ := hw.eq_internal
    have hQ : ∀ a b (c : Node K V), WF P (minKeys P) h a b c → Holds a b c :=
      fun _ _ _ hc => hc.holds
    obtain ⟨S, T, rfl, hlen, hS, hT⟩ := hidx ks (fence_holds hQ hw.2.2).2.1
    obtain ⟨A, c, B, rfl, hA, hB⟩ := fence_split_at hw.2.2
    have hc := (fence_window (M := []) (C := [c]) hA rfl (by simpa using hw.2.2)).1
    obtain ⟨a', es, A', B', hfind, hs, hparts, hleft, hright⟩ := ih hc
    have hchild : (A ++ c :: B)[idx (S ++ T)]? = some c := by
      rw [← hlen, ← hA]
      exact getElem?_append_length A c B
    refine ⟨a', es, A.flatMap Node.parts ++ A', B' ++ B.flatMap Node.parts, ?_,
      hs, by simp [hparts], ?_, ?_⟩
    · rw [descend]
      grind
    · intro e he
      rw [List.flatMap_append, List.mem_append, Node.flatMap_parts] at he
      rcases he with he | he
      · obtain ⟨k, hk, hlt⟩ := fence_before hQ hw.2.2 hA e he
        exact ⟨k, hS k hk, hlt⟩
      · exact hleft e he
    · intro e he
      rw [List.flatMap_append, List.mem_append, Node.flatMap_parts] at he
      rcases he with he | he
      · exact hright e he
      · obtain ⟨k, hk, hle⟩ := fence_after hQ hw.2.2 hA hB e he
        exact ⟨k, hT k hk, hle⟩

theorem findLeaf_eq_descend (P : Nat) (key : K) (n : Node K V) :
    findLeaf P key n = descend (searchUpperBound P · key) n := by
  fun_induction findLeaf P key n with
  | case1 => rw [descend]
  | case2 addr ks cs hnone =>
    rw [descend]
    grind
  | case3 addr ks cs child hchild ih =>
    rw [descend]
    grind

/-- `find_leaf` ends at the one leaf that may hold the key: what is left of it is smaller and what
is right of it greater. -/
theorem findLeaf_ok (hw : WF P m h lo hi n) (key : K) :
    ∃ a es A B, findLeaf P key n = some (a, es) ∧ Sorted es ∧ n.parts = A ++ (a, es) :: B ∧
      (∀ e ∈ A.flatMap Prod.snd, e.1 < key) ∧ ∀ e ∈ B.flatMap Prod.snd, key < e.1 := by
  obtain ⟨a, es, A, B, hfind, hs, hparts, hleft, hright⟩ :=
    descend_ok hw fun ks hks => searchUpperBound_split P hks key
  rw [← findLeaf_eq_descend] at hfind
  refine ⟨a, es, A, B, hfind, hs, hparts, fun e he => ?_, fun e he => ?_⟩
  · obtain ⟨k, hk, hlt⟩ := hleft e he
    exact hlt.trans_le hk
  · obtain ⟨k, hk, hle⟩ := hright e he
    exact hk.trans_le hle

/-- The lower bound of a key in a sorted leaf is the entry with that key, if there is one. -/
theorem lowerBound_entry (P : Nat) {es : List (K × V)} (hs : Sorted es) (key : K) :
    (∃ e, es[searchLowerBound P (es.map Prod.fst) key]? = some e ∧ e ∈ es ∧ e.1 = key) ∨
      ((∀ e, es[searchLowerBound P (es.map Prod.fst) key]? = some e → e.1 ≠ key) ∧
        ∀ e ∈ es, e.1 ≠ key) := by
  obtain ⟨S, T, rfl, hidx, hS, hT⟩ := leaf_split P hs key
  rw [← hidx]
  cases T with
  | nil =>
    refine .inr ⟨fun e he => ?_, fun e he => (hS e (by simpa using he)).ne⟩
    simp at he
  | cons f T =>
    simp only [getElem?_append_length, Option.some.injEq, forall_eq']
    by_cases hf : f.1 = key
    · exact .inl ⟨f, rfl, by simp, hf⟩
    · refine .inr ⟨hf, fun e he => ?_⟩
      simp only [List.mem_append, List.mem_cons] at he
      rcases he with he | rfl | he
      · exact (hS e he).ne
      · exact hf
      · have hfe := (List.pairwise_cons.1 (List.pairwise_append.1 hs).2.1).1 e he
        exact ((hT f (by simp)).trans_lt hfe).ne'

/-- All entries of a tree, in key order. -/
def entries (t : BPlusTree K V) : List (K × V) :=
  t.root.elim [] Node.entries

/-- The addresses of its nodes. -/
def addrs (t : BPlusTree K V) : List Nat :=
  t.root.elim [] Node.addrs

/-- The invariant of a tree between two operations. -/
structure Inv (P : Nat) (t : BPlusTree K V) : Prop where
  spares : t.spares = []
  size : t.size = t.entries.length
  wf : ∀ root ∈ t.root, ∃ h, WF P 1 h none none root
  nodup : t.addrs.Nodup
  chain : ∀ root ∈ t.root, Seg t.links none root.leaves none

theorem inRange_none (k : K) : InRange none none k := by
  simp [InRange]

theorem Inv.sorted (ht : Inv P t) : Sorted t.entries := by
  cases hroot : t.root with
  | none => simp [entries, hroot, Sorted]
  | some root =>
    obtain ⟨h, hw⟩ := ht.wf root hroot
    simpa [entries, hroot] using hw.holds.2.1

/-- `get` finds exactly the entries. -/
theorem get_eq_some_iff (ht : Inv P t) (key : K) (val : V) :
    t.get P key = some val ↔ (key, val) ∈ t.entries := by
  cases hroot : t.root with
  | none => simp [get, entries, hroot]
  | some root =>
    obtain ⟨h, hw⟩ := ht.wf root hroot
    obtain ⟨a, es, A, B, hfind, hs, hparts, hleft, hright⟩ := findLeaf_ok hw key
    have hes : (key, val) ∈ root.entries ↔ (key, val) ∈ es := by
      rw [← Node.flatMap_parts.parts_entries root, hparts, List.flatMap_append, List.flatMap_cons,
        List.mem_append, List.mem_append]
      exact ⟨fun hin => hin.elim (fun hin => absurd (hleft _ hin) (lt_irrefl key)) fun hin =>
        hin.resolve_right fun hin => lt_irrefl key (hright _ hin), fun hin => .inr (.inl hin)⟩
    simp only [get, entries, hroot, hfind, Option.elim_some]
    rw [hes]
    rcases lowerBound_entry P hs key with ⟨e, hget, hmem, hek⟩ | ⟨hget, habsent⟩
    · rw [hget]
      simp only [if_pos hek, Option.some.injEq]
      constructor
      · rintro rfl
        rw [← hek]
        exact hmem
      · intro hin
        -- two entries with one key are one entry, since the keys increase strictly
        by_contra hne
        have hpair : ∀ x ∈ es, ∀ y ∈ es, x ≠ y → x.1 ≠ y.1 := by
          intro x hx y hy hxy
          exact List.Pairwise.forall_of_forall_of_flip (R := fun x y => x ≠ y → x.1 ≠ y.1)
            (by simp) (hs.imp fun hlt _ => hlt.ne) (hs.imp fun hlt _ => hlt.ne') hx hy hxy
        exact hpair e hmem (key, val) hin (fun heq => hne (by rw [heq])) hek
    · constructor
      · intro hsome
        split at hsome
        · rename_i e he
          rw [if_neg (hget e he)] at hsome
          contradiction
        · contradiction
      · intro hin
        exact absurd rfl (habsent (key, val) hin)

/-- `contains` is `get` without the value. -/
theorem contains_eq (t : BPlusTree K V) (key : K) : t.contains P key = (t.get P key).isSome := by
  unfold contains get
  cases t.root with
  | none => rfl
  | some root =>
    simp only
    cases findLeaf P key root with
    | none => rfl
    | some r =>
      obtain ⟨a, es⟩ := r
      simp only
      cases es[searchLowerBound P (es.map Prod.fst) key]? with
      | none => rfl
      | some e => by_cases hek : e.1 = key <;> simp [hek]

end

/-! ## The operations -/

section

variable {K V : Type} [LinearOrder K] {P m h : Nat} {n : Node K V} {t : BPlusTree K V}

/-- The loop of `insert` keeps the nodes of the answers it has used up. -/
theorem reserve_spec (n : Nat) (mem : List (Option Nat)) (spares : List Nat) :
    ∃ used, mem = used ++ (reserve n mem spares).2.2 ∧
      (reserve n mem spares).2.1 = (used.filterMap id).reverse ++ spares ∧
      ((reserve n mem spares).1 = true → (used.filterMap id).length = n) := by
  fun_induction reserve n mem spares with
  | case1 => exact ⟨[], by simp⟩
  | case2 needed a mem spares ih =>
    obtain ⟨used, hmem, hspares, hlen⟩ := ih
    have hcons : (some a :: used).filterMap id = a :: used.filterMap id :=
      List.filterMap_cons_some rfl
    refine ⟨some a :: used, by rw [List.cons_append, ← hmem], ?_, fun hok => ?_⟩
    · rw [hspares, hcons, List.reverse_cons, List.append_assoc, List.singleton_append]
    · rw [hcons, List.length_cons, hlen hok]
  | case3 => exact ⟨[none], by simp⟩
  | case4 => exact ⟨[], by simp⟩

/-- One leaf linked in behind another, at an address no leaf had. -/
theorem ChainStep.seg {spares l l' : List Nat} {L L' : Links Nat}
    (h : ChainStep spares l L l' L') (hseg : Seg L none l none) (hnd : (l ++ spares).Nodup) :
    Seg L' none l' none := by
  rcases h with ⟨rfl, rfl⟩ | ⟨A, x, y, B, rfl, rfl, rfl, hy⟩
  · exact hseg
  · have hnd' := List.nodup_append.1 hnd
    exact DList.insertAfter_seg hseg hnd'.1 fun hmem => hnd'.2.2 y hmem y hy rfl

/-- The tree an insertion leaves behind. -/
theorem elevateRoot_ok (hP : 3 ≤ P) {key : K} {val : V} {pool : Pool} {r : Inserted K V}
    (size : Nat) (hok : InsertOk P m h none none key val n pool r)
    (hfence : Fence (WF P (if r.split.isSome then minKeys P else 1) h) none r.seps r.nodes none)
    (hnd : (n.addrs ++ pool.spares).Nodup) (hseg : Seg pool.links none n.leaves none)
    (hspare : r.split.isSome → r.pool.spares ≠ [])
    (hsize : size = (r.nodes.flatMap Node.entries).length) :
    ∃ t', elevateRoot r size = some t' ∧ Inv P t'.releaseSpares.1 ∧
      t'.entries = r.nodes.flatMap Node.entries ∧
      (t'.addrs ++ t'.spares).Perm (n.addrs ++ pool.spares) := by
  have hnd' : (r.nodes.flatMap Node.addrs ++ r.pool.spares).Nodup := hok.addrs.nodup_iff.2 hnd
  have hleaves : (n.leaves ++ pool.spares).Nodup :=
    hnd.sublist (n.leaves_sublist_addrs.append (.refl _))
  have hseg' := hok.chain.seg hseg hleaves
  cases hsplit : r.split with
  | none =>
    have hnodes : r.nodes = [r.node] := by simp [Inserted.nodes, hsplit]
    have hseps : r.seps = [] := by simp [Inserted.seps, hsplit]
    simp only [hnodes, hseps, hsplit, Option.isSome_none, Bool.false_eq_true, if_false,
      fence_single, List.flatMap_cons, List.flatMap_nil,
      List.append_nil] at hfence hsize hnd' hseg' ⊢
    refine ⟨_, by simp only [elevateRoot, hsplit]; rfl, ?_, rfl, ?_⟩
    rotate_left
    · simpa [addrs, hnodes] using hok.addrs
    refine ⟨rfl, hsize, ?_, (List.nodup_append.1 hnd').1, ?_⟩
    · rintro _ ⟨⟩
      exact ⟨h, hfence⟩
    · rintro _ ⟨⟩
      exact hseg'
  | some kr =>
    obtain ⟨k, right⟩ := kr
    have hnodes : r.nodes = [r.node, right] := by simp [Inserted.nodes, hsplit]
    have hseps : r.seps = [k] := by simp [Inserted.seps, hsplit]
    obtain ⟨a, rest, hpool⟩ := List.exists_cons_of_ne_nil (hspare (by simp [hsplit]))
    simp only [hsplit, Option.isSome_some, if_true] at hfence
    rw [hseps] at hfence
    have hperm : (a :: r.nodes.flatMap Node.addrs ++ rest).Perm (n.addrs ++ pool.spares) := by
      have haddrs := hok.addrs
      rw [hpool] at haddrs
      exact List.perm_middle.symm.trans haddrs
    refine ⟨_, by simp only [elevateRoot, hsplit, takeSpare, hpool]; rfl, ?_, by
      simp [entries, hnodes], by simpa [addrs, hnodes] using hperm⟩
    refine ⟨rfl, by simp [releaseSpares, entries, hsize, hnodes], ?_, ?_, ?_⟩
    · rintro _ ⟨⟩
      rw [hnodes] at hfence
      exact ⟨h + 1, by simp, by unfold maxKeys; simp; omega, hfence⟩
    · -- the new root sits at a spare, which was nobody's address
      have hroot := (List.nodup_append.1 (hperm.nodup_iff.2 hnd)).1
      simpa [releaseSpares, addrs, hnodes] using hroot
    · rintro _ ⟨⟩
      simpa [releaseSpares, hnodes] using hseg'

/-- The allocator hands out addresses that are in use nowhere, the tree's own nodes included. -/
def FreshNodes (t : BPlusTree K V) (mem : List (Option Nat)) : Prop :=
  (mem.filterMap id ++ t.addrs).Nodup

/-- What `insert` does to the entries when it succeeds. -/
def Overwrites (es : List (K × V)) (key : K) (val : V) (es' : List (K × V)) : Prop :=
  ∀ e, e ∈ es' ↔ e = (key, val) ∨ (e ∈ es ∧ e.1 ≠ key)

section Reserved

variable (hP : 3 ≤ P) (ht : Inv P t) (key : K) {spares : List Nat}
  (hlen : spares.length = sparesNeeded P t.root key)
  (hdeep : sparesNeeded P t.root key ≤ maxSpareNodes)
include hP ht hlen hdeep

/-- Where an insert starts: in the root, or in an empty leaf at the one spare of a tree without a
root. -/
theorem ensureRoot_ok :
    ∃ m h n pool, ensureRoot { t with spares := spares } = some (n, pool) ∧ WF P m h none none n ∧
      (1 ≤ m ∨ h = 0) ∧ n.entries = t.entries ∧ n.addrs ++ pool.spares = t.addrs ++ spares ∧
      Seg pool.links none n.leaves none ∧
      pool.spares.length = cascade P (descentCounts P key n) +
        if cascade P (descentCounts P key n) = (descentCounts P key n).length then 1 else 0 := by
  cases hroot : t.root with
  | none =>
    simp only [hroot, sparesNeeded] at hlen
    obtain ⟨a, rfl⟩ := List.length_eq_one_iff.1 hlen
    have hempty : WF P 0 0 none none (Node.leaf a ([] : List (K × V))) :=
      ⟨by simp [Below], by simp [Sorted], by simp, by simp, by simp⟩
    -- the empty leaf cannot be full yet
    have hmax : ¬ 0 = maxKeys P := by unfold maxKeys; omega
    exact ⟨0, 0, _, _, rfl, hempty,
      .inr rfl, by simp [entries, hroot], by simp [addrs, hroot], by simp,
      by simp [descentCounts, cascade, hmax]⟩
  | some root =>
    obtain ⟨h, hw⟩ := ht.wf root hroot
    refine ⟨1, h, root, ⟨t.links, spares⟩, rfl, hw,
      .inl le_rfl, by simp [entries, hroot], by simp [addrs, hroot], ht.chain root hroot, ?_⟩
    rw [hroot] at hlen hdeep
    unfold sparesNeeded at hlen hdeep
    simp only at hlen hdeep
    rw [hlen]
    split
    · rename_i hlong
      rw [if_pos hlong] at hdeep
      omega
    · split <;> rfl

theorem insertReserved_ok (val : V) (hnd : (t.addrs ++ spares).Nodup) :
    ∃ t', insertReserved P { t with spares := spares } key val = some t' ∧
      Inv P t'.releaseSpares.1 ∧ Overwrites t.entries key val t'.entries ∧
      (t'.addrs ++ t'.spares).Perm (t.addrs ++ spares) := by
  obtain ⟨m, h, n, pool, hensure, hw, hm, hn, haddrs, hseg, hpool⟩ :=
    ensureRoot_ok hP ht key hlen hdeep
  obtain ⟨r, hr, hok⟩ := insertRecursive_ok hP val pool hw (inRange_none key) (by omega)
  have hspares := hok.spares
  have hlength := hok.length
  have hfence :
      Fence (WF P (if r.split.isSome then minKeys P else 1) h) none r.seps r.nodes none := by
    have hf := hok.fence
    cases hsplit : r.split with
    | some kr => simpa [hsplit] using hf
    | none =>
      have hmem : (key, val) ∈ r.nodes.flatMap Node.entries := (hok.mem _).2 (.inl rfl)
      simp only [Inserted.nodes, Inserted.seps, hsplit, Option.isSome_none,
        Bool.false_eq_true, if_false, List.flatMap_cons] at hf hmem ⊢
      rcases hm with hm | rfl
      · exact hf.mono (hm.trans hf.count_le.1)
      · cases hnode : r.node with
        | internal b ks cs =>
          rw [hnode] at hf
          exact hf.elim
        | leaf b es =>
          rw [hnode] at hf hmem
          exact hf.mono (List.length_pos_of_mem (by simpa using hmem))
  rw [← haddrs] at hnd ⊢
  obtain ⟨t', helev, hinv, hentries, hperm⟩ := elevateRoot_ok hP
    (if r.isNew then t.size + 1 else t.size) hok hfence hnd hseg
    (fun hsome hnil => by
      rw [if_pos (hok.cascades hsome)] at hpool
      rw [hnil, List.length_nil] at hspares
      omega)
    (by rw [hlength, ht.size, hn]
        split <;> rfl)
  refine ⟨t', ?_, hinv, fun e => ?_, hperm⟩
  · simp only [insertReserved, hensure, hr]
    exact helev
  · rw [hentries, hok.mem, hn]

end Reserved

/-- **`insert`** never fails an assertion. It returns `false` only with the tree as it was, and
every node it allocated is in the tree afterwards or was given back. -/
theorem insert_ok (hP : 3 ≤ P) (ht : Inv P t) (key : K) (val : V) (cache : Bool)
    {mem : List (Option Nat)} (hfresh : FreshNodes t mem) :
    ∃ r used, insert P t key val cache mem = some r ∧ mem = used ++ r.mem ∧ Inv P r.tree ∧
      (r.ok = false → r.tree = t) ∧ (r.ok = true → Overwrites t.entries key val r.tree.entries) ∧
      (r.ok = true → (used.filterMap id).length = sparesNeeded P t.root key) ∧
      (r.tree.addrs ++ r.freed).Perm (t.addrs ++ used.filterMap id) := by
  have hspares : { t with spares := [] } = t := by rw [← ht.spares]
  cases cache with
  | false =>
    exact ⟨_, [], rfl, rfl, ht, fun _ => rfl, Bool.noConfusion, Bool.noConfusion, .refl _⟩
  | true =>
    by_cases hdeep : maxSpareNodes < sparesNeeded P t.root key
    · exact ⟨_, [], by simp only [insert, hdeep]; rfl, rfl, ht, fun _ => rfl, Bool.noConfusion,
        Bool.noConfusion, .refl _⟩
    obtain ⟨used, hmem, hgot, hlen⟩ := reserve_spec (sparesNeeded P t.root key) mem []
    rcases hres : reserve (sparesNeeded P t.root key) mem [] with ⟨ok, spares, rest⟩
    rw [hres] at hmem hgot hlen
    have hperm : (t.addrs ++ spares).Perm (t.addrs ++ used.filterMap id) := by
      rw [show spares = _ from hgot, List.append_nil]
      exact (List.reverse_perm _).append_left t.addrs
    cases ok with
    | false =>
      refine ⟨⟨{ t with spares := [] }, false, spares, rest⟩, used, ?_, hmem, ?_⟩
      · simp [insert, hdeep, ht.spares, hres, releaseSpares]
      · rw [hspares]
        exact ⟨ht, fun _ => rfl, Bool.noConfusion, Bool.noConfusion, hperm⟩
    | true =>
      have hnd : (t.addrs ++ spares).Nodup := by
        rw [hperm.nodup_iff, List.perm_append_comm.nodup_iff]
        refine hfresh.sublist (List.Sublist.append ?_ (.refl _))
        rw [hmem, List.filterMap_append]
        exact List.sublist_append_left ..
      have hcount : spares.length = sparesNeeded P t.root key := by
        rw [show spares = _ from hgot, List.append_nil, List.length_reverse, hlen rfl]
      obtain ⟨t', hins, hinv, hover, hleft⟩ :=
        insertReserved_ok hP ht key hcount (not_lt.1 hdeep) val hnd
      refine ⟨⟨t'.releaseSpares.1, true, t'.spares, rest⟩, used, ?_, hmem, hinv, Bool.noConfusion,
        fun _ => hover, fun _ => hlen rfl, hleft.trans hperm⟩
      simp [insert, hdeep, ht.spares, hres, hins, releaseSpares]

/-- **`erase`** never fails an assertion. It returns whether the key was there. -/
theorem erase_ok (hP : 3 ≤ P) (ht : Inv P t) (key : K) :
    ∃ t' ok, erase P t key = some (t', ok) ∧ Inv P t' ∧
      (ok = false → t' = t ∧ ∀ e ∈ t.entries, e.1 ≠ key) ∧
      (ok = true → (∃ e ∈ t.entries, e.1 = key) ∧
        ∀ e, e ∈ t'.entries ↔ e ∈ t.entries ∧ e.1 ≠ key) := by
  cases hroot : t.root with
  | none => exact ⟨t, false, by simp [erase, hroot], ht, by simp [entries, hroot], by simp⟩
  | some root =>
    obtain ⟨h, hw⟩ := ht.wf root hroot
    obtain ⟨found, n', L', hrec, hok⟩ :=
      eraseRecursive_ok hP t.links hw (le_refl 1) (inRange_none key)
    have hnd : root.addrs.Nodup := by simpa [addrs, hroot] using ht.nodup
    cases found with
    | false =>
      obtain ⟨rfl, rfl⟩ := hok.miss rfl
      refine ⟨t, false, ?_, ht, fun _ => ⟨rfl, fun e he => ?_⟩, by simp⟩
      · simp only [erase, hroot, hrec, Option.some.injEq, Prod.mk.injEq, and_true]
        rw [← hroot]
      · exact ((hok.mem e).1 (by simpa [entries, hroot] using he)).2
    | true =>
      have hlen := hok.length
      simp only [if_true] at hlen
      have hsize : t.size - 1 = n'.entries.length := by
        rw [ht.size]
        simp only [entries, hroot, Option.elim_some]
        omega
      have hmem : ∀ e, e ∈ n'.entries ↔ e ∈ t.entries ∧ e.1 ≠ key := by
        intro e
        rw [hok.mem]
        simp [entries, hroot]
      have hnd' : n'.addrs.Nodup := by
        obtain ⟨l, hperm, hsub⟩ := hok.addrs
        exact hperm.nodup_iff.1 (hnd.sublist hsub)
      have hseg' : Seg L' none n'.leaves none := by
        have hleaves := hnd.sublist root.leaves_sublist_addrs
        simpa using hok.chain.2 [] [] (by simpa using hleaves) (by simpa using ht.chain root hroot)
      have hw' := hok.wf
      have hhit : ∃ e ∈ t.entries, e.1 = key := by simpa [entries, hroot] using hok.hit rfl
      -- the root may run low: an empty leaf is dropped, a single child moves up
      by_cases hzero : n'.count = 0
      · cases hn : n' with
        | leaf a es =>
          subst hn
          have hes : es = [] := List.length_eq_zero_iff.1 hzero
          subst hes
          refine ⟨⟨none, t.size - 1, L', t.spares⟩, true, by simp [erase, hroot, hrec],
            ⟨ht.spares, by simpa [entries] using hsize, by simp, by simp [addrs], by simp⟩,
            by simp, fun _ => ⟨hhit, fun e => ?_⟩⟩
          rw [← hmem]
          simp [entries]
        | internal a ks cs =>
          subst hn
          have hks : ks = [] := List.length_eq_zero_iff.1 hzero
          subst hks
          cases h with
          | zero => exact hw'.elim
          | succ h =>
            match cs, hw'.2.2 with
            | [c], hc =>
              simp only [Node.entries_internal, Node.leaves_internal,
                Node.addrs_internal, List.flatMap_cons, List.flatMap_nil,
                List.append_nil, List.nodup_cons] at hsize hmem hnd' hseg'
              refine ⟨⟨some c, t.size - 1, L', t.spares⟩, true,
                by simp [erase, hroot, hrec], ⟨ht.spares, hsize, ?_, hnd'.2, ?_⟩, by simp,
                fun _ => ⟨hhit, hmem⟩⟩
              · rintro _ ⟨⟩
                have hcount := (WF.count_le hc).1
                exact ⟨h, WF.mono hc ((minKeys_pos hP).trans hcount)⟩
              · rintro _ ⟨⟩
                exact hseg'
      · refine ⟨⟨some n', t.size - 1, L', t.spares⟩, true, by simp [erase, hroot, hrec, hzero],
          ⟨ht.spares, hsize, ?_, hnd', ?_⟩, by simp, fun _ => ⟨hhit, hmem⟩⟩
        · rintro _ ⟨⟩
          exact ⟨h, hw'.mono (by omega)⟩
        · rintro _ ⟨⟩
          exact hseg'

theorem clear_ok (ht : Inv P t) : Inv P t.clear ∧ t.clear.entries = [] := by
  cases hroot : t.root with
  | none => exact ⟨by simpa [clear, hroot] using ht, by simp [clear, hroot, entries]⟩
  | some root =>
    refine ⟨⟨?_, ?_, ?_, ?_, ?_⟩, ?_⟩ <;> simp [clear, hroot, entries, addrs, ht.spares]

end

/-! ## Whole runs -/

section

variable {K V : Type} [LinearOrder K] {P : Nat} {t : BPlusTree K V} {m : K → Option V}

/-- The invariant of the whole tree, node by node. -/
structure Structured (P : Nat) (t : BPlusTree K V) : Prop where
  depth : ∀ root ∈ t.root, ∃ h, ∀ d ∈ root.leafDepths, d = h
  root_count : ∀ root ∈ t.root, root.count ≤ maxKeys P
  occupancy : ∀ root ∈ t.root, ∀ n : Node K V, n.Descends root → minKeys P ≤ n.count ∧
    n.count ≤ maxKeys P
  ordered : ∀ root ∈ t.root, root.Ordered ∧ ∀ n : Node K V, n.Descends root → n.Ordered
  sorted : (t.entries.map Prod.fst).Pairwise (· < ·)
  forward : ∀ root ∈ t.root, ∀ n, root.leaves.length ≤ n →
    DList.walk t.links.next n root.leaves.head? = root.leaves
  backward : ∀ root ∈ t.root, ∀ n, root.leaves.length ≤ n →
    DList.walk t.links.prev n root.leaves.getLast? = root.leaves.reverse

theorem Inv.structured (ht : Inv P t) : Structured P t where
  depth root hroot := by
    obtain ⟨h, hw⟩ := ht.wf root hroot
    exact ⟨h, hw.leafDepths_eq⟩
  root_count root hroot := by
    obtain ⟨h, hw⟩ := ht.wf root hroot
    exact hw.count_le.2
  occupancy root hroot n hn := by
    obtain ⟨h, hw⟩ := ht.wf root hroot
    obtain ⟨h', lo', hi', hwn⟩ := hw.descends hn
    exact hwn.count_le
  ordered root hroot := by
    obtain ⟨h, hw⟩ := ht.wf root hroot
    refine ⟨hw.ordered, fun n hn => ?_⟩
    obtain ⟨h', lo', hi', hwn⟩ := hw.descends hn
    exact hwn.ordered
  sorted := ht.sorted.map_fst
  forward root hroot _ hn := (ht.chain root hroot).walk_next hn
  backward root hroot _ hn := (ht.chain root hroot).walk_prev hn

/-- One call on the tree; an insert comes with what the allocator will answer. -/
inductive Op (K V : Type) where
  | insert (key : K) (val : V) (cache : Bool) (mem : List (Option Nat))
  | erase (key : K)
  | clear

namespace Op

/-- What the call does to a map when it succeeds. -/
def apply (m : K → Option V) : Op K V → K → Option V
  | .insert key val _ _ => Function.update m key (some val)
  | .erase key => Function.update m key none
  | .clear => fun _ => none

/-- The allocator's side of the call: it never hands out memory that is in use. -/
def Fresh (t : BPlusTree K V) : Op K V → Prop
  | .insert _ _ _ mem => FreshNodes t mem
  | _ => True

end Op

/-- One call: the tree afterwards and the value returned. -/
def step (P : Nat) (t : BPlusTree K V) : Op K V → Option (BPlusTree K V × Bool)
  | .insert key val cache mem => (insert P t key val cache mem).map fun r => (r.tree, r.ok)
  | .erase key => erase P t key
  | .clear => some (t.clear, true)

/-- The trees reachable from an empty one, each with the map its successful calls have built up. -/
inductive Run (P : Nat) : BPlusTree K V → (K → Option V) → Prop
  | init : Run P {} (fun _ => none)
  | step {t t' : BPlusTree K V} {m : K → Option V} {ok : Bool} (op : Op K V) (hrun : Run P t m)
      (hfresh : op.Fresh t) (hstep : step P t op = some (t', ok)) :
      Run P t' (if ok then op.apply m else m)

/-- The entries are the graph of the map. -/
def Represents (t : BPlusTree K V) (m : K → Option V) : Prop :=
  ∀ k v, (k, v) ∈ t.entries ↔ m k = some v

/-- **One step.**  Every call returns, keeps the invariant and tracks the map; a call that reports
failure has changed nothing; `erase` reports whether the key was there. -/
theorem step_ok (hP : 3 ≤ P) (ht : Inv P t) (hm : Represents t m) (op : Op K V)
    (hfresh : op.Fresh t) : ∃ t' ok, step P t op = some (t', ok) ∧ Inv P t' ∧
      Represents t' (if ok then op.apply m else m) ∧ (ok = false → t' = t) ∧
      ∀ k, op = .erase k → ok = (m k).isSome := by
  cases op with
  | insert key val cache mem =>
    obtain ⟨⟨t', ok, freed, rest⟩, -, hins, -, hinv, hfail, hover, -⟩ :=
      insert_ok hP ht key val cache hfresh
    refine ⟨t', ok, by rw [step, hins]; rfl, hinv, ?_, hfail, by simp⟩
    cases ok with
    | false =>
      obtain rfl : t' = t := hfail rfl
      exact hm
    | true =>
      intro k v
      rw [hover rfl]
      by_cases hk : k = key
      · subst hk
        simp [Op.apply, eq_comm]
      · simp [Op.apply, hk, hm k v]
  | erase key =>
    obtain ⟨t', ok, her, hinv, hfail, hgone⟩ := erase_ok hP ht key
    refine ⟨t', ok, her, hinv, ?_, fun hok => (hfail hok).1, ?_⟩
    · cases ok with
      | false => simpa [(hfail rfl).1] using hm
      | true =>
        intro k v
        rw [(hgone rfl).2]
        by_cases hk : k = key
        · subst hk
          simp [Op.apply]
        · simp [Op.apply, hk, hm k v]
    · rintro _ ⟨⟩
      cases ok with
      | false =>
        cases hmk : m key with
        | none => rfl
        | some v => exact absurd rfl ((hfail rfl).2 (key, v) ((hm key v).2 hmk))
      | true =>
        obtain ⟨e, he, hek⟩ := (hgone rfl).1
        rw [← hek, (hm e.1 e.2).1 he]
        rfl
  | clear =>
    obtain ⟨hinv, hentries⟩ := clear_ok ht
    refine ⟨t.clear, true, rfl, hinv, ?_, by simp, by simp⟩
    intro k v
    simp [hentries, Op.apply]

theorem run_inv (hP : 3 ≤ P) (hrun : Run P t m) : Inv P t ∧ Represents t m := by
  induction hrun with
  | init =>
    refine ⟨⟨rfl, rfl, ?_, ?_, ?_⟩, ?_⟩
    · rintro _ ⟨⟩
    · exact List.nodup_nil
    · rintro _ ⟨⟩
    · intro k v
      simp [entries]
  | step op _ hfresh hstep ih =>
    obtain ⟨t₁, ok₁, hstep₁, hinv, hrep, -⟩ := step_ok hP ih.1 ih.2 op hfresh
    rw [hstep] at hstep₁
    cases hstep₁
    exact ⟨hinv, hrep⟩

/-- **An insert happens as a whole or not at all**, whatever the allocator answers. `used` are the
answers that it asked for. One that returns `false` has changed nothing and has given back every
node it got. One that returns `true` got as many nodes as `spares_needed` counts, and has given back
those that are not in the tree now. -/
theorem insert_atomic (hP : 3 ≤ P) (hrun : Run P t m) (key : K) (val : V) (cache : Bool)
    (mem : List (Option Nat)) (hfresh : FreshNodes t mem) :
    ∃ r used, insert P t key val cache mem = some r ∧ mem = used ++ r.mem ∧
      (r.ok = false → r.tree = t ∧ r.freed.Perm (used.filterMap id)) ∧
      (r.ok = true → r.tree.spares = [] ∧ (used.filterMap id).length = sparesNeeded P t.root key ∧
        (r.tree.addrs ++ r.freed).Perm (t.addrs ++ used.filterMap id)) := by
  obtain ⟨r, used, hins, hmem, hinv, hfail, -, hlen, hperm⟩ :=
    insert_ok hP (run_inv hP hrun).1 key val cache hfresh
  refine ⟨r, used, hins, hmem, fun hok => ⟨hfail hok, ?_⟩,
    fun hok => ⟨hinv.spares, hlen hok, hperm⟩⟩
  rw [hfail hok] at hperm
  exact (List.perm_append_left_iff _).1 hperm

theorem get_eq (ht : Inv P t) (hm : Represents t m) (k : K) : t.get P k = m k := by
  ext v
  rw [get_eq_some_iff ht, hm]

/-- A strictly sorted list of entries has as many keys as entries. -/
theorem ncard_keys (ht : Inv P t) (hm : Represents t m) :
    {k | (m k).isSome}.Finite ∧ {k | (m k).isSome}.ncard = t.entries.length := by
  have hset : {k | (m k).isSome} = ((t.entries.map Prod.fst).toFinset : Set K) := by
    ext k
    simp only [Set.mem_ofPred_eq, Option.isSome_iff_exists, List.coe_toFinset, List.mem_map,
      Prod.exists, exists_and_right, exists_eq_right]
    exact exists_congr fun v => (hm k v).symm
  have hnodup : (t.entries.map Prod.fst).Nodup := ht.sorted.map_fst.imp fun hlt => hlt.ne
  rw [hset]
  refine ⟨Finset.finite_toSet _, ?_⟩
  rw [Set.ncard_coe_finset, List.toFinset_card_of_nodup hnodup, List.length_map]

/-- **The tree refines a finite map.**  For every node capacity of at least three and after any
sequence of calls, whatever the allocator answered: the structure is intact, `get`, `contains` and
`size` agree with the map of the successful calls, and the next call returns, unchanged if it
reports failure. -/
theorem run_refines_map {P : Nat} (hP : 3 ≤ P) {t : BPlusTree K V} {m : K → Option V}
    (hrun : Run P t m) :
    Structured P t ∧ (∀ k, t.get P k = m k) ∧ (∀ k, t.contains P k = (m k).isSome) ∧
      ({k | (m k).isSome}.Finite ∧ t.size = {k | (m k).isSome}.ncard) ∧
      ∀ op : Op K V, op.Fresh t → ∃ t' ok, step P t op = some (t', ok) ∧
        (ok = false → t' = t) ∧ ∀ k, op = .erase k → ok = (m k).isSome := by
  obtain ⟨ht, hm⟩ := run_inv hP hrun
  obtain ⟨hfinite, hcard⟩ := ncard_keys ht hm
  refine ⟨ht.structured, get_eq ht hm, fun k => ?_, ⟨hfinite, ?_⟩, fun op hfresh => ?_⟩
  · rw [contains_eq, get_eq ht hm]
  · rw [hcard, ht.size]
  · obtain ⟨t', ok, hstep, -, -, hfail, herase⟩ := step_ok hP ht hm op hfresh
    exact ⟨t', ok, hstep, hfail, herase⟩

end

/-! ## A run -/

section

variable {K V : Type} [LinearOrder K] {P : Nat}

/-- A call that succeeds, and what it does to the nodes. -/
theorem run_next {t : BPlusTree K V} {m : K → Option V} (hrun : Run P t m) (op : Op K V)
    (hfresh : op.Fresh t) {root : Option (Node K V)} {size : Nat}
    (hstep : ∃ L, step P t op = some (⟨root, size, L, []⟩, true)) :
    ∃ L, Run P ⟨root, size, L, []⟩ (op.apply m) := by
  obtain ⟨L, hstep⟩ := hstep
  exact ⟨L, hrun.step op hfresh hstep⟩

attribute [local simp] step insert releaseSpares sparesNeeded maxSpareNodes reserve insertReserved
  ensureRoot descentCounts.eq_1 descentCounts_internal cascade maxKeys minKeys takeSpare
  insertRecursive.eq_1 insertRecursive_internal splitLeaf splitInternal elevateRoot searchLowerBound
  searchUpperBound search searchLinear erase eraseRecursive.eq_1 eraseRecursive_internal rebalance
  borrowFromRight mergeAt mergeChildren Op.Fresh FreshNodes addrs

/-- The map after some calls that succeed. -/
def applied (ops : List (Op Nat Nat)) : Nat → Option Nat := ops.foldl Op.apply fun _ => none

def twoInserts : List (Op Nat Nat) := [.insert 4 40 true [some 0], .insert 3 30 true []]

def fiveInserts : List (Op Nat Nat) := twoInserts ++
  [.insert 2 20 true [some 10, some 11], .insert 1 10 true [], .insert 0 0 true [some 12]]

/-- A leaf that is full, at the smallest capacity. -/
theorem run_full :
    ∃ L, Run 3 ⟨some (.leaf 0 [(3, 30), (4, 40)]), 2, L, []⟩ (applied twoInserts) := by
  obtain ⟨L, h⟩ : ∃ L, Run 3 ⟨some (.leaf 0 [(4, 40)]), 1, L, []⟩ _ :=
    run_next .init (.insert 4 40 true [some 0]) (by simp) (by simp)
  exact run_next h (.insert 3 30 true []) (by simp) (by simp)

/-- Three leaves, after two splits. -/
theorem run_leaves : ∃ L, Run 3 ⟨some (.internal 10 [1, 3] [.leaf 0 [(0, 0)],
    .leaf 12 [(1, 10), (2, 20)], .leaf 11 [(3, 30), (4, 40)]]), 5, L, []⟩
      (applied fiveInserts) := by
  obtain ⟨L, h⟩ := run_full
  obtain ⟨L, h⟩ : ∃ L, Run 3 ⟨some (.internal 10 [3] [.leaf 0 [(2, 20)],
      .leaf 11 [(3, 30), (4, 40)]]), 3, L, []⟩ _ :=
    run_next h (.insert 2 20 true [some 10, some 11]) (by simp) (by simp)
  obtain ⟨L, h⟩ : ∃ L, Run 3 ⟨some (.internal 10 [3] [.leaf 0 [(1, 10), (2, 20)],
      .leaf 11 [(3, 30), (4, 40)]]), 4, L, []⟩ _ :=
    run_next h (.insert 1 10 true []) (by simp) (by simp)
  exact run_next h (.insert 0 0 true [some 12]) (by simp) (by simp)

/-- Two leaves, after one has taken an entry from its neighbour and then been merged with it. -/
theorem run_merged : ∃ L, Run 3 ⟨some (.internal 10 [3] [.leaf 0 [(2, 20)],
    .leaf 11 [(3, 30), (4, 40)]]), 3, L, []⟩ (applied (fiveInserts ++ [.erase 0, .erase 1])) := by
  obtain ⟨L, h⟩ := run_leaves
  obtain ⟨L, h⟩ : ∃ L, Run 3 ⟨some (.internal 10 [2, 3] [.leaf 0 [(1, 10)], .leaf 12 [(2, 20)],
      .leaf 11 [(3, 30), (4, 40)]]), 4, L, []⟩ _ :=
    run_next h (.erase 0) trivial (by simp)
  exact run_next h (.erase 1) trivial (by simp)

/-- Three leaves, the last of which begins with a key that is gone. -/
theorem run_gap : ∃ L, Run 3 ⟨some (.internal 10 [1, 3] [.leaf 0 [(0, 0)],
    .leaf 12 [(1, 10), (2, 20)], .leaf 11 [(4, 40)]]), 4, L, []⟩
      (applied (fiveInserts ++ [.erase 3])) := by
  obtain ⟨L, h⟩ := run_leaves
  exact run_next h (.erase 3) trivial (by simp)

theorem run_refines_map_merged : ∃ (t : BPlusTree Nat Nat) (m : Nat → Option Nat), Run 3 t m ∧
    t.addrs = [10, 0, 11] ∧ t.get 3 1 = none ∧ t.get 3 2 = some 20 ∧
    t.get 3 4 = some 40 ∧ t.size = 3 := by
  obtain ⟨L, h⟩ := run_merged
  have hget := (run_refines_map (le_refl 3) h).2.1
  exact ⟨_, _, h, by simp, hget 1, hget 2, hget 4, rfl⟩

omit [LinearOrder K] in
/-- What a computed insert says about a result. -/
theorem ended {x : Option (InsertResult K V)} {r : InsertResult K V} {ok : Bool}
    {rest : List (Option Nat)} (hx : x = some r)
    (h : x.map (fun r => (r.ok, r.mem)) = some (ok, rest)) : r.ok = ok ∧ r.mem = rest := by
  rw [hx, Option.map_some, Option.some.injEq, Prod.mk.injEq] at h
  exact h

/-- An insert into the full leaf needs two nodes. With one it fails and gives that back; with three
it splits the leaf under a new root and leaves the third. -/
theorem insert_atomic_full : ∃ (t : BPlusTree Nat Nat) (m : Nat → Option Nat), Run 3 t m ∧
    (∃ r, insert 3 t 2 20 true [some 10, none] = some r ∧ r.ok = false ∧ r.tree = t ∧
      r.freed.Perm [10]) ∧
    ∃ r, insert 3 t 2 20 true [some 10, some 11, some 12] = some r ∧ r.ok = true ∧
      r.tree.spares = [] ∧ (r.tree.addrs ++ r.freed).Perm (t.addrs ++ [10, 11]) := by
  obtain ⟨L, h⟩ := run_full
  refine ⟨_, _, h, ?_, ?_⟩
  · obtain ⟨r, used, hins, hmem, hfail, -⟩ := insert_atomic (le_refl 3) h 2 20 true
      [some 10, none] (by simp)
    obtain ⟨hok, hrest⟩ : r.ok = false ∧ r.mem = [] := ended hins (by simp)
    obtain rfl : [some 10, none] = used := by rwa [hrest, List.append_nil] at hmem
    exact ⟨r, hins, hok, hfail hok⟩
  · obtain ⟨r, used, hins, hmem, -, hdone⟩ := insert_atomic (le_refl 3) h 2 20 true
      [some 10, some 11, some 12] (by simp)
    obtain ⟨hok, hrest⟩ : r.ok = true ∧ r.mem = [some 12] := ended hins (by simp)
    obtain rfl : [some 10, some 11] = used := by
      rw [hrest] at hmem
      exact List.append_cancel_right
        (show [some 10, some 11] ++ [some 12] = used ++ [some 12] from hmem)
    exact ⟨r, hins, hok, (hdone hok).1, (hdone hok).2.2⟩

end

end Erebus.BPlusTree
