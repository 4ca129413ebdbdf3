import Erebus.Lib.DList

/-!
# `BPlusTree<K, V>`: the code

The tree of `utils/bplus_tree.hpp` as it stands. A node owns its children, so the child pointers are
modelled by the tree itself; every node still carries its address, because the two leaf links
`next_leaf`/`prev_leaf` cut across that ownership and are read and written through the addresses
(`DList.Links`).

* `P` is `MAX_PHYSICAL_KEYS`; `maxKeys P` and `minKeys P` are `MAX_KEYS` and `MIN_KEYS`.
* The key and value arrays of a leaf move in step, so they are one list of pairs, and `count` is the
  length of that list (of the key list for an internal node).
* `none` is a failed `KASSERT`, a spare that is not there, or a child slot that is not there.
* A node allocation may fail: `insert` receives the answers of the `node_cache()->alloc()` calls it
  makes.
-/

namespace Erebus
namespace BPlusTree

open DList (Links)

/-- A node: a leaf with its keys and values, or an internal node with separators and children. -/
inductive Node (K V : Type) where
  | leaf (addr : Nat) (entries : List (K × V))
  | internal (addr : Nat) (keys : List K) (children : List (Node K V))

theorem sizeOf_child {K V : Type} {addr i : Nat} {ks : List K} {cs : List (Node K V)}
    {child : Node K V}
    (h : cs[i]? = some child) : sizeOf child < sizeOf (Node.internal addr ks cs) := by
  have hmem := List.sizeOf_lt_of_mem (List.mem_of_getElem? h)
  simp only [Node.internal.sizeOf_spec]
  omega

/-- `MAX_KEYS`. -/
def maxKeys (P : Nat) : Nat := P - 1

/-- `MIN_KEYS`. -/
def minKeys (P : Nat) : Nat := maxKeys P / 2

/-- `MAX_SPARE_NODES`. -/
def maxSpareNodes : Nat := 32

namespace Node

variable {K V : Type}

/-- The `count` field. -/
def count : Node K V → Nat
  | .leaf _ es => es.length
  | .internal _ ks _ => ks.length

/-- The leaves below a node, from left to right: where they live and what they hold. -/
def parts : Node K V → List (Nat × List (K × V))
  | .leaf a es => [(a, es)]
  | .internal _ _ cs => cs.flatMap parts

end Node

section

variable {K : Type}

/-- The linear scan used for nodes of at most 16 keys: the first index whose key fails `p`. -/
def searchLinear (p : K → Bool) : List K → Nat
  | [] => 0
  | x :: xs => if p x then searchLinear p xs + 1 else 0

/-- The halving loop used for larger nodes; `first` and `count` are the loop variables. -/
def searchBinary (p : K → Bool) (arr : List K) (first count : Nat) : Nat :=
  if count = 0 then
    first
  else
    match arr[first + count / 2]? with
    | some x =>
      if p x then
        searchBinary p arr (first + count / 2 + 1) (count - (count / 2 + 1))
      else
        searchBinary p arr first (count / 2)
    | none => first
termination_by count

/-- The two searches share one body and differ in the comparison `p`. -/
def search (P : Nat) (p : K → Bool) (arr : List K) : Nat :=
  if P ≤ 16 then searchLinear p arr else searchBinary p arr 0 arr.length

/-- `search_lower_bound`: skips the keys below `key`. -/
def searchLowerBound [LinearOrder K] (P : Nat) (arr : List K) (key : K) : Nat :=
  search P (fun x => decide (x < key)) arr

/-- `search_upper_bound`: skips the keys not above `key`. -/
def searchUpperBound [LinearOrder K] (P : Nat) (arr : List K) (key : K) : Nat :=
  search P (fun x => !decide (key < x)) arr

end

/-- What an insert may change besides the nodes it walks through: the leaf links of all nodes, and
the nodes set aside for splits (`m_spare`, last one first). -/
structure Pool where
  links : Links Nat
  spares : List Nat

/-- `take_spare`, which asserts that a spare is left. -/
def takeSpare (pool : Pool) : Option (Nat × Pool) :=
  match pool.spares with
  | [] => none
  | a :: rest => some (a, { pool with spares := rest })

variable {K V : Type} [LinearOrder K]

/-- What `insert_recursive` hands back: whether the key was new, the node as it now is, and the
split key and right sibling when the node was split. -/
structure Inserted (K V : Type) where
  isNew : Bool
  node : Node K V
  split : Option (K × Node K V)
  pool : Pool

/-- The end of `insert_recursive` for a leaf: split it if it has filled up. -/
def splitLeaf (P addr : Nat) (es : List (K × V)) (pool : Pool) : Option (Inserted K V) :=
  if es.length = P then
    match takeSpare pool, es.drop (P / 2) with
    | some (right, pool), (k, v) :: es' =>
      -- Both halves keep their keys; the right one's first key goes up as a copy.
      some {
        isNew := true
        node := .leaf addr (es.take (P / 2))
        split := some (k, .leaf right ((k, v) :: es'))
        pool := { pool with links := DList.insertAfter pool.links addr right } }
    | _, _ => none
  else
    some { isNew := true, node := .leaf addr es, split := none, pool := pool }

/-- The end of `insert_recursive` for an internal node. -/
def splitInternal (P addr : Nat) (ks : List K) (cs : List (Node K V)) (pool : Pool) :
    Option (Inserted K V) :=
  if ks.length = P then
    match takeSpare pool, ks.drop (P / 2) with
    | some (right, pool), k :: ks' =>
      -- The middle key moves up and belongs to neither half.
      some {
        isNew := true
        node := .internal addr (ks.take (P / 2)) (cs.take (P / 2 + 1))
        split := some (k, .internal right ks' (cs.drop (P / 2 + 1)))
        pool := pool }
    | _, _ => none
  else
    some { isNew := true, node := .internal addr ks cs, split := none, pool := pool }

/-- `insert_recursive`. -/
def insertRecursive (P : Nat) (key : K) (val : V) : Node K V → Pool → Option (Inserted K V)
  | .leaf addr es, pool =>
    let idx := searchLowerBound P (es.map Prod.fst) key
    match es[idx]? with
    | some e =>
      if e.1 = key then
        some { isNew := false, node := .leaf addr (es.set idx (key, val)), split := none,
               pool := pool }
      else
        splitLeaf P addr (es.insertIdx idx (key, val)) pool
    | none => splitLeaf P addr (es.insertIdx idx (key, val)) pool
  | .internal addr ks cs, pool =>
    let idx := searchUpperBound P ks key
    match _h : cs[idx]? with
    | none => none
    | some child =>
      match insertRecursive P key val child pool with
      | none => none
      | some r =>
        if r.isNew = false then
          some { r with node := .internal addr ks (cs.set idx r.node), split := none }
        else
          match r.split with
          | none => splitInternal P addr ks (cs.set idx r.node) r.pool
          | some (k, right) =>
            splitInternal P addr (ks.insertIdx idx k)
              ((cs.set idx r.node).insertIdx (idx + 1) right) r.pool
termination_by node => node
decreasing_by exact sizeOf_child _h

/-- `borrow_from_left`, on the two children and the separator between them: the new left sibling,
separator and child. -/
def borrowFromLeft (left : Node K V) (sep : K) (child : Node K V) :
    Option (Node K V × K × Node K V) :=
  match left, child with
  | .leaf la les, .leaf ca ces =>
    match les.getLast? with
    | some e => some (.leaf la les.dropLast, e.1, .leaf ca (e :: ces))
    | none => none
  | .internal la lks lcs, .internal ca cks ccs =>
    -- The separator comes down, the sibling's last key goes up in its place.
    match lks.getLast?, lcs.getLast? with
    | some k, some c =>
      some (.internal la lks.dropLast lcs.dropLast, k, .internal ca (sep :: cks) (c :: ccs))
    | _, _ => none
  | _, _ => none

/-- `borrow_from_right`, on the child, the separator behind it and the right sibling. -/
def borrowFromRight (child : Node K V) (sep : K) (right : Node K V) :
    Option (Node K V × K × Node K V) :=
  match child, right with
  | .leaf ca ces, .leaf ra (e :: e' :: res) =>
    some (.leaf ca (ces ++ [e]), e'.1, .leaf ra (e' :: res))
  | .internal ca cks ccs, .internal ra (k :: rks) (c :: rcs) =>
    some (.internal ca (cks ++ [sep]) (ccs ++ [c]), k, .internal ra rks rcs)
  | _, _ => none

/-- `merge_children` on the two children and the separator that is dropped between them. The right
node goes back to the cache. -/
def mergeChildren (P : Nat) (left : Node K V) (sep : K) (right : Node K V) (links : Links Nat) :
    Option (Node K V × Links Nat) :=
  match left, right with
  | .leaf la les, .leaf ra res =>
    if les.length + res.length ≤ maxKeys P then
      some (.leaf la (les ++ res), DList.bypass links la ra)
    else
      none
  | .internal la lks lcs, .internal _ rks rcs =>
    if lks.length + (rks.length + 1) ≤ maxKeys P then
      some (.internal la (lks ++ sep :: rks) (lcs ++ rcs), links)
    else
      none
  | _, _ => none

/-- `merge_children(parent, idx)`, the parent's part. -/
def mergeAt (P addr : Nat) (ks : List K) (cs : List (Node K V)) (idx : Nat) (links : Links Nat) :
    Option (Node K V × Links Nat) :=
  match cs[idx]?, ks[idx]?, cs[idx + 1]? with
  | some left, some sep, some right =>
    match mergeChildren P left sep right links with
    | some (merged, links) =>
      some (.internal addr (ks.eraseIdx idx) ((cs.set idx merged).eraseIdx (idx + 1)), links)
    | none => none
  | _, _, _ => none

/-- `rebalance(parent, idx)`: the child at `idx` has just dropped below `MIN_KEYS`. -/
def rebalance (P addr : Nat) (ks : List K) (cs : List (Node K V)) (idx : Nat)
    (links : Links Nat) : Option (Node K V × Links Nat) :=
  let left := if 0 < idx then cs[idx - 1]? else none
  let right := if idx < ks.length then cs[idx + 1]? else none
  if minKeys P < left.elim 0 Node.count then
    match left, ks[idx - 1]?, cs[idx]? with
    | some l, some sep, some c =>
      match borrowFromLeft l sep c with
      | some (l, sep, c) =>
        some (.internal addr (ks.set (idx - 1) sep) ((cs.set (idx - 1) l).set idx c), links)
      | none => none
    | _, _, _ => none
  else if minKeys P < right.elim 0 Node.count then
    match cs[idx]?, ks[idx]?, right with
    | some c, some sep, some r =>
      match borrowFromRight c sep r with
      | some (c, sep, r) =>
        some (.internal addr (ks.set idx sep) ((cs.set idx c).set (idx + 1) r), links)
      | none => none
    | _, _, _ => none
  else if left.isSome then
    mergeAt P addr ks cs (idx - 1) links
  else if right.isSome then
    mergeAt P addr ks cs idx links
  else
    none

/-- `erase_recursive`: whether the key was there, and the node as it now is. -/
def eraseRecursive (P : Nat) (key : K) : Node K V → Links Nat →
    Option (Bool × Node K V × Links Nat)
  | .leaf addr es, links =>
    let idx := searchLowerBound P (es.map Prod.fst) key
    match es[idx]? with
    | some e =>
      if e.1 = key then
        some (true, .leaf addr (es.eraseIdx idx), links)
      else
        some (false, .leaf addr es, links)
    | none => some (false, .leaf addr es, links)
  | .internal addr ks cs, links =>
    let idx := searchUpperBound P ks key
    match _h : cs[idx]? with
    | none => none
    | some child =>
      match eraseRecursive P key child links with
      | none => none
      | some (false, child', links) =>
        some (false, .internal addr ks (cs.set idx child'), links)
      | some (true, child', links) =>
        if child'.count < minKeys P then
          match rebalance P addr ks (cs.set idx child') idx links with
          | some (node, links) => some (true, node, links)
          | none => none
        else
          some (true, .internal addr ks (cs.set idx child'), links)
termination_by node => node
decreasing_by exact sizeOf_child _h

/-- `find_leaf`, from a given node down. -/
def findLeaf (P : Nat) (key : K) : Node K V → Option (Nat × List (K × V))
  | .leaf addr es => some (addr, es)
  | .internal _ ks cs =>
    match _h : cs[searchUpperBound P ks key]? with
    | none => none
    | some child => findLeaf P key child
termination_by node => node
decreasing_by exact sizeOf_child _h

/-- A way down from a node to a leaf, by the child that `idx` gives for the keys of each node. -/
def descend (idx : List K → Nat) : Node K V → Option (Nat × List (K × V))
  | .leaf addr es => some (addr, es)
  | .internal _ ks cs =>
    match _h : cs[idx ks]? with
    | none => none
    | some child => descend idx child
termination_by node => node
decreasing_by exact sizeOf_child _h

/-- The counts of the nodes `spares_needed` walks through, root first. -/
def descentCounts (P : Nat) (key : K) : Node K V → List Nat
  | .leaf _ es => [es.length]
  | .internal _ ks cs =>
    match _h : cs[searchUpperBound P ks key]? with
    | none => [ks.length]
    | some child => ks.length :: descentCounts P key child
termination_by node => node
decreasing_by exact sizeOf_child _h

/-- How far up from the leaf every node is full. -/
def cascade (P : Nat) (counts : List Nat) : Nat :=
  (counts.reverse.takeWhile (fun c => c == maxKeys P)).length

/-- `spares_needed`. -/
def sparesNeeded (P : Nat) (root : Option (Node K V)) (key : K) : Nat :=
  match root with
  | none => 1
  | some root =>
    let path := descentCounts P key root
    if maxSpareNodes < path.length then
      maxSpareNodes + 1
    else if cascade P path = path.length then
      cascade P path + 1
    else
      cascade P path

end BPlusTree

open BPlusTree in
/-- `BPlusTree<K, V>`: the data members. -/
structure BPlusTree (K V : Type) where
  root : Option (Node K V) := none
  size : Nat := 0
  links : DList.Links Nat := ⟨fun _ => none, fun _ => none⟩
  spares : List Nat := []

namespace BPlusTree

variable {K V : Type} [LinearOrder K]

/-- `release_spares`, with the nodes that go back to the cache. -/
def releaseSpares (t : BPlusTree K V) : BPlusTree K V × List Nat :=
  ({ t with spares := [] }, t.spares)

/-- The loop of `insert` that sets nodes aside, fed with the answers of the allocator: whether there
were enough, the spares then, and the answers still to come. -/
def reserve : Nat → List (Option Nat) → List Nat → Bool × List Nat × List (Option Nat)
  | 0, mem, spares => (true, spares, mem)
  | needed + 1, some a :: mem, spares => reserve needed mem (a :: spares)
  | _ + 1, none :: mem, spares => (false, spares, mem)
  | _ + 1, [], spares => (false, spares, [])

/-- The end of `insert`: a new root above the old one if that was split. -/
def elevateRoot (r : Inserted K V) (size : Nat) : Option (BPlusTree K V) :=
  match r.split with
  | none =>
    some { root := some r.node, size := size, links := r.pool.links, spares := r.pool.spares }
  | some (k, right) =>
    match takeSpare r.pool with
    | none => none
    | some (a, pool) =>
      some { root := some (.internal a [k] [r.node, right]), size := size,
             links := pool.links, spares := pool.spares }

/-- The root `insert` descends from: the one that is there, or a fresh empty leaf. -/
def ensureRoot (t : BPlusTree K V) : Option (Node K V × Pool) :=
  match t.root with
  | some root => some (root, ⟨t.links, t.spares⟩)
  | none =>
    match takeSpare ⟨t.links, t.spares⟩ with
    | some (a, pool) =>
      some (.leaf a [], { pool with links := (pool.links.setNext a none).setPrev a none })
    | none => none

/-- The part of `insert` that runs once the spares are there. -/
def insertReserved (P : Nat) (t : BPlusTree K V) (key : K) (val : V) : Option (BPlusTree K V) :=
  match ensureRoot t with
  | none => none
  | some (root, pool) =>
    match insertRecursive P key val root pool with
    | none => none
    | some r => elevateRoot r (if r.isNew then t.size + 1 else t.size)

/-- What `insert` leaves: the tree, the value returned, the nodes that went back to the cache, and
the answers of the allocator that it did not need. -/
structure InsertResult (K V : Type) where
  tree : BPlusTree K V
  ok : Bool
  freed : List Nat := []
  mem : List (Option Nat)

/-- `insert`. `cache` says whether `node_cache()` exists and `mem` what its allocations return. -/
def insert (P : Nat) (t : BPlusTree K V) (key : K) (val : V) (cache : Bool)
    (mem : List (Option Nat)) : Option (InsertResult K V) :=
  if cache = false then
    some { tree := t, ok := false, mem := mem }
  else
    let needed := sparesNeeded P t.root key
    if maxSpareNodes < needed then
      some { tree := t, ok := false, mem := mem }
    else
      match reserve (needed - t.spares.length) mem t.spares with
      | (false, spares, mem) =>
        let (t, freed) := releaseSpares { t with spares := spares }
        some { tree := t, ok := false, freed := freed, mem := mem }
      | (true, spares, mem) =>
        match insertReserved P { t with spares := spares } key val with
        | some t =>
          let (t, freed) := releaseSpares t
          some { tree := t, ok := true, freed := freed, mem := mem }
        | none => none

/-- `erase`. -/
def erase (P : Nat) (t : BPlusTree K V) (key : K) : Option (BPlusTree K V × Bool) :=
  match t.root with
  | none => some (t, false)
  | some root =>
    match eraseRecursive P key root t.links with
    | none => none
    | some (false, root', links) => some ({ t with root := some root', links := links }, false)
    | some (true, root', links) =>
      -- The root is the one node allowed to run low.
      let root'' : Option (Option (Node K V)) :=
        if root'.count = 0 then
          match root' with
          | .leaf _ _ => some none
          | .internal _ _ (c :: _) => some (some c)
          | .internal _ _ [] => none
        else
          some (some root')
      match root'' with
      | none => none
      | some root'' =>
        some ({ t with root := root'', size := t.size - 1, links := links }, true)

/-- `clear`. -/
def clear (t : BPlusTree K V) : BPlusTree K V :=
  match t.root with
  | none => t
  | some _ => { t with root := none, size := 0 }

/-- `get`: `none` outside is a missing child slot, `none` inside is `false`. -/
def get (P : Nat) (t : BPlusTree K V) (key : K) : Option V :=
  match t.root with
  | none => none
  | some root =>
    match findLeaf P key root with
    | none => none
    | some (_, es) =>
      match es[searchLowerBound P (es.map Prod.fst) key]? with
      | some e => if e.1 = key then some e.2 else none
      | none => none

/-- `contains`. -/
def contains (P : Nat) (t : BPlusTree K V) (key : K) : Bool :=
  match t.root with
  | none => false
  | some root =>
    match findLeaf P key root with
    | none => false
    | some (_, es) =>
      match es[searchLowerBound P (es.map Prod.fst) key]? with
      | some e => decide (e.1 = key)
      | none => false

/-- `get_floor`: the key and value it writes, if it returns `true`. `none` outside is a node or an
entry that is not there. -/
def getFloor (P : Nat) (t : BPlusTree K V) (key : K) : Option (Option (K × V)) :=
  match t.root with
  | none => some none
  | some root =>
    match findLeaf P key root with
    | none => none
    | some (a, es) =>
      let idx := searchUpperBound P (es.map Prod.fst) key
      if 0 < idx then
        es[idx - 1]?.map some
      else
        match t.links.prev a with
        | none => some none
        | some prev => (root.parts.lookup prev).bind fun es => es[es.length - 1]?.map some

section

variable {σ : Type} (endKey : K) (callback : σ → K → V → σ × Bool)

/-- The inner loop of `range`: the callback's state, and whether the loop came to the end of the
leaf. -/
def rangeLeaf : σ → List (K × V) → σ × Bool
  | s, [] => (s, true)
  | s, (k, v) :: es =>
    if endKey < k then
      (s, false)
    else
      match callback s k v with
      | (s, false) => (s, false)
      | (s, true) => rangeLeaf s es

/-- The outer loop of `range`, at most `fuel` leaves of it. -/
def rangeFrom (leaf : Nat → Option (List (K × V))) (next : Nat → Option Nat) :
    Nat → Option Nat → Nat → σ → Option σ
  | _, none, _, s => some s
  | 0, some _, _, _ => none
  | fuel + 1, some curr, idx, s =>
    match leaf curr with
    | none => none
    | some es =>
      match rangeLeaf endKey callback s (es.drop idx) with
      | (s, false) => some s
      | (s, true) => rangeFrom leaf next fuel (next curr) 0 s

/-- `range`, with what the callback remembers from call to call. -/
def range (P fuel : Nat) (t : BPlusTree K V) (startKey : K) (s : σ) : Option σ :=
  match t.root with
  | none => some s
  | some root =>
    match descend (searchLowerBound P · startKey) root with
    | none => none
    | some (curr, es) =>
      rangeFrom endKey callback (root.parts.lookup ·) t.links.next fuel (some curr)
        (searchLowerBound P (es.map Prod.fst) startKey) s

end

end BPlusTree
end Erebus
