import Mathlib.Tactic

/-!
# Reference counts

Cells that count the references to them, and may each hold one reference to an older cell. Dropping
the last reference to a cell destroys it and drops the reference it held, and so on down the chain.

* `Heap`, `create`, `addRef`, `dropRef`: the operations. `none` is a use of a cell that is gone.
* `Counted h H`: every count is the number of references to the cell: those in the hands `H` of
  somebody outside, and those of the cells that link to it.
* `create_ok`, `addRef_ok`, `dropRef_ok`: each operation moves one reference into or out of a hand,
  and what a drop destroys is gone from the heap exactly once.
-/

namespace RefCount

open Multiset (count_cons count_cons_self)

variable {β : Type*}

/-- A counted cell: its count, the cell it refers to, and what it is for. -/
structure Cell (β : Type*) where
  refs : Nat
  link : Option Nat
  body : β

/-- The cells by address; the address of a cell that is gone is not used again. -/
abbrev Heap (β : Type*) := List (Option (Cell β))

namespace Heap

/-- The cell at an address. -/
def cell (h : Heap β) (o : Nat) : Option (Cell β) := h[o]?.join

/-- A new cell in the hand of its creator. -/
def create (h : Heap β) (link : Option Nat) (body : β) : Nat × Heap β :=
  (h.length, h ++ [some ⟨1, link, body⟩])

def addRef (h : Heap β) (o : Nat) : Option (Heap β) :=
  match h.cell o with
  | none => none
  | some c => some (h.set o (some { c with refs := c.refs + 1 }))

/-- Drop a reference, and those of the cells destroyed on the way; the bodies of these are the
answer. -/
def dropFrom : Nat → Heap β → Nat → Option (Heap β × List β)
  | 0, _, _ => none
  | fuel + 1, h, o =>
    match h.cell o with
    | none => none
    | some c =>
      if c.refs = 1 then
        let h := h.set o none
        match c.link with
        | none => some (h, [c.body])
        | some p =>
          match dropFrom fuel h p with
          | none => none
          | some (h, bodies) => some (h, c.body :: bodies)
      else if c.refs = 0 then
        none
      else
        some (h.set o (some { c with refs := c.refs - 1 }), [])

def dropRef (h : Heap β) (o : Nat) : Option (Heap β × List β) := dropFrom (o + 1) h o

/-- The number of cells that refer to an address. -/
def links (h : Heap β) (o : Nat) : Nat := h.countP fun c => c.bind Cell.link = some o

/-- What the cells are for. -/
def bodies (h : Heap β) : List β := h.filterMap (·.map Cell.body)

end Heap

open Heap

/-- Every count is right. -/
structure Counted (h : Heap β) (H : Multiset Nat) : Prop where
  exact : ∀ {o : Nat} {c : Cell β}, h.cell o = some c → c.refs = H.count o + h.links o
  live : ∀ {o : Nat}, 0 < H.count o + h.links o → ∃ c, h.cell o = some c
  pos : ∀ {o : Nat} {c : Cell β}, h.cell o = some c → 0 < c.refs
  older : ∀ {o p : Nat} {c : Cell β}, h.cell o = some c → c.link = some p → p < o

section

variable {h : Heap β} {o q : Nat} {c : Cell β}

theorem cell_lt (hc : h.cell o = some c) : o < h.length := by
  by_contra hlt
  rw [cell, List.getElem?_eq_none (Nat.le_of_not_lt hlt)] at hc
  cases hc

theorem getElem_of_cell (hc : h.cell o = some c) : h[o]? = some (some c) := by
  rw [cell] at hc
  cases hx : h[o]? with
  | none =>
    rw [hx] at hc
    cases hc
  | some x =>
    rw [hx] at hc
    exact congrArg some hc

theorem cell_set (x : Option (Cell β)) (ho : o < h.length) :
    cell (h.set o x) q = if q = o then x else h.cell q := by
  by_cases hq : q = o
  · subst hq
    rw [if_pos rfl, cell, List.getElem?_set_self ho]
    rfl
  · rw [if_neg hq, cell, cell, List.getElem?_set_ne (Ne.symm hq)]

theorem cell_append (x : Option (Cell β)) :
    cell (h ++ [x]) q = if q = h.length then x else h.cell q := by
  rcases Nat.lt_trichotomy q h.length with hlt | rfl | hgt
  · rw [if_neg (Nat.ne_of_lt hlt), cell, cell, List.getElem?_append_left hlt]
  · rw [if_pos rfl, cell, List.getElem?_concat_length]
    rfl
  · rw [if_neg (Nat.ne_of_gt hgt), cell, cell, List.getElem?_eq_none (by simpa using hgt),
      List.getElem?_eq_none (Nat.le_of_lt hgt)]

/-- One cell stands for another: the links change by those of the two. -/
theorem links_set (x : Option (Cell β)) (hc : h.cell o = some c) (p : Nat) :
    links (h.set o x) p + (if c.link = some p then 1 else 0) =
      h.links p + (if x.bind Cell.link = some p then 1 else 0) := by
  have ho := cell_lt hc
  have hget := getElem_of_cell hc
  rw [List.getElem?_eq_getElem ho, Option.some.injEq] at hget
  simp only [links, List.countP_set ho, hget, Option.bind_some, decide_eq_true_eq]
  have hpos : c.link = some p → 0 < h.countP fun c => decide (c.bind Cell.link = some p) :=
    fun hlink => List.countP_pos_iff.2 ⟨some c, hget ▸ List.getElem_mem ho, by simpa using hlink⟩
  split
  · have := hpos ‹_›
    omega
  · omega

theorem links_set_same (c' : Cell β) (hc : h.cell o = some c) (hlink : c'.link = c.link) (p : Nat) :
    links (h.set o (some c')) p = h.links p := by
  have hset := links_set (some c') hc p
  rw [Option.bind_some, hlink] at hset
  exact Nat.add_right_cancel hset

theorem links_append (x : Option (Cell β)) (p : Nat) :
    links (h ++ [x]) p = h.links p + if x.bind Cell.link = some p then 1 else 0 := by
  simp [links, List.countP_append, List.countP_cons]

end

section Operations

variable {h : Heap β} {H : Multiset Nat} {o : Nat}
variable {c : Cell β} {h' : Heap β}

/-- What is in somebody's hand is there. -/
theorem Counted.of_mem (hc : Counted h H) (ho : o ∈ H) : ∃ c, h.cell o = some c :=
  hc.live (Nat.add_pos_left (Multiset.count_pos.2 ho) _)

/-- Nothing counts for an address that was never used. -/
theorem Counted.fresh (hc : Counted h H) (ho : h.length ≤ o) : H.count o = 0 ∧ h.links o = 0 := by
  by_contra hnot
  obtain ⟨c, hcell⟩ := hc.live (o := o) (by omega)
  exact absurd (cell_lt hcell) (Nat.not_lt.2 ho)

/-- One cell changes, and as many references as before count for the others. -/
theorem Counted.change {H' : Multiset Nat} {x : Option (Cell β)} (hc : Counted h H)
    (hcell : ∀ q, h'.cell q = if q = o then x else h.cell q)
    (hsum : ∀ q, q ≠ o → H'.count q + h'.links q = H.count q + h.links q)
    (hnone : x = none → H'.count o + h'.links o = 0)
    (hsome : ∀ d, x = some d → d.refs = H'.count o + h'.links o ∧ 0 < d.refs ∧
    ∀ p, d.link = some p → p < o) : Counted h' H' := by
  have hcases : ∀ {q d}, h'.cell q = some d → q = o ∧ x = some d ∨ q ≠ o ∧ h.cell q = some d := by
    intro q d hq
    rw [hcell] at hq
    split at hq
    · exact .inl ⟨‹_›, hq⟩
    · exact .inr ⟨‹_›, hq⟩
  refine ⟨?_, ?_, ?_, ?_⟩
  · intro q d hq
    rcases hcases hq with ⟨rfl, hx⟩ | ⟨hne, hq⟩
    · exact (hsome d hx).1
    · rw [hsum q hne]
      exact hc.exact hq
  · intro q hq
    rw [hcell]
    split
    · rename_i heq
      cases x with
      | none =>
        rw [heq, hnone rfl] at hq
        exact absurd hq (lt_irrefl 0)
      | some d => exact ⟨d, rfl⟩
    · rename_i hne
      rw [hsum q hne] at hq
      exact hc.live hq
  · intro q d hq
    rcases hcases hq with ⟨-, hx⟩ | ⟨-, hq⟩
    · exact (hsome d hx).2.1
    · exact hc.pos hq
  · intro q p d hq hlink
    rcases hcases hq with ⟨rfl, hx⟩ | ⟨-, hq⟩
    · exact (hsome d hx).2.2 p hlink
    · exact hc.older hq hlink

/-- A cell gets another count, and keeps its link. -/
theorem Counted.set {H' : Multiset Nat} {d : Cell β} (hc : Counted h H) (hcell : h.cell o = some c)
    (hlink : d.link = c.link) (hcount : ∀ q, q ≠ o → H'.count q = H.count q)
    (hrefs : d.refs = H'.count o + h.links o)
    (hpos : 0 < d.refs) : Counted (h.set o (some d)) H' := by
  have hlinks := links_set_same d hcell hlink
  refine hc.change (fun q => cell_set _ (cell_lt hcell)) (fun q hq => ?_) nofun ?_
  · rw [hlinks, hcount q hq]
  · rintro _ ⟨⟩
    rw [hlinks]
    exact ⟨hrefs, hpos, fun p hp => hc.older hcell (hlink ▸ hp)⟩

/-- **A new cell**, which may take over a reference of its creator. -/
theorem create_ok (hc : Counted h H) (body : β) :
    (h.create none body).1 = h.length ∧ Counted (h.create none body).2 (h.length ::ₘ H) := by
  obtain ⟨hcount, hlinks⟩ := hc.fresh le_rfl
  refine ⟨rfl, hc.change (fun q => cell_append _) (fun q hq => ?_) nofun ?_⟩
  · rw [create, links_append, count_cons, if_neg hq]
    rfl
  · rintro d ⟨⟩
    rw [create, links_append, count_cons_self, hcount, hlinks]
    exact ⟨rfl, Nat.one_pos, nofun⟩

/-- **A new cell that links to another**: the reference it holds comes out of a hand. -/
theorem createLinked_ok {p : Nat} (hc : Counted h (p ::ₘ H)) (body : β) :
    Counted (h.create (some p) body).2 (h.length ::ₘ H) := by
  obtain ⟨hcount, hlinks⟩ := hc.fresh le_rfl
  rw [count_cons] at hcount
  have hp : p < h.length := by
    obtain ⟨c, hcell⟩ := hc.of_mem (Multiset.mem_cons_self p H)
    exact cell_lt hcell
  have hsum : ∀ q, q ≠ h.length → (h.length ::ₘ H).count q +
      links (h ++ [some ⟨1, some p, body⟩]) q = (p ::ₘ H).count q + h.links q := by
    intro q hq
    rw [links_append, count_cons, count_cons, if_neg hq]
    simp only [Option.bind_some, Option.some.injEq]
    by_cases hqp : q = p
    · subst hqp
      simp only [if_pos]
      omega
    · rw [if_neg hqp, if_neg (Ne.symm hqp)]
      rfl
  refine hc.change (fun q => cell_append _) hsum nofun ?_
  rintro d ⟨⟩
  refine ⟨?_, Nat.one_pos, ?_⟩
  · rw [create, links_append, count_cons_self, hlinks, if_neg (by simpa using Nat.ne_of_lt hp),
      Nat.eq_zero_of_add_eq_zero_right hcount]
  · rintro _ ⟨⟩
    exact hp

/-- **One more reference**, for somebody who has one. -/
theorem addRef_ok (hc : Counted h H) (ho : o ∈ H) :
    ∃ c, h.cell o = some c ∧ h.addRef o = some (h.set o (some { c with refs := c.refs + 1 })) ∧
      Counted (h.set o (some { c with refs := c.refs + 1 })) (o ::ₘ H) := by
  obtain ⟨c, hcell⟩ := hc.of_mem ho
  refine ⟨c, hcell, by rw [addRef, hcell], hc.set hcell rfl (fun q hq => ?_) ?_ (Nat.succ_pos _)⟩
  · rw [count_cons, if_neg hq, Nat.add_zero]
  · rw [count_cons_self, Nat.add_right_comm, ← hc.exact hcell]

/-- A cell whose last reference is dropped: what it linked to comes into the hand. -/
theorem destroy_ok (hc : Counted h (o ::ₘ H)) (hcell : h.cell o = some c) (hone : c.refs = 1) :
    Counted (h.set o none) (c.link.elim H (· ::ₘ H)) ∧ H.count o = 0 ∧ h.links o = 0 := by
  obtain ⟨hcount, hlinks⟩ : H.count o = 0 ∧ h.links o = 0 := by
    have := hc.exact hcell
    rw [count_cons_self] at this
    omega
  have hsum : ∀ q, q ≠ o → (c.link.elim H (· ::ₘ H)).count q + links (h.set o none) q =
      (o ::ₘ H).count q + h.links q := by
    intro q hq
    have hset := links_set none hcell q
    simp only [Option.bind_none, reduceCtorEq, if_false] at hset
    rw [count_cons, if_neg hq]
    cases hlink : c.link with
    | none =>
      simp only [hlink, reduceCtorEq, if_false] at hset
      simp only [Option.elim_none]
      omega
    | some p =>
      simp only [hlink, Option.some.injEq] at hset
      simp only [Option.elim_some, count_cons]
      by_cases hpq : p = q
      · subst hpq
        simp only [if_pos] at hset ⊢
        omega
      · rw [if_neg hpq] at hset
        rw [if_neg (Ne.symm hpq)]
        omega
  -- nobody refers to the cell itself
  have hself : (c.link.elim H (· ::ₘ H)).count o + links (h.set o none) o = 0 := by
    have hset := links_set none hcell o
    have hne : c.link ≠ some o := fun hlink => absurd (hc.older hcell hlink) (lt_irrefl o)
    simp only [Option.bind_none, reduceCtorEq, if_false, if_neg hne] at hset
    cases hlink : c.link with
    | none =>
      simp only [Option.elim_none]
      omega
    | some p =>
      have hop : o ≠ p := by
        rintro rfl
        exact hne hlink
      simp only [Option.elim_some, count_cons, if_neg hop]
      omega
  exact ⟨hc.change (fun q => cell_set none (cell_lt hcell)) hsum (fun _ => hself) nofun,
    hcount, hlinks⟩

/-- A cell whose count goes down. -/
theorem lower_ok (hc : Counted h (o ::ₘ H)) (hcell : h.cell o = some c) (hone : c.refs ≠ 1) :
    Counted (h.set o (some { c with refs := c.refs - 1 })) H := by
  have hpos := hc.pos hcell
  have hexact := hc.exact hcell
  rw [count_cons_self] at hexact
  refine hc.set hcell rfl (fun q hq => ?_) ?_ ?_
  · rw [count_cons, if_neg hq, Nat.add_zero]
  · show c.refs - 1 = _
    omega
  · show 0 < c.refs - 1
    omega

/-- What a cell is for has nothing to do with its count. -/
theorem Counted.setBody (hc : Counted h H) (hcell : h.cell o = some c) (body : β) :
    Counted (h.set o (some { c with body := body })) H := by
  have hexact := hc.exact hcell
  have hpos := hc.pos hcell
  exact hc.set hcell rfl (fun _ _ => rfl) hexact hpos

theorem bodies_set (hcell : h.cell o = some c) (x : Option (Cell β)) :
    (x.toList.map Cell.body ++ h.bodies).Perm (c.body :: Heap.bodies (h.set o x)) := by
  induction h generalizing o with
  | nil => cases hcell
  | cons y h ih =>
    cases o with
    | zero =>
      obtain rfl : y = some c := hcell
      cases x with
      | none => exact List.Perm.refl _
      | some x => exact List.Perm.swap _ _ _
    | succ o =>
      have hperm := ih (o := o) hcell
      cases y with
      | none => exact hperm
      | some y =>
        refine List.perm_middle.trans ((hperm.cons y.body).trans ?_)
        exact List.Perm.swap _ _ _

/-- What is left of the heap when a reference has been dropped: cells are gone or have another
count. -/
def Below (h h' : Heap β) : Prop :=
  h'.length = h.length ∧ ∀ o c', h'.cell o = some c' → ∃ c, h.cell o = some c ∧ c'.link = c.link ∧
    c'.body = c.body

theorem Below.trans {h'' : Heap β} (hb : Below h h') (hb' : Below h' h'') : Below h h'' := by
  refine ⟨hb'.1.trans hb.1, fun o c hc => ?_⟩
  obtain ⟨d, hd, hlink, hbody⟩ := hb'.2 o c hc
  obtain ⟨e, he, hlink', hbody'⟩ := hb.2 o d hd
  exact ⟨e, he, hlink.trans hlink', hbody.trans hbody'⟩

theorem below_set (hcell : h.cell o = some c) {x : Option (Cell β)}
    (hx : ∀ d, x = some d → d.link = c.link ∧ d.body = c.body) : Below h (h.set o x) := by
  refine ⟨List.length_set, fun q d hd => ?_⟩
  rw [cell_set _ (cell_lt hcell)] at hd
  split at hd
  · rename_i hq
    subst hq
    exact ⟨c, hcell, (hx d hd).1, (hx d hd).2⟩
  · exact ⟨d, hd, rfl, rfl⟩

theorem dropFrom_ok :
    ∀ {fuel o : Nat} {h : Heap β} {H : Multiset Nat}, o < fuel → Counted h (o ::ₘ H) →
    ∃ h' gone, dropFrom fuel h o = some (h', gone) ∧ Counted h' H ∧
    h.bodies.Perm (gone ++ h'.bodies) ∧ Below h h' := by
  intro fuel
  induction fuel with
  | zero => exact fun hlt => absurd hlt (Nat.not_lt_zero _)
  | succ fuel ih =>
    intro o h H hlt hc
    obtain ⟨c, hcell⟩ := hc.of_mem (Multiset.mem_cons_self o H)
    rw [dropFrom, hcell]
    simp only
    by_cases hone : c.refs = 1
    · rw [if_pos hone]
      obtain ⟨hcounted, -, -⟩ := destroy_ok hc hcell hone
      have hperm := bodies_set hcell none
      have hbelow := below_set (x := none) hcell nofun
      cases hlink : c.link with
      | none =>
        rw [hlink] at hcounted
        exact ⟨_, _, rfl, hcounted, hperm, hbelow⟩
      | some p =>
        rw [hlink] at hcounted
        -- the chain goes down to older cells
        have hp : p < fuel := by
          have := hc.older hcell hlink
          omega
        obtain ⟨h', gone, heq, hcounted', hperm', hbelow'⟩ := ih hp hcounted
        simp only [heq]
        exact ⟨_, _, rfl, hcounted', hperm.trans (hperm'.cons _), hbelow.trans hbelow'⟩
    · rw [if_neg hone, if_neg (Nat.ne_of_gt (hc.pos hcell))]
      refine ⟨_, _, rfl, lower_ok hc hcell hone, ?_, below_set hcell ?_⟩
      · exact (List.perm_cons _).1 (bodies_set hcell (some { c with refs := c.refs - 1 }))
      · rintro d ⟨⟩
        exact ⟨rfl, rfl⟩

/-- **One reference less.**  Every cell that loses its last reference is destroyed, once. -/
theorem dropRef_ok (hc : Counted h (o ::ₘ H)) :
    ∃ h' gone, h.dropRef o = some (h', gone) ∧ Counted h' H ∧
    h.bodies.Perm (gone ++ h'.bodies) ∧ Below h h' :=
  dropFrom_ok (Nat.lt_succ_self o) hc

/-- The old cells are gone or have another count; there may be new ones. -/
def Grown (h h' : Heap β) : Prop :=
  h.length ≤ h'.length ∧ ∀ o c', o < h.length → h'.cell o = some c' →
    ∃ c, h.cell o = some c ∧ c'.link = c.link ∧ c'.body = c.body

theorem Grown.refl (h : Heap β) : Grown h h := ⟨le_rfl, fun _ c _ hc => ⟨c, hc, rfl, rfl⟩⟩

theorem Grown.trans {h'' : Heap β} (hg : Grown h h') (hg' : Grown h' h'') : Grown h h'' := by
  refine ⟨hg.1.trans hg'.1, fun o c ho hc => ?_⟩
  obtain ⟨d, hd, hlink, hbody⟩ := hg'.2 o c (lt_of_lt_of_le ho hg.1) hc
  obtain ⟨e, he, hlink', hbody'⟩ := hg.2 o d ho hd
  exact ⟨e, he, hlink.trans hlink', hbody.trans hbody'⟩

theorem Below.grown (hb : Below h h') :
    Grown h h' := ⟨le_of_eq hb.1.symm, fun o c _ hc => hb.2 o c hc⟩

theorem grown_append (h : Heap β) (x : Option (Cell β)) : Grown h (h ++ [x]) := by
  refine ⟨by simp, fun o c ho hc => ?_⟩
  rw [cell_append, if_neg (Nat.ne_of_lt ho)] at hc
  exact ⟨c, hc, rfl, rfl⟩

/-- There was a cell, and there is none any more. -/
def Gone (h : Heap β) (o : Nat) : Prop := o < h.length ∧ h.cell o = none

theorem Gone.append (hg : Gone h o) (x : Option (Cell β)) : Gone (h ++ [x]) o := by
  refine ⟨by simp only [List.length_append, List.length_singleton]; exact Nat.lt_succ_of_lt hg.1,
    ?_⟩
  rw [cell_append, if_neg (Nat.ne_of_lt hg.1)]
  exact hg.2

theorem Gone.set {q : Nat} (hg : Gone h o) (hcell : h.cell q = some c) (x : Option (Cell β)) :
    Gone (h.set q x) o := by
  have hne : o ≠ q := by
    rintro rfl
    rw [hg.2] at hcell
    cases hcell
  refine ⟨by rw [List.length_set]; exact hg.1, ?_⟩
  rw [cell_set _ (cell_lt hcell), if_neg hne]
  exact hg.2

theorem Gone.below (hg : Gone h o) (hb : Below h h') : Gone h' o := by
  refine ⟨hb.1 ▸ hg.1, ?_⟩
  cases hcell : h'.cell o with
  | none => rfl
  | some c =>
    obtain ⟨d, hd, -⟩ := hb.2 o c hcell
    rw [hg.2] at hd
    cases hd

end Operations

end RefCount
