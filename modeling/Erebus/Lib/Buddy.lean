import Mathlib.Tactic
import Mathlib.Data.Nat.Bitwise

/-!
# Aligned blocks and the places that keep them

The bookkeeping behind a buddy allocator, for any frames, any blocks and any set of places.

* `Block`: `2 ^ order` consecutive frames; two buddies make one block of the next order
  (`buddy_cases`).
* `Tiling F m bs`: aligned blocks of order at most `m` that cover every frame of `F` exactly once.
  Splitting a block and merging two buddies are both instances of `Tiling.replace`.
* `Ledger f L`: the items lying in each place `c`, with multiplicity, are `f c`; `L` lists all of
  them.
* `Shelved F m f`: all blocks lying in all places tile `F`. Moving a block from one place to
  another, and splitting or merging within a place, keep that.
-/

namespace Buddy

/-! ## Blocks -/

/-- `2 ^ order` frames from `base` on. -/
structure Block where
  base : Nat
  order : Nat
  deriving DecidableEq, Repr

instance : Membership Nat Block where
  mem b f := b.base ≤ f ∧ f < b.base + 2 ^ b.order

theorem mem_block {b : Block} {f : Nat} : f ∈ b ↔ b.base ≤ f ∧ f < b.base + 2 ^ b.order := Iff.rfl

namespace Block

/-- Naturally aligned. -/
def Aligned (b : Block) : Prop := 2 ^ b.order ∣ b.base

/-- No frame in common. -/
def Apart (a b : Block) : Prop := ∀ f, f ∈ a → f ∉ b

theorem Apart.symm {a b : Block} (h : Apart a b) : Apart b a :=
  fun f hb ha => h f ha hb

theorem base_mem (b : Block) : b.base ∈ b :=
  ⟨le_refl _, Nat.lt_add_of_pos_right (Nat.two_pow_pos _)⟩

theorem Apart.base_ne {a b : Block} (h : Apart a b) : a.base ≠ b.base := by
  intro heq
  apply h a.base a.base_mem
  rw [heq]
  exact b.base_mem

end Block

theorem xor_one (k : Nat) : (k % 2 = 0 ∧ k ^^^ 1 = k + 1) ∨ (k % 2 = 1 ∧ (k ^^^ 1) + 1 = k) := by
  have hmod : (k ^^^ 1) % 2 = (k + 1) % 2 := Nat.xor_mod_two_eq
  have hdiv : (k ^^^ 1) / 2 = k / 2 := by
    rw [Nat.xor_div_two]
    simp
  omega

/-- The buddy of an aligned block is its other half one order up: the upper half if the block itself
is aligned to the next order, the lower half otherwise. -/
theorem buddy_cases {p o : Nat} (h : 2 ^ o ∣ p) : (2 ^ (o + 1) ∣ p ∧ p ^^^ 2 ^ o = p + 2 ^ o) ∨
      (2 ^ (o + 1) ∣ p ^^^ 2 ^ o ∧ (p ^^^ 2 ^ o) + 2 ^ o = p) := by
  obtain ⟨k, rfl⟩ := h
  have hxor : 2 ^ o * k ^^^ 2 ^ o = 2 ^ o * (k ^^^ 1) := by
    have := Nat.shiftLeft_xor_distrib (a := k) (b := 1) (i := o)
    simp only [Nat.shiftLeft_eq, one_mul] at this
    rw [Nat.mul_comm, ← this, Nat.mul_comm]
  rw [hxor]
  rcases xor_one k with ⟨heven, hk⟩ | ⟨hodd, hk⟩
  · left
    obtain ⟨m, rfl⟩ := Nat.dvd_of_mod_eq_zero heven
    refine ⟨⟨m, by ring⟩, ?_⟩
    rw [hk]
    ring
  · right
    have heven : (k ^^^ 1) % 2 = 0 := by omega
    obtain ⟨m, hm⟩ := Nat.dvd_of_mod_eq_zero heven
    refine ⟨⟨m, by rw [hm]; ring⟩, ?_⟩
    calc 2 ^ o * (k ^^^ 1) + 2 ^ o = 2 ^ o * ((k ^^^ 1) + 1) := by ring
      _ = 2 ^ o * k := by rw [hk]

/-! ## Tilings -/

/-- Aligned blocks, no two of which overlap, that cover exactly the frames of `F`. -/
structure Tiling (F : Set Nat) (m : Nat) (bs : List Block) : Prop where
  aligned : ∀ b ∈ bs, b.Aligned
  order_le : ∀ b ∈ bs, b.order ≤ m
  apart : bs.Pairwise Block.Apart
  cover : ∀ f, f ∈ F ↔ ∃ b ∈ bs, f ∈ b

variable {F : Set Nat} {m : Nat}
variable {rest : List Block} {p o : Nat}

theorem Tiling.perm {bs bs' : List Block} (h : Tiling F m bs) (hp : bs.Perm bs') :
    Tiling F m bs' where
  aligned b hb := h.aligned b (hp.mem_iff.2 hb)
  order_le b hb := h.order_le b (hp.mem_iff.2 hb)
  apart := (hp.pairwise_iff (fun hab => hab.symm)).1 h.apart
  cover f := by
    rw [h.cover]
    exact exists_congr fun b => and_congr_left fun _ => hp.mem_iff

/-- Some blocks may be exchanged for others that cover the same frames. -/
theorem Tiling.replace (xs ys : List Block) (h : Tiling F m (xs ++ rest))
    (hok : ∀ b ∈ ys, b.Aligned ∧ b.order ≤ m)
    (hapart : ys.Pairwise Block.Apart) (hcover : ∀ f, (∃ b ∈ xs, f ∈ b) ↔ ∃ b ∈ ys, f ∈ b) :
    Tiling F m (ys ++ rest) := by
  obtain ⟨-, hrest, hcross⟩ := List.pairwise_append.1 h.apart
  refine ⟨?_, ?_, ?_, ?_⟩
  · intro b hb
    rcases List.mem_append.1 hb with hb | hb
    · exact (hok b hb).1
    · exact h.aligned b (by simp [hb])
  · intro b hb
    rcases List.mem_append.1 hb with hb | hb
    · exact (hok b hb).2
    · exact h.order_le b (by simp [hb])
  · refine List.pairwise_append.2 ⟨hapart, hrest, fun y hy r hr f hfy => ?_⟩
    obtain ⟨x, hx, hfx⟩ := (hcover f).2 ⟨y, hy, hfy⟩
    exact hcross x hx r hr f hfx
  · intro f
    rw [h.cover]
    simp only [List.mem_append, or_and_right, exists_or, hcover]

/-- The two halves of a block. -/
theorem mem_halves {f : Nat} :
    f ∈ (⟨p, o + 1⟩ : Block) ↔ f ∈ (⟨p, o⟩ : Block) ∨ f ∈ (⟨p + 2 ^ o, o⟩ : Block) := by
  have hpow : 2 ^ (o + 1) = 2 ^ o + 2 ^ o := by ring
  simp only [mem_block]
  omega

theorem halves_apart (p o : Nat) : Block.Apart ⟨p, o⟩ ⟨p + 2 ^ o, o⟩ := by
  intro f hlow hhigh
  simp only [mem_block] at hlow hhigh
  omega

theorem halves_aligned (h : 2 ^ (o + 1) ∣ p) : 2 ^ o ∣ p ∧ 2 ^ o ∣ p + 2 ^ o := by
  have hlow : 2 ^ o ∣ p := (pow_dvd_pow 2 (Nat.le_succ o)).trans h
  exact ⟨hlow, (Nat.dvd_add_right hlow).2 (dvd_refl _)⟩

theorem Tiling.split (h : Tiling F m (⟨p, o + 1⟩ :: rest)) :
    Tiling F m (⟨p, o⟩ :: ⟨p + 2 ^ o, o⟩ :: rest) := by
  have haligned := halves_aligned (h.aligned ⟨p, o + 1⟩ (by simp))
  have horder : o ≤ m := (Nat.le_succ o).trans (h.order_le ⟨p, o + 1⟩ (by simp))
  apply Tiling.replace [⟨p, o + 1⟩] [⟨p, o⟩, ⟨p + 2 ^ o, o⟩] h
  · intro b hb
    simp only [List.mem_cons, List.not_mem_nil, or_false] at hb
    rcases hb with rfl | rfl
    · exact ⟨haligned.1, horder⟩
    · exact ⟨haligned.2, horder⟩
  · simpa using halves_apart p o
  · intro f
    simp [mem_halves]

/-- Buddies in either order merge into the block that starts at the lower one. -/
theorem Tiling.merge (hom : o < m) (h : Tiling F m (⟨p, o⟩ :: ⟨p ^^^ 2 ^ o, o⟩ :: rest)) :
    Tiling F m (⟨min p (p ^^^ 2 ^ o), o + 1⟩ :: rest) := by
  have hp : 2 ^ o ∣ p := h.aligned ⟨p, o⟩ (by simp)
  refine Tiling.replace [⟨p, o⟩, ⟨p ^^^ 2 ^ o, o⟩] [⟨_, o + 1⟩] h ?_ (by simp) ?_
  · simp only [List.mem_singleton, forall_eq, Block.Aligned]
    refine ⟨?_, hom⟩
    rcases buddy_cases hp with ⟨hd, hq⟩ | ⟨hd, hq⟩
    · rwa [hq, min_eq_left (Nat.le_add_right _ _)]
    · rwa [min_eq_right (by omega)]
  · intro f
    rcases buddy_cases hp with ⟨-, hq⟩ | ⟨-, hq⟩
    · rw [hq, min_eq_left (Nat.le_add_right _ _)]
      simp [mem_halves]
    · rw [min_eq_right (by omega)]
      simp only [List.mem_cons, List.not_mem_nil, or_false, exists_eq_or_imp, exists_eq_left,
        mem_halves, hq]
      exact or_comm

/-- The buddy of a lower half is the upper half. -/
theorem buddy_of_lower (h : 2 ^ (o + 1) ∣ p) : p ^^^ 2 ^ o = p + 2 ^ o := by
  rcases buddy_cases (dvd_trans (pow_dvd_pow 2 (Nat.le_succ o)) h) with ⟨-, heq⟩ | ⟨hother, heq⟩
  · exact heq
  · -- both halves would be aligned to the next order
    have hdvd : 2 ^ (o + 1) ∣ 2 ^ o := by
      rw [← heq] at h
      exact (Nat.dvd_add_right hother).1 h
    have hle := Nat.le_of_dvd (Nat.two_pow_pos o) hdvd
    exact absurd ((Nat.pow_le_pow_iff_right Nat.one_lt_two).1 hle) (Nat.not_succ_le_self o)

/-! ## Regions made whole -/

section

variable {P : Block → Prop} {m : Nat}

theorem Block.Aligned.base_eq {b : Block} (h : b.Aligned) {f : Nat}
    (hdvd : 2 ^ b.order ∣ f) (hf : f ∈ b) : b.base = f := by
  obtain ⟨c, hc⟩ := h
  obtain ⟨d, rfl⟩ := hdvd
  obtain ⟨hle, hlt⟩ := hf
  rw [hc, ← Nat.mul_succ] at hlt
  rw [hc] at hle ⊢
  have hpos := Nat.two_pow_pos b.order
  have := Nat.le_of_mul_le_mul_left hle hpos
  have := Nat.lt_of_mul_lt_mul_left hlt
  rw [show c = d by omega]

/-- An aligned block that holds a frame of the upper half of a smaller aligned region holds its
first frame. -/
theorem Block.Aligned.base_mem_of_upper {b : Block} (h : b.Aligned) {base k : Nat}
    (hk : k < b.order) (hbase : 2 ^ (k + 1) ∣ base) (hf : base + 2 ^ k ∈ b) : base ∈ b := by
  obtain ⟨d, rfl⟩ := hbase
  obtain ⟨c, hc⟩ : 2 ^ (k + 1) ∣ b.base := dvd_trans (pow_dvd_pow 2 hk) h
  obtain ⟨hle, hlt⟩ := hf
  refine ⟨?_, lt_of_le_of_lt (Nat.le_add_right _ _) hlt⟩
  have hlt' : 2 ^ (k + 1) * c < 2 ^ (k + 1) * (d + 1) := by
    have hsucc : 2 ^ (k + 1) = 2 ^ k + 2 ^ k := by rw [pow_succ, Nat.mul_two]
    have := Nat.two_pow_pos k
    rw [← hc, Nat.mul_succ]
    omega
  rw [hc]
  exact Nat.mul_le_mul_left _ (Nat.le_of_lt_succ (Nat.lt_of_mul_lt_mul_left hlt'))

/-- **A covered region is one block.**  If the blocks of `P` are aligned and no two of them are
buddies of an order below `m`, an aligned region of order `m` that they cover is one of them. -/
theorem whole_of_covered (haligned : ∀ b, P b → b.Aligned) (horder : ∀ b, P b → b.order ≤ m)
    (hno : ∀ p o, o < m → P ⟨p, o⟩ → ¬ P ⟨p ^^^ 2 ^ o, o⟩) {base : Nat} (hdvd : 2 ^ m ∣ base)
    (hcover : ∀ f ∈ (⟨base, m⟩ : Block), ∃ b, P b ∧ f ∈ b) : P ⟨base, m⟩ := by
  -- for every order up to `m`: a covered region of that order lies in a block that is no smaller
  have key : ∀ k ≤ m, ∀ base, 2 ^ k ∣ base → (∀ f ∈ (⟨base, k⟩ : Block), ∃ b, P b ∧ f ∈ b) →
      ∃ b, P b ∧ k ≤ b.order ∧ base ∈ b := by
    intro k
    induction k with
    | zero =>
      intro _ base _ hcover
      obtain ⟨b, hb, hf⟩ := hcover base (Block.base_mem _)
      exact ⟨b, hb, Nat.zero_le _, hf⟩
    | succ k ih =>
      intro hk base hdvd hcover
      have hhalf : 2 ^ k ∣ base := dvd_trans (pow_dvd_pow 2 (Nat.le_succ k)) hdvd
      have hsucc : 2 ^ (k + 1) = 2 ^ k + 2 ^ k := by rw [pow_succ, Nat.mul_two]
      obtain ⟨a, ha, hka, hbase⟩ := ih (by omega) base hhalf fun f hf =>
        hcover f ⟨hf.1, by have := hf.2; show f < base + 2 ^ (k + 1); simp only at this; omega⟩
      obtain ⟨b, hb, hkb, hupper⟩ :=
        ih (by omega) (base + 2 ^ k) (Nat.dvd_add hhalf dvd_rfl) fun f hf =>
        hcover f ⟨by have := hf.1; show base ≤ f; simp only at this; omega,
          by have := hf.2; show f < base + 2 ^ (k + 1); simp only at this; omega⟩
      rcases Nat.lt_or_ge k a.order with hlt | hge
      · exact ⟨a, ha, hlt, hbase⟩
      · rcases Nat.lt_or_ge k b.order with hlt | hge'
        · exact ⟨b, hb, hlt, (haligned b hb).base_mem_of_upper hlt hdvd hupper⟩
        · -- both halves are blocks of their own, and buddies
          have hao : a.order = k := by omega
          have hbo : b.order = k := by omega
          have hab : a.base = base := (haligned a ha).base_eq (by rwa [hao]) hbase
          have hbb : b.base = base + 2 ^ k :=
            (haligned b hb).base_eq (by rw [hbo]; exact Nat.dvd_add hhalf dvd_rfl) hupper
          refine absurd ?_ (hno base k (by omega) ?_)
          · rw [buddy_of_lower hdvd, ← hbb, ← hbo]
            exact hb
          · rw [← hab, ← hao]
            exact ha
  obtain ⟨b, hb, hle, hbase⟩ := key m le_rfl base hdvd hcover
  have hbo : b.order = m := le_antisymm (horder b hb) hle
  have hbb : b.base = base := (haligned b hb).base_eq (by rwa [hbo]) hbase
  rw [← hbb, ← hbo]
  exact hb

end

/-! ## Items in places -/

section

variable {ι β : Type} [DecidableEq ι]
variable {f : ι → List β} {L : List (ι × β)} {c : ι} {b : β}

/-- `L` lists every item together with the place it lies in. -/
def Ledger (f : ι → List β) (L : List (ι × β)) : Prop :=
  ∀ c, (f c).Perm ((L.filter fun e => e.1 = c).map Prod.snd)

variable (h : Ledger f L)
include h

theorem Ledger.mem : b ∈ f c ↔ (c, b) ∈ L := by
  rw [(h c).mem_iff]
  simp

/-- Taking one item out of its place. -/
theorem Ledger.take {l : List β} (hc : (f c).Perm (b :: l)) :
    ∃ L', L.Perm ((c, b) :: L') ∧ Ledger (Function.update f c l) L' := by
  have hmem : (c, b) ∈ L := h.mem.1 (hc.mem_iff.2 (by simp))
  obtain ⟨A, B, rfl⟩ := List.append_of_mem hmem
  refine ⟨A ++ B, List.perm_middle, fun d => ?_⟩
  have hd := h d
  by_cases hdc : d = c
  · subst hdc
    have hcons : (b :: l).Perm (b :: ((A ++ B).filter fun e => e.1 = d).map Prod.snd) := by
      refine (hc.symm.trans hd).trans ?_
      simp
    simpa using hcons.cons_inv
  · have hcd : ¬ c = d := fun heq => hdc heq.symm
    simpa [hdc, hcd] using hd

/-- Putting one item into a place. -/
theorem Ledger.put {l : List β} (hc : l.Perm (b :: f c)) :
    Ledger (Function.update f c l) ((c, b) :: L) := by
  intro d
  by_cases hdc : d = c
  · subst hdc
    simpa using hc.trans ((h d).cons b)
  · have hcd : ¬ c = d := fun heq => hdc heq.symm
    simpa [hdc, hcd] using h d

theorem Ledger.congr {f' : ι → List β} (hf : ∀ c, (f' c).Perm (f c)) : Ledger f' L :=
  fun c => (hf c).trans (h c)

/-- Every item of every place, two different ones at a time. -/
theorem Ledger.pairwise {R : β → β → Prop} (hsymm : ∀ {a b}, R a b → R b a)
    (hR : (L.map Prod.snd).Pairwise R) :
    (∀ c, (f c).Pairwise R) ∧ ∀ c d, c ≠ d → ∀ a ∈ f c, ∀ b ∈ f d, R a b := by
  constructor
  · intro c
    have hsub : ((L.filter fun e => e.1 = c).map Prod.snd).Sublist (L.map Prod.snd) :=
      List.filter_sublist.map Prod.snd
    exact ((h c).pairwise_iff hsymm).2 (hR.sublist hsub)
  · intro c d hcd a ha b hb
    have hpair : L.Pairwise fun x y => R x.2 y.2 := List.pairwise_map.1 hR
    have hforth : L.Pairwise fun x y => x ≠ y → R x.2 y.2 := by
      apply hpair.imp
      intro x y hxy _
      exact hxy
    have hback : L.Pairwise (flip fun x y => x ≠ y → R x.2 y.2) := by
      apply hpair.imp
      intro x y hxy _
      exact hsymm hxy
    apply List.Pairwise.forall_of_forall_of_flip (fun x _ hne => absurd rfl hne) hforth hback
      (h.mem.1 ha) (h.mem.1 hb)
    intro heq
    exact hcd (congrArg Prod.fst heq)

omit h

end

/-! ## Blocks in places -/

section

variable {ι : Type} [DecidableEq ι]

/-- All blocks lying in all places together tile `F`. -/
def Shelved (F : Set Nat) (m : Nat) (f : ι → List Block) : Prop :=
  ∃ L, Ledger f L ∧ Tiling F m (L.map Prod.snd)

variable {f f' : ι → List Block}
variable {c : ι} {b : Block} {l : List Block}

variable (h : Shelved F m f)
include h

theorem Shelved.congr (hf : ∀ c, (f' c).Perm (f c)) : Shelved F m f' := by
  obtain ⟨L, hL, ht⟩ := h
  exact ⟨L, hL.congr hf, ht⟩

theorem Shelved.aligned (hb : b ∈ f c) : b.Aligned := by
  obtain ⟨L, hL, ht⟩ := h
  exact ht.aligned b (List.mem_map.2 ⟨(c, b), hL.mem.1 hb, rfl⟩)

theorem Shelved.order_le (hb : b ∈ f c) : b.order ≤ m := by
  obtain ⟨L, hL, ht⟩ := h
  exact ht.order_le b (List.mem_map.2 ⟨(c, b), hL.mem.1 hb, rfl⟩)

theorem Shelved.cover (g : Nat) : g ∈ F ↔ ∃ c, ∃ b ∈ f c, g ∈ b := by
  obtain ⟨L, hL, ht⟩ := h
  rw [ht.cover]
  constructor
  · rintro ⟨b, hb, hg⟩
    obtain ⟨⟨c, b'⟩, he, rfl⟩ := List.mem_map.1 hb
    exact ⟨c, b', hL.mem.2 he, hg⟩
  · rintro ⟨c, b, hb, hg⟩
    exact ⟨b, List.mem_map.2 ⟨(c, b), hL.mem.1 hb, rfl⟩, hg⟩

theorem Shelved.apart :
    (∀ c, (f c).Pairwise Block.Apart) ∧ ∀ c d, c ≠ d → ∀ a ∈ f c, ∀ b ∈ f d, Block.Apart a b := by
  obtain ⟨L, hL, ht⟩ := h
  exact hL.pairwise (fun hab => hab.symm) ht.apart

/-- Two places that are not the same keep blocks with different first frames. -/
theorem Shelved.base_ne {d : ι} (hcd : c ≠ d) {a : Block} (ha : a ∈ f c) (hb : b ∈ f d) :
    a.base ≠ b.base :=
  (h.apart.2 c d hcd a ha b hb).base_ne

/-- Moving a block to another place. -/
theorem Shelved.move {d : ι} (hcd : c ≠ d) (hc : (f c).Perm (b :: l)) (hc' : (f' c).Perm l)
    (hd' : (f' d).Perm (b :: f d)) (hrest : ∀ e, e ≠ c → e ≠ d → (f' e).Perm (f e)) :
    Shelved F m f' := by
  obtain ⟨L, hL, ht⟩ := h
  obtain ⟨L', hperm, hL'⟩ := hL.take hc
  have hput :=
    hL'.put (c := d) (b := b) (l := f' d) (by simpa [Function.update_of_ne hcd.symm] using hd')
  refine ⟨(d, b) :: L', hput.congr fun e => ?_, ht.perm ?_⟩
  · by_cases hed : e = d
    · subst hed
      simp
    · by_cases hec : e = c
      · subst hec
        simpa [hed] using hc'
      · simpa [hed, hec] using hrest e hec hed
  · simpa using hperm.map Prod.snd

/-- Exchanging the blocks `xs` of one place for blocks `ys` that tile the same frames. -/
theorem Shelved.replace (xs ys : List Block) {x : Block} (hc : (f c).Perm (x :: xs ++ l))
    (hc' : (f' c).Perm (ys ++ l)) (hrest : ∀ e, e ≠ c → (f' e).Perm (f e))
    (htile : ∀ rest, Tiling F m (x :: xs ++ rest) → Tiling F m (ys ++ rest)) : Shelved F m f' := by
  -- take `xs` out one by one, then put `ys` in one by one
  have htake : ∀ (xs : List Block) (f : ι → List Block) (L : List (ι × Block)), Ledger f L →
      (f c).Perm (xs ++ l) →
        ∃ L', (L.map Prod.snd).Perm (xs ++ L'.map Prod.snd) ∧
        Ledger (Function.update f c l) L' := by
    intro xs
    induction xs with
    | nil =>
      intro f L hL hc
      refine ⟨L, by simp, hL.congr fun e => ?_⟩
      by_cases hec : e = c
      · subst hec
        simpa using hc.symm
      · simp [hec]
    | cons x xs ih =>
      intro f L hL hc
      obtain ⟨L₁, hperm₁, hL₁⟩ := hL.take hc
      obtain ⟨L₂, hperm₂, hL₂⟩ := ih _ L₁ hL₁ (by simp)
      refine ⟨L₂, ?_, by simpa using hL₂⟩
      have := hperm₁.map Prod.snd
      simp only [List.map_cons] at this
      exact this.trans (hperm₂.cons x)
  have hput : ∀ (ys : List Block) (f : ι → List Block) (L : List (ι × Block)), Ledger f L →
      ∃ L', (L'.map Prod.snd).Perm (ys ++ L.map Prod.snd) ∧
      Ledger (Function.update f c (ys ++ f c)) L' := by
    intro ys
    induction ys with
    | nil => exact fun f L hL => ⟨L, by simp, by simpa using hL⟩
    | cons y ys ih =>
      intro f L hL
      obtain ⟨L', hperm, hL'⟩ := ih f L hL
      refine ⟨(c, y) :: L', by simpa using hperm, ?_⟩
      have := hL'.put (c := c) (b := y) (l := y :: (ys ++ f c)) (by simp)
      simpa using this
  obtain ⟨L, hL, ht⟩ := h
  obtain ⟨L₁, hperm₁, hL₁⟩ := htake (x :: xs) f L hL hc
  obtain ⟨L₂, hperm₂, hL₂⟩ := hput ys _ L₁ hL₁
  refine ⟨L₂, hL₂.congr fun e => ?_, (htile _ (ht.perm hperm₁)).perm hperm₂.symm⟩
  by_cases hec : e = c
  · subst hec
    simpa using hc'
  · simpa [hec] using hrest e hec

theorem Shelved.split {p o : Nat} (hc : (f c).Perm (⟨p, o + 1⟩ :: l))
    (hc' : (f' c).Perm (⟨p, o⟩ :: ⟨p + 2 ^ o, o⟩ :: l)) (hrest : ∀ e, e ≠ c → (f' e).Perm (f e)) :
    Shelved F m f' :=
  h.replace [] [⟨p, o⟩, ⟨p + 2 ^ o, o⟩] hc hc' hrest fun _ ht => ht.split

theorem Shelved.merge {p o : Nat} (hom : o < m) (hc : (f c).Perm (⟨p, o⟩ :: ⟨p ^^^ 2 ^ o, o⟩ :: l))
    (hc' : (f' c).Perm (⟨min p (p ^^^ 2 ^ o), o + 1⟩ :: l))
    (hrest : ∀ e, e ≠ c → (f' e).Perm (f e)) : Shelved F m f' :=
  h.replace [⟨p ^^^ 2 ^ o, o⟩] [_] hc hc' hrest fun _ ht => ht.merge hom

omit h

end

end Buddy
