import Erebus.Lib.System
import Erebus.Memory.Heap.Create

/-!
# `kmalloc`, `kfree` and `krealloc`

A pointer does not say where it came from: `kfree` and `krealloc` read that from the descriptor of
its frame.

* `Pool`: the descriptors, the memory, the frames that are slabs of a size class, and the blocks
  that callers have.
* The caches and the page allocator answer with blocks aligned to their size and apart from all
  others (`Fits`). What they do to free memory and to the descriptors of other frames are steps of
  their own.
* `Inv.sourceAt`: the descriptor tells where a block came from, in every reachable state.
* `kmalloc_run`: what callers get, over every run.
-/

namespace Erebus.Heap

/-- `KMALLOC_MIN_SHIFT`. -/
def kmallocMinShift : Nat := 3

/-- `NUM_KMALLOC_CACHES`. -/
def numKmallocCaches : Nat := 13

/-- `size_to_index`; `Nat.clog 2` is `countr_zero(bit_ceil(size))`. -/
def sizeToIndex (size : Nat) :
    Nat := if size ≤ 2 ^ kmallocMinShift then 0 else Nat.clog 2 size - kmallocMinShift

/-- `div_round_up` by `PAGE_SIZE`. -/
def pageCount (size : Nat) : Nat := size / pageSize + if size % pageSize = 0 then 0 else 1

/-- Where a block came from: a size class, or the page allocator. -/
inductive Source where
  | object (index : Nat)
  | pages (order : Nat)
  deriving DecidableEq, Repr

/-- The logarithm of the block's size. -/
def Source.shift : Source → Nat
  | .object index => index + kmallocMinShift
  | .pages order => 12 + order

/-- `obj_size`, or `PAGE_SIZE << order`. -/
def Source.size (src : Source) : Nat := 2 ^ src.shift

/-- A block that a caller has. -/
structure Block where
  addr : Nat
  source : Source
  deriving DecidableEq, Repr

namespace Block

def Covers (b : Block) (a : Nat) : Prop := b.addr ≤ a ∧ a < b.addr + b.source.size

instance (b : Block) (a : Nat) : Decidable (b.Covers a) := inferInstanceAs (Decidable (_ ∧ _))

def Apart (b b' : Block) : Prop := ∀ a, b.Covers a → ¬b'.Covers a

end Block

/-- The frame of an address. -/
def frameOf (a : Nat) : Nat := a / pageSize

/-- `cache` and `order` are fields of the descriptors; `slab` says which frames the size classes
have. -/
structure Pool where
  cache : Nat → Option Nat := fun _ => none
  order : Nat → Nat := fun _ => 0
  mem : Nat → UInt8 := fun _ => 0
  slab : Nat → Option Nat := fun _ => none
  live : List Block := []

/-- The test of `kmalloc` on its arguments, and where it then looks. -/
def sourceFor (size alignment : Nat) : Option Source :=
  if size = 0 ∨ hasSingleBit alignment = false then
    none
  else
    let required := max size alignment
    let index := sizeToIndex required
    if index < numKmallocCaches then some (.object index)
    else
      -- the cast to `std::uint8_t`, and the bound that `alloc_pages` checks
      let order := Nat.clog 2 (pageCount required) % 2 ^ 8
      if Pmm.maxOrder < order then none else some (.pages order)

namespace Pool

variable (σ : Pool)

/-- What `kfree` and `krealloc` read from the descriptor. -/
def sourceAt (p : Nat) : Source :=
  match σ.cache (frameOf p) with
  | some index => .object index
  | none => .pages (σ.order (frameOf p))

/-- The allocators may write to all memory that nobody has. -/
def scribble (m : Nat → UInt8) : Pool :=
  { σ with mem := fun a => if ∃ b ∈ σ.live, b.Covers a then σ.mem a else m a }

/-- A block is handed out. `alloc_pages` stores the order, `kmalloc` the null cache. -/
def handOut (p : Nat) : Source → Pool
  | .object index => { σ with live := ⟨p, .object index⟩ :: σ.live }
  | .pages order =>
    { σ with
      cache := Function.update σ.cache (frameOf p) none
      order := Function.update σ.order (frameOf p) order
      live := ⟨p, .pages order⟩ :: σ.live }

/-- `kmalloc`, with the answer of the cache or the page allocator, and what they write to free
memory. -/
def kmalloc (size alignment : Nat) (answer : Option Nat) (m : Nat → UInt8) : Option Nat × Pool :=
  match sourceFor size alignment, answer with
  | some src, some p => (some p, (σ.scribble m).handOut p src)
  | _, _ => (none, σ.scribble m)

/-- `kfree`: the block goes to where the descriptor says. -/
def kfree (p : Nat) (m : Nat → UInt8) : Pool :=
  if p = 0 then σ
  else { σ with live := σ.live.filter (· ≠ Block.mk p (σ.sourceAt p)) }.scribble m

/-- `memcpy`. -/
def memcpy (dst src n : Nat) : Pool :=
  { σ with mem := fun a => if dst ≤ a ∧ a < dst + n then σ.mem (src + (a - dst)) else σ.mem a }

/-- `krealloc`; `m` and `m'` are what its `kmalloc` and its `kfree` write to free memory. -/
def krealloc (p newSize align : Nat) (answer : Option Nat) (m m' : Nat → UInt8) :
    Option Nat × Pool :=
  if p = 0 then σ.kmalloc newSize align answer m
  else if newSize = 0 then (none, σ.kfree p m')
  else
    let oldSize := (σ.sourceAt p).size
    if newSize ≤ oldSize ∧ p % align = 0 then (some p, σ)
    else
      match σ.kmalloc newSize align answer m with
      | (none, σ) => (none, σ)
      | (some q, σ) => (some q, (σ.memcpy q p (min oldSize newSize)).kfree p m')

/-! ## Runs -/

/-- A block that the allocators may answer with: aligned to its size, apart from all others, and of
a slab of the class or in no slab at all. -/
structure Fits (b : Block) : Prop where
  pos : 0 < b.addr
  aligned : b.source.size ∣ b.addr
  apart : ∀ b' ∈ σ.live, b.Apart b'
  object : ∀ index, b.source = .object index → σ.slab (frameOf b.addr) = some index
  pages : ∀ order, b.source = .pages order → σ.slab (frameOf b.addr) = none

/-- What a caller may ask for. -/
structure Asked (size alignment : Nat) : Prop where
  size_le : size ≤ 2 ^ 63
  alignment_pow : ∃ k ≤ 63, alignment = 2 ^ k

/-- The answer fits the request. -/
def Answers (size alignment : Nat) (answer : Option Nat) : Prop :=
  ∀ src ∈ sourceFor size alignment, ∀ p ∈ answer, σ.Fits ⟨p, src⟩

/-- Calls, and what goes on besides: a class gets or gives back a slab, other users of frames write
their descriptors, and callers write memory. -/
inductive Step : Pool → Pool → Prop
  | kmalloc {σ : Pool} (size alignment : Nat) (answer : Option Nat) (m : Nat → UInt8)
      (hask : Asked size alignment)
      (hanswer : σ.Answers size alignment answer) : Step σ (σ.kmalloc size alignment answer m).2
  | kfree {σ : Pool} (b : Block) (m : Nat → UInt8) (hb : b ∈ σ.live) : Step σ (σ.kfree b.addr m)
  | krealloc {σ : Pool} (b : Block) (newSize align : Nat) (answer : Option Nat) (m m' : Nat → UInt8)
      (hb : b ∈ σ.live) (hask : Asked newSize align) (hanswer : σ.Answers newSize align answer) :
      Step σ (σ.krealloc b.addr newSize align answer m m').2
  | newSlab {σ : Pool} (index : Nat) (frames : List Nat)
      (hfree : ∀ f ∈ frames, σ.slab f = none ∧ ∀ b ∈ σ.live, frameOf b.addr ≠ f) : Step σ { σ with
          slab := fun f => if f ∈ frames then some index else σ.slab f
          cache := fun f => if f ∈ frames then some index else σ.cache f }
  | releaseSlab {σ : Pool} (frames : List Nat)
      (hempty : ∀ f ∈ frames, ∀ b ∈ σ.live, frameOf b.addr ≠ f) :
      Step σ { σ with slab := fun f => if f ∈ frames then none else σ.slab f }
  | descriptors {σ : Pool} (cache : Nat → Option Nat) (order : Nat → Nat)
      (hcache : ∀ f, (σ.slab f ≠ none ∨ ∃ b ∈ σ.live, frameOf b.addr = f) → cache f = σ.cache f ∧
      order f = σ.order f) : Step σ { σ with cache := cache, order := order }
  | write {σ : Pool} (m : Nat → UInt8) : Step σ { σ with mem := m }

def system : System Pool where
  init σ := σ.live = [] ∧ ∀ f, σ.slab f = none
  step := Step

/-- The descriptors tell where the blocks came from. -/
structure Inv : Prop where
  apart : σ.live.Pairwise Block.Apart
  pos : ∀ b ∈ σ.live, 0 < b.addr
  aligned : ∀ b ∈ σ.live, b.source.size ∣ b.addr
  sourceAt : ∀ b ∈ σ.live, σ.sourceAt b.addr = b.source
  object : ∀ b ∈ σ.live, ∀ index, b.source = .object index → σ.slab (frameOf b.addr) = some index
  slab : ∀ f index, σ.slab f = some index → σ.cache f = some index

end Pool

/-! ## Size classes -/

theorem Source.size_pos (src : Source) : 0 < src.size := Nat.two_pow_pos _

theorem Block.covers_addr (b : Block) : b.Covers b.addr :=
  ⟨le_rfl, Nat.lt_add_of_pos_right b.source.size_pos⟩

theorem le_pageCount (size : Nat) : size ≤ pageSize * pageCount size := by
  unfold pageCount pageSize
  split <;> omega

/-- The block has room for the request, and its size is a multiple of the alignment. -/
theorem sourceFor_spec {size alignment : Nat} {src : Source} (hask : Pool.Asked size alignment)
    (h : src ∈ sourceFor size alignment) : size ≤ src.size ∧ alignment ∣ src.size := by
  obtain ⟨hsize, k, hk, rfl⟩ := hask
  have hmax : max size (2 ^ k) ≤ 2 ^ 63 := max_le hsize (Nat.pow_le_pow_right two_pos hk)
  suffices hroom : max size (2 ^ k) ≤ src.size by
    refine ⟨(le_max_left ..).trans hroom, Nat.pow_dvd_pow 2 ?_⟩
    exact (Nat.pow_le_pow_iff_right Nat.one_lt_two).1 ((le_max_right ..).trans hroom)
  unfold sourceFor at h
  simp only at h
  generalize max size (2 ^ k) = required at h hmax ⊢
  split at h
  · cases h
  · split at h
    · cases h
      show required ≤ 2 ^ (sizeToIndex required + kmallocMinShift)
      unfold sizeToIndex
      split
      · simpa using ‹required ≤ 2 ^ kmallocMinShift›
      · exact (Nat.le_pow_clog Nat.one_lt_two _).trans (Nat.pow_le_pow_right two_pos (by omega))
    · -- the order fits into its byte, since requests are at most 2^63
      have hcount : pageCount required ≤ 2 ^ 51 := by
        unfold pageCount pageSize
        split <;> omega
      have hclog : Nat.clog 2 (pageCount required) ≤ 51 := Nat.clog_le_of_le_pow hcount
      rw [Nat.mod_eq_of_lt (by omega)] at h
      split at h
      · cases h
      · cases h
        calc required ≤ pageSize * pageCount required := le_pageCount _
          _ ≤ 2 ^ 12 * 2 ^ Nat.clog 2 (pageCount required) :=
              Nat.mul_le_mul_left _ (Nat.le_pow_clog Nat.one_lt_two _)
          _ = 2 ^ (12 + Nat.clog 2 (pageCount required)) := (pow_add ..).symm

/-! ## The descriptors -/

namespace Pool

variable {σ : Pool} {b : Block} {p : Nat}
variable {src : Source} {answer : Option Nat}

theorem Inv.scribble (h : Inv σ) (m : Nat → UInt8) : Inv (σ.scribble m) :=
  ⟨h.apart, h.pos, h.aligned, h.sourceAt, h.object, h.slab⟩

theorem Inv.memcpy (h : Inv σ) (dst src n : Nat) : Inv (σ.memcpy dst src n) :=
  ⟨h.apart, h.pos, h.aligned, h.sourceAt, h.object, h.slab⟩

theorem scribble_mem {a : Nat} (hb : b ∈ σ.live) (ha : b.Covers a) (m : Nat → UInt8) :
    (σ.scribble m).mem a = σ.mem a :=
  if_pos ⟨b, hb, ha⟩

/-- Blocks of pages start with a frame, so two of them that are apart have different first
frames. -/
theorem frameOf_inj {q order order' : Nat} (hp : (Source.pages order).size ∣ p)
    (hq : (Source.pages order').size ∣ q) (h : frameOf p = frameOf q) : p = q := by
  have hpage : ∀ o, pageSize ∣ (Source.pages o).size :=
    fun o => Nat.pow_dvd_pow 2 (Nat.le_add_right 12 o)
  rw [← Nat.div_mul_cancel ((hpage order).trans hp), ← Nat.div_mul_cancel ((hpage order').trans hq)]
  exact congrArg (· * pageSize) h

/-- The block that is handed out last shares no first frame with a block whose descriptor is
read. -/
theorem Fits.frameOf_ne {order : Nat} (h : Inv σ) (hfit : σ.Fits ⟨p, .pages order⟩)
    (hb : b ∈ σ.live) : frameOf b.addr ≠ frameOf p := by
  intro heq
  cases hsrc : b.source with
  | object index =>
    have hslab := h.object b hb index hsrc
    rw [heq, hfit.pages order rfl] at hslab
    cases hslab
  | pages order' =>
    have haligned := h.aligned b hb
    rw [hsrc] at haligned
    obtain rfl := frameOf_inj haligned hfit.aligned heq
    exact hfit.apart b hb _ (Block.covers_addr _) b.covers_addr

theorem Inv.handOut (h : Inv σ) (hfit : σ.Fits ⟨p, src⟩) : Inv (σ.handOut p src) := by
  cases src with
  | object index =>
    have hslab := hfit.object index rfl
    refine ⟨h.apart.cons hfit.apart, ?_, ?_, ?_, ?_, h.slab⟩ <;> intro b hb
    all_goals rcases List.mem_cons.1 hb with rfl | hb
    · exact hfit.pos
    · exact h.pos b hb
    · exact hfit.aligned
    · exact h.aligned b hb
    · simp only [Pool.handOut, Pool.sourceAt, h.slab _ _ hslab]
    · exact h.sourceAt b hb
    · rintro _ ⟨⟩
      exact hslab
    · exact h.object b hb
  | pages order =>
    have hne := fun b hb => Fits.frameOf_ne (b := b) h hfit hb
    refine ⟨h.apart.cons hfit.apart, ?_, ?_, ?_, ?_, fun f index hf => ?_⟩
    rotate_left 4
    · have hfp : f ≠ frameOf p := by
        rintro rfl
        exact absurd (hf.symm.trans (hfit.pages order rfl)) (by simp)
      simpa only [handOut, Function.update_of_ne hfp] using h.slab f index hf
    all_goals
      intro b hb
      rcases List.mem_cons.1 hb with rfl | hb
    · exact hfit.pos
    · exact h.pos b hb
    · exact hfit.aligned
    · exact h.aligned b hb
    · simp [Pool.handOut, Pool.sourceAt]
    · simpa only [Pool.handOut, Pool.sourceAt,
        Function.update_of_ne (hne b hb)] using h.sourceAt b hb
    · rintro _ ⟨⟩
    · exact h.object b hb

theorem Fits.scribble (h : σ.Fits ⟨p, src⟩) (m : Nat → UInt8) : (σ.scribble m).Fits ⟨p, src⟩ :=
  ⟨h.pos, h.aligned, h.apart, h.object, h.pages⟩

/-- What `kmalloc` does. -/
theorem kmalloc_cases {size alignment : Nat} (m : Nat → UInt8)
    (hanswer : σ.Answers size alignment answer) :
    σ.kmalloc size alignment answer m = (none, σ.scribble m) ∨
    ∃ src ∈ sourceFor size alignment, ∃ p,
      σ.Fits ⟨p, src⟩ ∧ σ.kmalloc size alignment answer m =
        (some p, (σ.scribble m).handOut p src) := by
  unfold kmalloc
  cases hsrc : sourceFor size alignment with
  | none => exact .inl rfl
  | some src =>
    cases hans : answer with
    | none => exact .inl rfl
    | some p => exact .inr ⟨src, rfl, p, hanswer src hsrc p hans, rfl⟩

theorem Inv.kmalloc (h : Inv σ) {size alignment : Nat} (m : Nat → UInt8)
    (hanswer : σ.Answers size alignment answer) : Inv (σ.kmalloc size alignment answer m).2 := by
  obtain heq | ⟨src, -, p, hfit, heq⟩ := kmalloc_cases m hanswer <;> rw [heq]
  · exact h.scribble m
  · exact (h.scribble m).handOut (hfit.scribble m)

/-- `kfree` gives the block back to where it came from. -/
theorem Inv.kfree_eq (h : Inv σ) (hb : b ∈ σ.live) (m : Nat → UInt8) :
    σ.kfree b.addr m = { σ with live := σ.live.filter (· ≠ b) }.scribble m := by
  rw [kfree, if_neg (Nat.pos_iff_ne_zero.1 (h.pos b hb)), h.sourceAt b hb]

theorem Inv.kfree (h : Inv σ) (hb : b ∈ σ.live) (m : Nat → UInt8) : Inv (σ.kfree b.addr m) := by
  rw [h.kfree_eq hb]
  have hsub : ∀ b' ∈ σ.live.filter (· ≠ b), b' ∈ σ.live := fun b' hb' => (List.mem_filter.1 hb').1
  have hrest : Inv { σ with live := σ.live.filter (· ≠ b) } :=
    ⟨h.apart.filter _, fun b' hb' => h.pos b' (hsub b' hb'),
      fun b' hb' => h.aligned b' (hsub b' hb'),
      fun b' hb' => h.sourceAt b' (hsub b' hb'), fun b' hb' => h.object b' (hsub b' hb'), h.slab⟩
  exact hrest.scribble m

theorem mem_handOut (p : Nat) (src : Source) : (σ.handOut p src).mem = σ.mem := by
  cases src <;> rfl

theorem live_handOut (p : Nat) (src : Source) : (σ.handOut p src).live = ⟨p, src⟩ :: σ.live := by
  cases src <;> rfl

theorem mem_live_handOut (hb : b ∈ σ.live) (p : Nat) (src : Source) :
    b ∈ (σ.handOut p src).live := by
  rw [live_handOut]
  exact List.mem_cons_of_mem _ hb

/-- What `krealloc` does with a block and a size that is not zero. -/
theorem Inv.krealloc_cases (h : Inv σ) (hb : b ∈ σ.live) {newSize align : Nat} (m m' : Nat → UInt8)
    (hsize : newSize ≠ 0) (hanswer : σ.Answers newSize align answer) :
    (newSize ≤ b.source.size ∧ align ∣ b.addr ∧
      σ.krealloc b.addr newSize align answer m m' = (some b.addr, σ)) ∨
    σ.krealloc b.addr newSize align answer m m' = (none, σ.scribble m) ∨
    ∃ src ∈ sourceFor newSize align, ∃ q, σ.Fits ⟨q, src⟩ ∧
    σ.krealloc b.addr newSize align answer m m' =
      (some q, (((σ.scribble m).handOut q src).memcpy q b.addr (min b.source.size newSize)).kfree
        b.addr m') := by
  unfold krealloc
  rw [if_neg (Nat.pos_iff_ne_zero.1 (h.pos b hb)), if_neg hsize]
  simp only [h.sourceAt b hb]
  split
  · rename_i hin
    exact .inl ⟨hin.1, Nat.dvd_of_mod_eq_zero hin.2, rfl⟩
  · obtain heq | ⟨src, hsrc, q, hfit, heq⟩ := kmalloc_cases m hanswer <;> rw [heq]
    · exact .inr (.inl rfl)
    · exact .inr (.inr ⟨src, hsrc, q, hfit, rfl⟩)

theorem Inv.krealloc (h : Inv σ) (hb : b ∈ σ.live) {newSize align : Nat} (m m' : Nat → UInt8)
    (hanswer : σ.Answers newSize align answer) :
    Inv (σ.krealloc b.addr newSize align answer m m').2 := by
  by_cases hsize : newSize = 0
  · rw [Pool.krealloc, if_neg (Nat.pos_iff_ne_zero.1 (h.pos b hb)), if_pos hsize]
    exact h.kfree hb m'
  · obtain ⟨-, -, heq⟩ | heq | ⟨src, -, q, hfit, heq⟩ :=
      h.krealloc_cases hb m m' hsize hanswer <;> rw [heq]
    · exact h
    · exact h.scribble m
    · refine (((h.scribble m).handOut (hfit.scribble m)).memcpy ..).kfree ?_ m'
      exact mem_live_handOut (σ := σ.scribble m) hb q src

/-- **The descriptors are right in every run.** -/
theorem reachable_inv (h : system.Reachable σ) : Inv σ := by
  refine h.invariant (I := Inv) ?_ ?_
  · rintro σ ⟨hlive, hslab⟩
    constructor <;> simp [hlive, hslab]
  · intro σ σ' hinv hstep
    cases hstep with
    | kmalloc size alignment answer m _ hanswer => exact hinv.kmalloc m hanswer
    | kfree b m hb => exact hinv.kfree hb m
    | krealloc b newSize align answer m m' hb _ hanswer => exact hinv.krealloc hb m m' hanswer
    | newSlab index frames hfree =>
      have hkeep : ∀ b ∈ σ.live, frameOf b.addr ∉ frames :=
        fun b hb hmem => (hfree _ hmem).2 b hb rfl
      refine ⟨hinv.apart, hinv.pos, hinv.aligned, fun b hb => ?_, fun b hb i hi => ?_,
        fun f i hf => ?_⟩
      · simpa only [sourceAt, if_neg (hkeep b hb)] using hinv.sourceAt b hb
      · simpa only [if_neg (hkeep b hb)] using hinv.object b hb i hi
      · simp only at hf ⊢
        split at hf
        · rwa [if_pos ‹_›]
        · rw [if_neg ‹_›]
          exact hinv.slab f i hf
    | releaseSlab frames hempty =>
      have hkeep : ∀ b ∈ σ.live, frameOf b.addr ∉ frames := fun b hb hmem => hempty _ hmem b hb rfl
      refine ⟨hinv.apart, hinv.pos, hinv.aligned, hinv.sourceAt, fun b hb i hi => ?_,
        fun f i hf => ?_⟩
      · simpa only [if_neg (hkeep b hb)] using hinv.object b hb i hi
      · simp only at hf
        split at hf
        · cases hf
        · exact hinv.slab f i hf
    | descriptors cache order hsame =>
      refine ⟨hinv.apart, hinv.pos, hinv.aligned, fun b hb => ?_, hinv.object, fun f i hf => ?_⟩
      · obtain ⟨hc, ho⟩ := hsame _ (.inr ⟨b, hb, rfl⟩)
        simpa only [sourceAt, hc, ho] using hinv.sourceAt b hb
      · exact (hsame f (.inl (Option.ne_none_iff_exists'.2 ⟨i, hf⟩))).1.trans (hinv.slab f i hf)
    | write m => exact ⟨hinv.apart, hinv.pos, hinv.aligned, hinv.sourceAt, hinv.object, hinv.slab⟩

/-- A block that moved is there in place of the old one, and has its bytes. -/
theorem Inv.moved (h : Inv σ) (hb : b ∈ σ.live) {q n : Nat} (hfit : σ.Fits ⟨q, src⟩)
    (m m' : Nat → UInt8) (hn : n ≤ src.size) (hold : n ≤ b.source.size) :
    ((((σ.scribble m).handOut q src).memcpy q b.addr n).kfree b.addr m').live =
        ⟨q, src⟩ :: σ.live.filter (· ≠ b) ∧
      ∀ k < n, ((((σ.scribble m).handOut q src).memcpy q b.addr n).kfree b.addr m').mem (q + k) =
        σ.mem (b.addr + k) := by
  have hinv := ((h.scribble m).handOut (hfit.scribble m)).memcpy q b.addr n
  have hb' : b ∈ (((σ.scribble m).handOut q src).memcpy q b.addr n).live :=
    mem_live_handOut (σ := σ.scribble m) hb q src
  have hne : (⟨q, src⟩ : Block) ≠ b := by
    rintro rfl
    exact hfit.apart _ hb q (Block.covers_addr ⟨q, src⟩) (Block.covers_addr ⟨q, src⟩)
  have hlive : ((σ.scribble m).handOut q src).live.filter (· ≠ b) = ⟨q, src⟩ ::
      σ.live.filter (· ≠ b) := by
    rw [live_handOut, List.filter_cons_of_pos (by simpa using hne)]
    rfl
  have hmem : (⟨q, src⟩ : Block) ∈ ((σ.scribble m).handOut q src).live.filter (· ≠ b) :=
    hlive ▸ List.mem_cons_self
  rw [hinv.kfree_eq hb']
  refine ⟨hlive, fun k hk => ?_⟩
  -- the new block is live when the old one is freed, and the old one when the new one is made
  rw [scribble_mem (b := ⟨q, src⟩) hmem
    ⟨Nat.le_add_right .., Nat.add_lt_add_left (hk.trans_le hn) q⟩]
  show (if q ≤ q + k ∧ q + k < q + n then ((σ.scribble m).handOut q src).mem (b.addr + (q + k - q))
      else _) = _
  rw [if_pos ⟨Nat.le_add_right .., Nat.add_lt_add_left hk q⟩, Nat.add_sub_cancel_left, mem_handOut]
  exact scribble_mem hb ⟨Nat.le_add_right .., Nat.add_lt_add_left (hk.trans_le hold) _⟩ m

/-- **The heap's callers.**  In every run the blocks are pairwise apart; a block is aligned and
large enough, and apart from those there were; `kfree` gives it back to where it came from; and
`krealloc` leaves a block where it is or puts another one in its place, with its bytes, and if it
fails everything stays, unless the block is given up with a size of zero. -/
theorem kmalloc_run (hrun : system.Reachable σ) : σ.live.Pairwise Block.Apart ∧
    (∀ size alignment answer m, Asked size alignment → σ.Answers size alignment answer →
      ∀ p ∈ (σ.kmalloc size alignment answer m).1, alignment ∣ p ∧ ∃ src : Source, size ≤ src.size ∧
        (∀ b ∈ σ.live, (Block.mk p src).Apart b) ∧
          (σ.kmalloc size alignment answer m).2.live = ⟨p, src⟩ :: σ.live) ∧
    (∀ b ∈ σ.live, ∀ m, σ.sourceAt b.addr = b.source ∧
      (σ.kfree b.addr m).live = σ.live.filter (· ≠ b)) ∧
    (∀ b ∈ σ.live, ∀ align answer m m', (σ.krealloc b.addr 0 align answer m m').1 = none ∧
      (σ.krealloc b.addr 0 align answer m m').2.live = σ.live.filter (· ≠ b)) ∧
    ∀ b ∈ σ.live, ∀ newSize align answer m m', newSize ≠ 0 → Asked newSize align →
      σ.Answers newSize align answer →
      (∀ q ∈ (σ.krealloc b.addr newSize align answer m m').1, align ∣ q ∧ ∃ src : Source,
        newSize ≤ src.size ∧
        (Block.mk q src = b ∧ (σ.krealloc b.addr newSize align answer m m').2.live = σ.live ∨
          (∀ b' ∈ σ.live, (Block.mk q src).Apart b') ∧
            (σ.krealloc b.addr newSize align answer m m').2.live = ⟨q, src⟩ ::
              σ.live.filter (· ≠ b)) ∧
        ∀ k < min b.source.size newSize,
          (σ.krealloc b.addr newSize align answer m m').2.mem (q + k) = σ.mem (b.addr + k)) ∧
      ((σ.krealloc b.addr newSize align answer m m').1 = none →
        (σ.krealloc b.addr newSize align answer m m').2.live = σ.live ∧
        ∀ a, b.Covers a → (σ.krealloc b.addr newSize align answer m m').2.mem a = σ.mem a) := by
  have h := reachable_inv hrun
  have hfreed : ∀ b ∈ σ.live, ∀ m, (σ.kfree b.addr m).live = σ.live.filter (· ≠ b) := by
    intro b hb m
    rw [h.kfree_eq hb]
    rfl
  refine ⟨h.apart, ?_, fun b hb m => ⟨h.sourceAt b hb, hfreed b hb m⟩, ?_, ?_⟩
  · intro size alignment answer m hask hanswer p hp
    obtain heq | ⟨src, hsrc, q, hfit, heq⟩ := kmalloc_cases m hanswer <;> rw [heq] at hp ⊢
    · cases hp
    · cases hp
      obtain ⟨hroom, hdvd⟩ := sourceFor_spec hask hsrc
      exact ⟨hdvd.trans hfit.aligned, src, hroom, hfit.apart, live_handOut ..⟩
  · intro b hb align answer m m'
    rw [krealloc, if_neg (Nat.pos_iff_ne_zero.1 (h.pos b hb)), if_pos rfl]
    exact ⟨rfl, hfreed b hb m'⟩
  · intro b hb newSize align answer m m' hsize hask hanswer
    obtain ⟨hle, hdvd, heq⟩ | heq | ⟨src, hsrc, q, hfit, heq⟩ :=
      h.krealloc_cases hb m m' hsize hanswer <;> rw [heq]
    · refine ⟨?_, nofun⟩
      rintro _ ⟨⟩
      exact ⟨hdvd, b.source, hle, .inl ⟨rfl, rfl⟩, fun _ _ => rfl⟩
    · exact ⟨nofun, fun _ => ⟨rfl, fun a ha => scribble_mem hb ha m⟩⟩
    · refine ⟨?_, nofun⟩
      rintro _ ⟨⟩
      obtain ⟨hroom, hdvd⟩ := sourceFor_spec hask hsrc
      obtain ⟨hlive, hbytes⟩ :=
        h.moved hb hfit m m' ((min_le_right ..).trans hroom) (min_le_left ..)
      exact ⟨hdvd.trans hfit.aligned, src, hroom, .inr ⟨hfit.apart, hlive⟩, hbytes⟩

/-- A slab of 128-byte objects. -/
private def oneSlab : Pool :=
  { slab := fun f => if f ∈ [1] then some 4 else none
    cache := fun f => if f ∈ [1] then some 4 else none }

private def oneObject : Pool := (oneSlab.kmalloc 100 8 (some 4096) fun _ => 0).2

/-- Two objects, and what their owners wrote. -/
private def twoObjects : Pool :=
  { (oneObject.kmalloc 100 8 (some 4224) fun _ => 0).2 with mem := fun a => UInt8.ofNat a }

private theorem sourceFor_hundred : sourceFor 100 8 = some (.object 4) := by decide +kernel

private theorem sourceFor_pages : sourceFor 40000 8 = some (.pages 4) := by decide +kernel

private theorem kmalloc_hundred (σ : Pool) (p : Nat) (m : Nat → UInt8) :
    (σ.kmalloc 100 8 (some p) m).2 = (σ.scribble m).handOut p (.object 4) := by
  unfold kmalloc
  simp only [sourceFor_hundred]

private theorem twoObjects_live : twoObjects.live = [⟨4224, .object 4⟩, ⟨4096, .object 4⟩] := by
  unfold twoObjects oneObject
  rw [kmalloc_hundred, kmalloc_hundred]
  rfl

private theorem answers_hundred {σ : Pool} {p : Nat} (h : σ.Fits ⟨p, .object 4⟩) :
    σ.Answers 100 8 (some p) := by
  rintro src hsrc _ ⟨⟩
  obtain rfl : Source.object 4 = src := Option.some.inj (sourceFor_hundred.symm.trans hsrc)
  exact h

private theorem twoObjects_reachable : system.Reachable twoObjects := by
  have hask : Asked 100 8 := ⟨by norm_num, 3, by norm_num, rfl⟩
  have hslab : system.Reachable oneSlab :=
    .step (.init ⟨rfl, fun _ => rfl⟩) (Step.newSlab (σ := {}) 4 [1] fun _ _ => ⟨rfl, by simp⟩)
  have hone : system.Reachable oneObject := by
    refine hslab.step (.kmalloc 100 8 (some 4096) _ hask (answers_hundred ?_))
    refine ⟨by decide, by decide, nofun, ?_, nofun⟩
    rintro _ ⟨⟩
    rfl
  refine (hone.step (.kmalloc 100 8 (some 4224) _ hask (answers_hundred ?_))).step (.write _)
  unfold oneObject
  rw [kmalloc_hundred]
  refine ⟨by decide, by decide, ?_, ?_, nofun⟩
  · intro b hb a ha hb'
    obtain rfl := List.mem_singleton.1 hb
    have hsize : Source.size (.object 4) = 128 := rfl
    simp only [Block.Covers, hsize] at ha hb'
    omega
  · rintro _ ⟨⟩
    rfl

private theorem answers_pages : twoObjects.Answers 40000 8 (some 65536) := by
  rintro src hsrc _ ⟨⟩
  obtain rfl : Source.pages 4 = src := Option.some.inj (sourceFor_pages.symm.trans hsrc)
  refine ⟨by decide, by decide, ?_, nofun, ?_⟩
  · intro b hb a ha hb'
    have hpages : Source.size (.pages 4) = 65536 := rfl
    have hobject : Source.size (.object 4) = 128 := rfl
    rw [twoObjects_live] at hb
    rcases List.mem_pair.1 hb with rfl | rfl <;>
      simp only [Block.Covers, hpages, hobject] at ha hb' <;> omega
  · rintro _ -
    unfold twoObjects oneObject
    rw [kmalloc_hundred, kmalloc_hundred]
    rfl

/-- One of two objects grows beyond the classes: it moves to a block of pages with what was written
to it, and the other one stays. -/
theorem kmalloc_run_grown : twoObjects.sourceAt 4096 = .object 4 ∧ ∃ σ src,
    twoObjects.krealloc 4096 40000 8 (some 65536) (fun _ => 0) (fun _ => 0) = (some 65536, σ) ∧
      40000 ≤ Source.size src ∧ σ.live = [⟨65536, src⟩, ⟨4224, .object 4⟩] ∧ σ.mem 65636 = 100 := by
  have hmem : (⟨4096, .object 4⟩ : Block) ∈ twoObjects.live := by simp [twoObjects_live]
  obtain ⟨-, -, hfree, -, hmove⟩ := kmalloc_run twoObjects_reachable
  obtain ⟨hsource, -⟩ := hfree _ hmem fun _ => 0
  have hanswer : (twoObjects.krealloc 4096 40000 8 (some 65536) (fun _ => 0) fun _ => 0).1 =
      some 65536 := by
    unfold krealloc kmalloc
    simp only [hsource, sourceFor_pages]
    rfl
  obtain ⟨hdone, -⟩ := hmove _ hmem 40000 8 (some 65536) (fun _ => 0) (fun _ => 0) (by decide)
    ⟨by norm_num, 3, by norm_num, rfl⟩ answers_pages
  obtain ⟨-, src, hroom, hlive, hbytes⟩ := hdone 65536 hanswer
  obtain ⟨hsame, -⟩ | ⟨-, hlive⟩ := hlive
  · cases hsame
  · refine ⟨hsource, _, src, Prod.ext hanswer rfl, hroom, hlive.trans ?_,
      (hbytes 100 (by decide)).trans rfl⟩
    simp [twoObjects_live]

end Pool

end Erebus.Heap
