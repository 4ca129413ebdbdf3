import Erebus.Memory.Pmm.Invariant

/-!
# Every call keeps the invariant

The loops first (`mergeLoop_ok`, `flushLoop_ok`, `splitLoop_ok`, `refillLoop_ok`, `drainLoop_ok`),
then the calls. A loop lemma says which blocks end up in hand, how much the counter of the zone is
owed, and that the caches are the ones it started with.
-/

namespace Erebus.Pmm

open State

open Buddy (Block)

variable {F : Set Nat} {s : State} {g : Ghost}
variable {cfg : Config} {z : ZoneId} {p order requested : Nat} {H H' : List Block}

/-- What is owed to the counters after `n` more pages have left the lists of `z`. -/
def Owes (g : Ghost) (z : ZoneId) (n : Int) (g' : Ghost) : Prop :=
  g'.debt = Function.update g.debt z (g.debt z + n)

theorem Owes.zero (g : Ghost) (z : ZoneId) : Owes g z 0 g := by
  simp [Owes]

theorem Owes.trans {g g' g'' : Ghost} {m n k : Int} (h : Owes g z m g') (h' : Owes g' z n g'')
    (hk : m + n = k) : Owes g z k g'' := by
  unfold Owes at *
  rw [h', h, ← hk]
  simp [add_assoc]

/-- Paying back what is owed leaves the counters exact. -/
theorem Owes.settles {g g' : Ghost} {n d : Int} (h : Owes g z n g') (h₀ : g.debt = fun _ => 0)
    (hd : n + d = 0) : (g'.addDebt z d).debt = fun _ => 0 := by
  show Function.update g'.debt z (g'.debt z + d) = _
  rw [h, h₀, Function.update_idem, Function.update_self]
  funext z'
  by_cases hz : z' = z
  · subst hz
    simpa using hd
  · simp [hz]

/-- Taking a block off its list and clearing its `Free` mark. -/
theorem Inv.take (h : Inv F s g) {o : Nat} {l₁ l₂ : List Nat} (hfree : g.free z o = l₁ ++ p :: l₂)
    (hstale : g.stale = none) {d : Page} (hd : d.state ≠ .free) :
    ∃ g', Inv F ((s.removeFree z o p).setPage p d) g' ∧ g'.stale = none ∧
      g'.held = ⟨p, o⟩ :: g.held ∧ Owes g z (2 ^ o) g' := by
  have h₁ := h.unlink hfree hstale
  have h₂ :=
    h₁.mark (p := p) (d := d) ⟨⟨p, o⟩, by simp [Ghost.addDebt, Ghost.setFree], rfl⟩ hd (.inr rfl)
  refine ⟨_, h₂, rfl, rfl, ?_⟩
  show Function.update g.debt z (g.debt z + - -(2 ^ o)) = _
  rw [neg_neg]

/-! ## Merging -/

variable (cfg z)

/-- The loop of `buddy_merge_internal`: a buddy whose descriptor names this zone and order is on
exactly that list, so taking it off and merging keeps everything in place. -/
theorem mergeLoop_ok :
    ∀ (steps : Nat) {s : State} {g : Ghost} {pfn order : Nat}, Inv F s g → g.stale = none →
      g.held.Perm (⟨pfn, order⟩ :: H) → order + steps = maxOrder →
      ∃ s' pfn' order' g', mergeLoop cfg z steps s pfn order = (s', pfn', order') ∧
        Inv F s' g' ∧ g'.stale = none ∧ g'.held.Perm (⟨pfn', order'⟩ :: H) ∧
        Owes g z (2 ^ order' - 2 ^ order) g' ∧ State.SameCaches s s' := by
  intro steps
  induction steps with
  | zero =>
    intro s g pfn order h hstale hheld _
    exact ⟨s, pfn, order, g, rfl, h, hstale, hheld, by simpa using Owes.zero g z,
      State.SameCaches.refl s⟩
  | succ steps ih =>
    intro s g pfn order h hstale hheld hsteps
    rw [mergeLoop]
    have hstop : ∃ s' pfn' order' g', (s, pfn, order) = (s', pfn', order') ∧ Inv F s' g' ∧
        g'.stale = none ∧ g'.held.Perm (⟨pfn', order'⟩ :: H) ∧
        Owes g z (2 ^ order' - 2 ^ order) g' ∧ State.SameCaches s s' :=
      ⟨s, pfn, order, g, rfl, h, hstale, hheld, by simpa using Owes.zero g z,
        State.SameCaches.refl s⟩
    simp only
    split
    · exact hstop
    · split
      · exact hstop
      · rename_i _ hbuddy
        push Not at hbuddy
        obtain ⟨hfree, horder, hmob, hnode⟩ := hbuddy
        generalize hq : pfn ^^^ 2 ^ order = q at *
        have hon : q ∈ g.free z order := by
          have := h.unmarked q hfree (by simp [hstale])
          rw [horder, hmob, hnode] at this
          exact this
        obtain ⟨l₁, l₂, hsplit⟩ := List.append_of_mem hon
        obtain ⟨g₁, h₁, hstale₁, hheld₁, howes₁⟩ := h.take hsplit hstale
          (d := { (s.removeFree z order q).pages q with state := .active }) (by simp)
        have h₂ := h₁.mergeHeld (p := pfn) (o := order) (H := H) (by omega) (by
          rw [hheld₁, hq]
          exact (hheld.cons _).trans (List.Perm.swap _ _ _))
        obtain ⟨s', pfn', order', g', heq, h', hstale', hheld', howes, hsame⟩ :=
          ih h₂ hstale₁ (.refl _) (by omega)
        have hmin : (if q < pfn then q else pfn) = min pfn (pfn ^^^ 2 ^ order) := by
          rw [hq]
          rcases Nat.lt_or_ge q pfn with hlt | hge
          · rw [if_pos hlt, min_eq_right hlt.le]
          · rw [if_neg (not_lt.2 hge), min_eq_left hge]
        refine ⟨s', pfn', order', g', ?_, h', hstale', hheld', howes₁.trans howes (by ring), ?_⟩
        · rw [hmin]
          exact heq
        · exact ((s.removeFree_sameCaches z order q).trans (setPage_sameCaches _ q _)).trans hsame

/-- `buddy_merge_internal`. -/
theorem buddyMerge_ok (h : Inv F s g) (hstale : g.stale = none)
    (hheld : g.held.Perm (⟨p, order⟩ :: H)) :
    ∃ g', Inv F (s.buddyMergeInternal cfg z p order) g' ∧ g'.stale = none ∧ g'.held.Perm H ∧
      Owes g z (-(2 ^ order)) g' ∧ State.SameCaches s (s.buddyMergeInternal cfg z p order) := by
  have hle : order ≤ maxOrder :=
    h.shelved.order_le (c := .held) (b := ⟨p, order⟩) (hheld.mem_iff.2 (by simp))
  obtain ⟨s', pfn', order', g', heq, h', hstale', hheld', howes, hsame⟩ :=
    mergeLoop_ok cfg z (maxOrder - order) h hstale hheld (by omega)
  have hlink := h'.link z hheld' (by simp [hstale'])
  rw [buddyMergeInternal, heq]
  exact ⟨_, hlink, hstale', .refl _, howes.trans rfl (by ring),
    hsame.trans (s'.linkFree_sameCaches z _ _)⟩

/-- The loop of `flush_deferred_frees_internal`. -/
theorem flushLoop_ok :
    ∀ (queue : List Nat) {s : State} {g : Ghost} (n : Nat), Inv F s g → g.stale = none →
      (s.zones z).deferredFrees = queue →
      ∃ s' m g', flushLoop cfg z queue s n = (s', n + m) ∧ Inv F s' g' ∧ g'.stale = none ∧
        g'.held.Perm g.held ∧ Owes g z (-m) g' ∧
        (∀ z', (s'.zones z').pcpCache = (s.zones z').pcpCache) := by
  intro queue
  induction queue with
  | nil =>
    intro s g n h hstale _
    exact ⟨s, 0, g, rfl, h, hstale, .refl _, by simpa using Owes.zero g z, fun _ => rfl⟩
  | cons p queue ih =>
    intro s g n h hstale hqueue
    have h₁ := h.deferredPop hqueue
    obtain ⟨g₂, h₂, hstale₂, hheld₂, howes₂, hsame₂⟩ :=
      buddyMerge_ok cfg z h₁ hstale (.refl _)
    obtain ⟨s', m, g', heq, h', hstale', hheld', howes, hpcp⟩ :=
      ih (n + 2 ^ (s.pages p).order) h₂ hstale₂ (by rw [(hsame₂ z).2]; simp)
    refine ⟨s', 2 ^ (s.pages p).order + m, g', ?_, h', hstale', hheld'.trans hheld₂, ?_, ?_⟩
    · rw [flushLoop, ← Nat.add_assoc]
      exact heq
    · exact Owes.trans (g := g) howes₂ howes (by push_cast; ring)
    · intro z'
      rw [hpcp z', (hsame₂ z').1]
      by_cases hz : z' = z <;> simp [hz]

variable {z}

/-- `add_free_pages` settles what is owed. -/
theorem addFreePages_ok {n : Nat} (h : Inv F s g) : Inv F (s.addFreePages z n) (g.addDebt z n) :=
  h.settle (by push_cast; ring)

theorem subFreePages_ok {n : Nat} (h : Inv F s g) (hn : (n : Int) ≤ g.debt z) :
    Inv F (s.subFreePages z n) (g.addDebt z (-n)) := by
  have htotal := h.total z
  have hle : n ≤ (s.zones z).totalFree := by omega
  exact h.settle (by push_cast [hle]; ring)

/-- Between two calls: nothing is half done and the counters are exact. -/
def Settled (F : Set Nat) (s : State) (H : List Block) : Prop :=
  ∃ free, Inv F s ⟨free, H, none, fun _ => 0⟩

theorem Inv.settled (h : Inv F s g) (hstale : g.stale = none) (hheld : g.held.Perm H)
    (hdebt : g.debt = fun _ => 0) : Settled F s H := by
  have h' := h.permHeld hheld
  obtain ⟨free, held, stale, debt⟩ := g
  simp only at hstale hdebt
  subst hstale
  subst hdebt
  exact ⟨free, h'⟩

/-- The counter is told of what has left the lists since the call began, and the call is over. -/
theorem Inv.paid {g' : Ghost} {n : Nat} (h : Inv F s g') (hstale : g'.stale = none)
    (hheld : g'.held.Perm H)
    (howes : Owes g z n g') (h₀ : g.debt = fun _ => 0) : Settled F (s.subFreePages z n) H := by
  have hdebt : g'.debt z = n := by
    rw [howes, h₀]
    simp
  exact (subFreePages_ok h hdebt.ge).settled hstale hheld (howes.settles h₀ (by ring))

/-- And of what has come back. -/
theorem Inv.repaid {g' : Ghost} {n : Nat} (h : Inv F s g') (hstale : g'.stale = none)
    (hheld : g'.held.Perm H)
    (howes : Owes g z (-n) g') (h₀ : g.debt = fun _ => 0) : Settled F (s.addFreePages z n) H :=
  (addFreePages_ok h).settled hstale hheld (howes.settles h₀ (by ring))

variable (z)

/-- `flush_deferred_frees_internal`. -/
theorem flush_ok (h : Settled F s H) : Settled F (s.flushDeferredFreesInternal cfg z) H ∧
      ∀ z' cpu o, (s.flushDeferredFreesInternal cfg z).pcpList z' cpu o = s.pcpList z' cpu o := by
  obtain ⟨free, h⟩ := id h
  rw [flushDeferredFreesInternal]
  split
  · exact ⟨⟨free, h⟩, fun _ _ _ => rfl⟩
  · obtain ⟨s', m, g', heq, h', hstale', hheld', howes, hpcp⟩ := flushLoop_ok cfg z _ 0 h rfl rfl
    rw [heq]
    constructor
    · rw [Nat.zero_add]
      exact h'.repaid hstale' hheld' howes rfl
    · intro z' cpu o
      simp only [pcpList, addFreePages, modifyZone_zones]
      by_cases hz : z' = z <;> simp [hz, hpcp]

/-! ## Splitting -/

/-- The halving loop puts the upper halves back and keeps the lowest piece in hand. -/
theorem splitLoop_ok {pfn : Nat} :
    ∀ (curr : Nat) {s : State} {g : Ghost}, Inv F s g → g.stale = none ∨ g.stale = some pfn →
      g.held.Perm (⟨pfn, curr⟩ :: H) → requested ≤ curr →
      ∃ g', Inv F (splitLoop z pfn requested curr s) g' ∧ g'.stale = g.stale ∧
        g'.held.Perm (⟨pfn, requested⟩ :: H) ∧ Owes g z (-(2 ^ curr - 2 ^ requested)) g' ∧
        State.SameCaches s (splitLoop z pfn requested curr s) := by
  intro curr
  induction curr with
  | zero =>
    intro s g h _ hheld hle
    obtain rfl : requested = 0 := by omega
    exact ⟨g, h, rfl, hheld, by simpa using Owes.zero g z, State.SameCaches.refl s⟩
  | succ curr ih =>
    intro s g h hstale hheld hle
    rw [splitLoop]
    split
    · have h₁ := h.splitHeld hheld
      have hupper : g.stale ≠ some (pfn + 2 ^ curr) := by
        have hpos : 0 < 2 ^ curr := Nat.two_pow_pos curr
        rcases hstale with hstale | hstale
        · simp [hstale]
        · rw [hstale]
          simp only [ne_eq, Option.some.injEq]
          omega
      have h₂ := h₁.link z (List.Perm.swap _ _ _) hupper
      obtain ⟨g', h', hstale', hheld', howes, hsame⟩ :=
        ih h₂ hstale (.refl _) (by omega)
      exact ⟨g', h', hstale', hheld',
        Owes.trans (g := g) (m := -(2 ^ curr)) (by rfl) howes (by ring),
        (s.linkFree_sameCaches z _ _).trans hsame⟩
    · obtain rfl : requested = curr + 1 := by omega
      exact ⟨g, h, rfl, hheld, by simpa using Owes.zero g z, State.SameCaches.refl s⟩

variable {z} in
/-- A set bit of `available` is an order that is large enough and has blocks. -/
theorem available_spec (h : Inv F s g) {i : Nat} (hi : i < 32)
    (hbit : (s.availableOrders z requested).getLsbD i = true) :
    requested ≤ i ∧ g.free z i ≠ [] := by
  unfold availableOrders at hbit
  rw [getLsbD_above hi, Bool.and_eq_true, decide_eq_true_eq] at hbit
  exact ⟨hbit.2, (h.bitmap z i hi).1 hbit.1⟩

/-- `extract_block_internal`. -/
theorem extractBlock_ok (requested : Nat) (h : Inv F s g) (hstale : g.stale = none) :
    s.extractBlockInternal z requested = some (none, s) ∨
      ∃ p s' g', s.extractBlockInternal z requested = some (some p, s') ∧ Inv F s' g' ∧
        g'.stale = none ∧ g'.held.Perm (⟨p, requested⟩ :: g.held) ∧
        Owes g z (2 ^ requested) g' ∧ State.SameCaches s s' := by
  rw [extractBlockInternal]
  by_cases hzero : s.availableOrders z requested = 0
  · left
    simp only [hzero, if_true]
  · right
    obtain ⟨hlt, hbit⟩ := countrZero_spec hzero
    generalize countrZero (s.availableOrders z requested) = curr at *
    obtain ⟨hle, hne⟩ := available_spec h hlt hbit
    obtain ⟨p, l, hfree⟩ := List.exists_cons_of_ne_nil hne
    have hfirst : g.free z curr = [] ++ p :: l := hfree
    have h₁ := h.unlink hfirst hstale
    obtain ⟨g₂, h₂, hstale₂, hheld₂, howes₂, hsame₂⟩ :=
      splitLoop_ok z curr h₁ (.inr rfl) (.refl _) hle
    have hin : ∃ b ∈ g₂.held, b.base = p := ⟨⟨p, requested⟩, hheld₂.mem_iff.2 (by simp), rfl⟩
    have h₃ := h₂.mark (d := ⟨.active, z.mobility, requested, z.node⟩) hin (by simp) (.inr hstale₂)
    refine ⟨p, _, _, ?_, h₃, rfl, hheld₂,
      Owes.trans (g := g) (m := - -(2 ^ curr)) (by rfl) howes₂ (by ring), ?_⟩
    · simp only [hzero, if_false, h.popFree_eq hfree]
    · exact ((s.removeFree_sameCaches z curr p).trans hsame₂).trans (setPage_sameCaches _ p _)

/-! ## The locked core -/

/-- The blocks that are out after a request of order `o` returned `r`. -/
def handedOut (r : Option Nat) (o : Nat) (H : List Block) : List Block :=
  r.elim H fun p => ⟨p, o⟩ :: H

theorem allocPagesLocked_ok (requested : Nat) (h : Settled F s H) :
    ∃ r s', s.allocPagesLocked cfg z requested = some (r, s') ∧
    Settled F s' (handedOut r requested H) := by
  obtain ⟨hflush, -⟩ := flush_ok cfg z h
  obtain ⟨free, hinv⟩ := id hflush
  rw [allocPagesLocked]
  rcases extractBlock_ok z requested hinv rfl with
    heq | ⟨p, s', g', heq, h', hstale, hheld, howes, -⟩
  · rw [heq]
    exact ⟨none, _, rfl, hflush⟩
  · rw [heq]
    exact ⟨some p, _, rfl, h'.paid hstale hheld (by exact_mod_cast howes) rfl⟩

theorem freePageLocked_ok (h : Settled F s H) (hheld : H.Perm (⟨p, order⟩ :: H')) :
    Settled F (s.freePageLocked cfg z p order) H' := by
  obtain ⟨⟨free, hinv⟩, -⟩ := flush_ok cfg z h
  obtain ⟨g', h', hstale, hheld', howes, -⟩ := buddyMerge_ok cfg z hinv rfl hheld
  exact h'.repaid hstale hheld' (by exact_mod_cast howes) rfl

/-! ## Per-CPU lists -/

theorem pcpList_modify (s : State) (z z' : ZoneId) (cpu o n : Nat) :
    (s.modifyZone z fun zone => { zone with totalFree := n }).pcpList z' cpu o =
      s.pcpList z' cpu o := by
  by_cases hz : z' = z <;> simp [pcpList, hz]

theorem shiftLeft_cast (m o : Nat) : ((m <<< o : Nat) : Int) = m * 2 ^ o := by
  rw [Nat.shiftLeft_eq]
  push_cast
  rfl

/-- The loop of `batch_refill_pcp`. -/
theorem refillLoop_ok (cpu o : Nat) :
    ∀ (n : Nat) {s : State} {g : Ghost} {list : PcpList} (r : Nat), Inv F s g → g.stale = none →
      s.pcpList z cpu o = some list → list.count + n ≤ PcpList.maxCapacity →
      ∃ m list' s' g', refillLoop z cpu o n s list r = some (r + m, list', s') ∧
        Inv F s' g' ∧ g'.stale = none ∧ g'.held.Perm g.held ∧ Owes g z (m * 2 ^ o) g' ∧
        s'.pcpList z cpu o = some list' := by
  intro n
  induction n with
  | zero =>
    intro s g list r h hstale hlist _
    exact ⟨0, list, s, g, rfl, h, hstale, .refl _, by simpa using Owes.zero g z, hlist⟩
  | succ n ih =>
    intro s g list r h hstale hlist hroom
    rw [refillLoop]
    rcases extractBlock_ok z o h hstale with
      heq | ⟨p, s₁, g₁, heq, h₁, hstale₁, hheld₁, howes₁, hsame₁⟩
    · rw [heq]
      exact ⟨0, list, s, g, rfl, h, hstale, .refl _, by simpa using Owes.zero g z, hlist⟩
    · rw [heq]
      have hlist₁ : s₁.pcpList z cpu o = some list := by
        rw [SameCaches.pcpList hsame₁, hlist]
      have h₂ := h₁.pcpPush hlist₁ (by omega) hheld₁
      have hlist₂ : (s₁.setPcp z cpu o (list.pushHot p)).pcpList z cpu o =
          some (list.pushHot p) := by
        rw [setPcp_pcpList]
        simp [hlist₁]
      have hcount : (list.pushHot p).count = list.count + 1 := rfl
      obtain ⟨m, list', s', g', heq', h', hstale', hheld', howes', hlist'⟩ :=
        ih (r + 1) h₂ hstale₁ hlist₂ (by omega)
      refine ⟨m + 1, list', s', g', ?_, h', hstale', hheld', ?_, hlist'⟩
      · simp only
        rw [heq', Nat.add_assoc, Nat.add_comm 1 m]
      · exact Owes.trans (g := g) howes₁ howes' (by push_cast; ring)

theorem batchRefill_ok (cpu o : Nat) {list : PcpList} (h : Settled F s H)
    (hlist : s.pcpList z cpu o = some list) (hempty : list.count = 0) :
    ∃ b list' s', s.batchRefillPcp cfg z cpu o list = some (b, list', s') ∧ Settled F s' H ∧
      s'.pcpList z cpu o = some list' := by
  obtain ⟨⟨free, hinv⟩, hpcp⟩ := flush_ok cfg z h
  have hlist₁ := hpcp z cpu o
  rw [hlist] at hlist₁
  have hok := hinv.pcpOk z cpu o list hlist₁
  have hbatch := hok.batch_le.trans hok.high_le
  obtain ⟨m, list', s', g', heq, h', hstale', hheld', howes', hlist'⟩ :=
    refillLoop_ok z cpu o list.batch 0 hinv rfl hlist₁ (by omega)
  rw [batchRefillPcp, heq, Nat.zero_add]
  by_cases hm : 0 < m
  · refine ⟨true, list', _, by simp only [hm, if_true]; rfl, ?_, ?_⟩
    · rw [← shiftLeft_cast] at howes'
      exact h'.paid hstale' hheld' howes' rfl
    · exact (pcpList_modify s' z z cpu o _).trans hlist'
  · obtain rfl : m = 0 := by omega
    refine ⟨false, list', s', rfl, h'.settled hstale' hheld' ?_, hlist'⟩
    rw [howes']
    funext z'
    by_cases hz : z' = z <;> simp [hz]

/-- The loop of `batch_drain_pcp`. -/
theorem drainLoop_ok (cpu o : Nat) :
    ∀ (n : Nat) {s : State} {g : Ghost} {list : PcpList}, Inv F s g → g.stale = none →
      s.pcpList z cpu o = some list → n ≤ list.count →
      ∃ list' s' g', drainLoop cfg z cpu o n s list = some (list', s') ∧ Inv F s' g' ∧
        g'.stale = none ∧ g'.held.Perm g.held ∧ Owes g z (-(n * 2 ^ o)) g' ∧
        s'.pcpList z cpu o = some list' ∧ list'.count + n = list.count := by
  intro n
  induction n with
  | zero =>
    intro s g list h hstale hlist _
    exact ⟨list, s, g, rfl, h, hstale, .refl _, by simpa using Owes.zero g z, hlist, rfl⟩
  | succ n ih =>
    intro s g list h hstale hlist hn
    obtain ⟨p, list₁, hpop, hok₁, htoList, hcount₁, -⟩ :=
      (h.pcpOk z cpu o list hlist).popCold (by omega)
    have h₁ := h.pcpPop hlist hok₁ (by rw [htoList])
    obtain ⟨g₂, h₂, hstale₂, hheld₂, howes₂, hsame₂⟩ :=
      buddyMerge_ok cfg z h₁ hstale (.refl _)
    have hlist₂ : ((s.setPcp z cpu o list₁).buddyMergeInternal cfg z p o).pcpList z cpu o =
        some list₁ := by
      rw [SameCaches.pcpList hsame₂, setPcp_pcpList]
      simp [hlist]
    obtain ⟨list', s', g', heq, h', hstale', hheld', howes', hlist', hcount'⟩ :=
      ih h₂ hstale₂ hlist₂ (by omega)
    refine ⟨list', s', g', ?_, h', hstale', hheld'.trans hheld₂, ?_, hlist', by omega⟩
    · rw [drainLoop, hpop]
      exact heq
    · exact Owes.trans (g := g) howes₂ howes' (by push_cast; ring)

theorem batchDrain_ok (cpu o : Nat) {list : PcpList} (h : Settled F s H)
    (hlist : s.pcpList z cpu o = some list) :
    ∃ list' s', s.batchDrainPcp cfg z cpu o list = some (list', s') ∧ Settled F s' H ∧
      s'.pcpList z cpu o = some list' ∧ list'.count + min list.batch list.count = list.count := by
  obtain ⟨⟨free, hinv⟩, hpcp⟩ := flush_ok cfg z h
  have hlist₁ := hpcp z cpu o
  rw [hlist] at hlist₁
  obtain ⟨list', s', g', heq, h', hstale', hheld', howes', hlist', hcount'⟩ :=
    drainLoop_ok cfg z cpu o (min list.batch list.count) hinv rfl hlist₁ (min_le_right _ _)
  rw [batchDrainPcp]
  simp only [heq]
  refine ⟨list', _, rfl, ?_, ?_, hcount'⟩
  · rw [← shiftLeft_cast] at howes'
    exact h'.repaid hstale' hheld' howes' rfl
  · exact (pcpList_modify s' z z cpu o _).trans hlist'

/-! ## The calls -/

variable {z} in
theorem pcpList_of_small {cpu o : Nat} {list : PcpList}
    (h : (if pcpMaxOrder < o then none else s.pcpList z cpu o) = some list) :
    s.pcpList z cpu o = some list := by
  split at h
  · contradiction
  · exact h

theorem allocPages_ok (cpu requested : Nat) (h : Settled F s H) :
    ∃ r s', s.allocPages cfg z cpu requested = some (r, s') ∧
    Settled F s' (handedOut r requested H) := by
  rw [allocPages]
  cases hlist : (if pcpMaxOrder < requested then none else s.pcpList z cpu requested) with
  | none => exact allocPagesLocked_ok cfg z requested h
  | some list =>
    have hlist' := pcpList_of_small hlist
    -- whether it had to be refilled or not, the list is the one the state holds
    obtain ⟨b, list₁, s₁, heq, h₁, hlist₁⟩ : ∃ b list₁ s₁,
        (if list.count = 0 then s.batchRefillPcp cfg z cpu requested list
          else some (true, list, s)) = some (b, list₁, s₁) ∧ Settled F s₁ H ∧
          s₁.pcpList z cpu requested = some list₁ := by
      by_cases hempty : list.count = 0
      · rw [if_pos hempty]
        exact batchRefill_ok cfg z cpu requested h hlist' hempty
      · rw [if_neg hempty]
        exact ⟨true, list, s, rfl, h, hlist'⟩
    simp only [heq]
    cases b with
    | false => exact ⟨none, s₁, rfl, h₁⟩
    | true =>
      obtain ⟨free, hinv⟩ := id h₁
      by_cases hzero : list₁.count = 0
      · exact ⟨none, s₁, by simp [PcpList.popHot, hzero], h₁⟩
      · obtain ⟨p, list₂, hpop, hok₂, htoList, -⟩ :=
          (hinv.pcpOk z cpu requested list₁ hlist₁).popHot hzero
        have hpopped :=
          hinv.pcpPop hlist₁ hok₂ (by rw [htoList]; exact List.perm_append_singleton _ _)
        refine ⟨some p, _, by simp only [hpop]; rfl, ?_⟩
        exact ⟨free, hpopped⟩

theorem freePage_ok (cpu : Nat) (h : Settled F s H) (hheld : H.Perm (⟨p, order⟩ :: H')) :
    ∃ s', s.freePage cfg z cpu p order = some s' ∧ Settled F s' H' := by
  rw [freePage]
  split
  · -- another node's CPU: the order goes into the descriptor
    obtain ⟨free, hinv⟩ := h
    have hmem : (⟨p, order⟩ : Block) ∈ H := hheld.mem_iff.2 (by simp)
    have hset := hinv.mark (p := p) (d := { s.pages p with order := order }) ⟨⟨p, order⟩, hmem, rfl⟩
      (hinv.held_state hmem rfl) (.inl rfl)
    simp only
    split
    · have hpush := hset.deferredPush (z := z) hheld (by simp)
      refine ⟨_, rfl, free, ?_⟩
      have hstate : (s.setPage p { s.pages p with order := order }).modifyZone z (fun zone =>
          { zone with deferredFrees := zone.deferredFrees ++ [p] }) =
          (s.setPage p { s.pages p with order := order }).modifyZone z (fun zone =>
            { zone with deferredFrees := ((s.setPage p { s.pages p with order := order }).zones
              z).deferredFrees ++ [p] }) := rfl
      rw [hstate]
      exact hpush
    · exact ⟨_, rfl, freePageLocked_ok cfg z ⟨free, hset⟩ hheld⟩
  · cases hlist : (if pcpMaxOrder < order then none else s.pcpList z cpu order) with
    | none => exact ⟨_, rfl, freePageLocked_ok cfg z h hheld⟩
    | some list =>
      have hlist' := pcpList_of_small hlist
      have hok : list.Ok := by
        obtain ⟨free, hinv⟩ := h
        exact hinv.pcpOk z cpu order list hlist'
      have hb := hok.batch_pos
      have hbh := hok.batch_le
      have hhc := hok.high_le
      have hcc := hok.count_le
      -- a drained list has lost at least one block, any other is below its mark
      obtain ⟨list₁, s₁, heq, h₁, hlist₁, hroom⟩ : ∃ list₁ s₁,
          (if list.needsDrain then s.batchDrainPcp cfg z cpu order list else some (list, s)) =
            some (list₁, s₁) ∧ Settled F s₁ H ∧ s₁.pcpList z cpu order = some list₁ ∧
            list₁.count < PcpList.maxCapacity := by
        by_cases hdrain : list.high ≤ list.count
        · obtain ⟨list₁, s₁, heq, h₁, hlist₁, hcount⟩ := batchDrain_ok cfg z cpu order h hlist'
          refine ⟨list₁, s₁, ?_, h₁, hlist₁, ?_⟩
          · simpa [PcpList.needsDrain, hdrain] using heq
          · have : 1 ≤ min list.batch list.count := by omega
            omega
        · exact ⟨list, s, by simp [PcpList.needsDrain, hdrain], h, hlist', by omega⟩
      simp only [heq]
      obtain ⟨free, hinv⟩ := h₁
      exact ⟨_, rfl, free, hinv.pcpPush hlist₁ hroom hheld⟩

theorem extractLargest_ok (minOrder : Nat) (h : Settled F s H) :
    ∃ r s', s.extractLargestBlockForSteal cfg z minOrder = some (r, s') ∧ match r with
      | none => Settled F s' H
      | some p => minOrder ≤ (s'.pages p).order ∧ Settled F s' (⟨p, (s'.pages p).order⟩ :: H) := by
  obtain ⟨hflush, -⟩ := flush_ok cfg z h
  rw [extractLargestBlockForSteal]
  generalize s.flushDeferredFreesInternal cfg z = s₁ at *
  obtain ⟨free, hinv⟩ := id hflush
  by_cases hzero : s₁.availableOrders z minOrder = 0
  · exact ⟨none, s₁, by simp only [hzero, if_true], hflush⟩
  · obtain ⟨hlt, hbit⟩ := bitWidth_spec hzero
    simp only [hzero, if_false]
    generalize bitWidth (s₁.availableOrders z minOrder) - 1 = order at *
    obtain ⟨hle, hne⟩ := available_spec hinv hlt hbit
    obtain ⟨p, l, hfree⟩ := List.exists_cons_of_ne_nil hne
    have hmarked := hinv.marked z order p (by rw [hfree]; simp)
    have hfirst : free z order = [] ++ p :: l := hfree
    obtain ⟨g₁, h₁, hstale₁, hheld₁, howes₁⟩ := hinv.take hfirst rfl
      (d := { (s₁.removeFree z order p).pages p with state := .active }) (by simp)
    refine ⟨some p, _, by rw [hinv.popFree_eq hfree], ?_⟩
    have horder : ((((s₁.removeFree z order p).setPage p { (s₁.removeFree z order p).pages p with
        state := .active }).subFreePages z (2 ^ order)).pages p).order = order := by
      simp [subFreePages, removeFree_pages, hmarked]
    simp only [horder]
    exact ⟨hle, h₁.paid hstale₁ (List.Perm.of_eq hheld₁) (by exact_mod_cast howes₁) rfl⟩

theorem adopt_ok (h : Settled F s H) (hheld : H.Perm (⟨p, order⟩ :: H')) (hle : requested ≤ order) :
    Settled F (s.adoptStolenBlock z p order requested) (⟨p, requested⟩ :: H') := by
  obtain ⟨free, hinv⟩ := h
  obtain ⟨g₁, h₁, hstale₁, hheld₁, howes₁, -⟩ := splitLoop_ok z order hinv (.inl rfl) hheld hle
  have hin : ∃ b ∈ g₁.held, b.base = p := ⟨⟨p, requested⟩, hheld₁.mem_iff.2 (by simp), rfl⟩
  have h₂ := h₁.mark (d := ⟨.active, z.mobility, requested, z.node⟩) hin (by simp) (.inl hstale₁)
  have h₃ := addFreePages_ok (z := z) (n := 2 ^ order - 2 ^ requested) h₂
  have howes₂ : Owes _ z _ { g₁ with stale := none } := howes₁
  refine h₃.settled rfl hheld₁ (howes₂.settles rfl ?_)
  have hpow : 2 ^ requested ≤ 2 ^ order := Nat.pow_le_pow_right (by decide) hle
  push_cast [hpow]
  ring

theorem stealLoop_ok (requested : Nat) :
    ∀ (fallbacks : List PageMobility) {s : State} {H : List Block}, Settled F s H →
      ∃ r s', stealLoop cfg z requested fallbacks s = some (r, s') ∧
      Settled F s' (handedOut r requested H) := by
  intro fallbacks
  induction fallbacks with
  | nil => exact fun h => ⟨none, _, rfl, h⟩
  | cons fallback rest ih =>
    intro s H h
    obtain ⟨r, s₁, heq, hr⟩ := extractLargest_ok cfg ⟨z.node, fallback⟩ requested h
    rw [stealLoop, heq]
    cases r with
    | none => exact ih hr
    | some p => exact ⟨some p, _, rfl, adopt_ok z hr.2 (.refl _) hr.1⟩

theorem nodeAllocPages_ok (cpu requested : Nat) (h : Settled F s H) :
    ∃ r s', s.nodeAllocPages cfg z cpu requested = some (r, s') ∧
    Settled F s' (handedOut r requested H) := by
  obtain ⟨r, s₁, heq, h₁⟩ := allocPages_ok cfg z cpu requested h
  rw [nodeAllocPages, heq]
  cases r with
  | none => exact stealLoop_ok cfg z requested _ h₁
  | some p => exact ⟨some p, s₁, rfl, h₁⟩

end Erebus.Pmm
