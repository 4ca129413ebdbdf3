import Erebus.Memory.Pmm.Runs

/-!
# Free buddies are always merged

Whether a block can merge is read off two descriptors, so the argument is about what the calls write
into them: a block that is linked never has its buddy free beside it, whether the merge loop put it
there or it is the upper half of a block that was split.

* `Merged cfg pages`: no two descriptors call each other free buddies.
* `Op.run_merged`: every call keeps that.
* `merged_stays`: so a region whose blocks have all come back is one block again.
-/

namespace Erebus.Pmm

open State

open Buddy (Block)

variable {F : Set Nat} {s s' : State} {g : Ghost} {cfg : Config} {z : ZoneId} {pages : Nat → Page}
variable {o p requested : Nat}

/-- No two free blocks with descriptors are buddies of the same zone and of an order that can still
grow. -/
def Merged (cfg : Config) (pages : Nat → Page) : Prop :=
  ∀ p, (pages p).state = .free → (pages p).order < maxOrder → p < cfg.maxPfn →
    p ^^^ 2 ^ (pages p).order < cfg.maxPfn → pages (p ^^^ 2 ^ (pages p).order) ≠ pages p

/-- The buddy is not free beside it. -/
def Alone (cfg : Config) (pages : Nat → Page) (z : ZoneId) (o p : Nat) : Prop :=
  o < maxOrder → p ^^^ 2 ^ o < cfg.maxPfn → pages (p ^^^ 2 ^ o) ≠ ⟨.free, z.mobility, o, z.node⟩

theorem xor_two_pow_ne (p o : Nat) : p ^^^ 2 ^ o ≠ p := by
  intro h
  have hzero : p ^^^ (p ^^^ 2 ^ o) = p ^^^ p := by rw [h]
  simp at hzero

theorem Merged.mark (h : Merged cfg pages) (p : Nat) {d : Page} (hd : d.state ≠ .free) :
    Merged cfg (Function.update pages p d) := by
  intro q hfree ho hq hpfn
  have hne : q ≠ p := by
    rintro rfl
    rw [Function.update_self] at hfree
    exact hd hfree
  rw [Function.update_of_ne hne] at hfree ho hpfn ⊢
  by_cases hb : q ^^^ 2 ^ (pages q).order = p
  · rw [hb, Function.update_self]
    rintro rfl
    exact hd hfree
  · rw [Function.update_of_ne hb]
    exact h q hfree ho hq hpfn

theorem Merged.link (h : Merged cfg pages) (halone : Alone cfg pages z o p) :
    Merged cfg (Function.update pages p ⟨.free, z.mobility, o, z.node⟩) := by
  intro q hfree ho hq hpfn
  by_cases hqp : q = p
  · subst hqp
    rw [Function.update_self] at ho hpfn ⊢
    rw [Function.update_of_ne (xor_two_pow_ne _ _)]
    exact halone ho hpfn
  · rw [Function.update_of_ne hqp] at hfree ho hpfn ⊢
    by_cases hb : q ^^^ 2 ^ (pages q).order = p
    · -- the linked block is the buddy, so `q` is what would have to be free beside it
      rw [hb, Function.update_self]
      intro heq
      rw [← heq] at hb ho
      have hback : p ^^^ 2 ^ o = q := by
        rw [← hb]
        simp
      refine halone ho (by rwa [hback]) ?_
      rw [hback]
      exact heq.symm
    · rw [Function.update_of_ne hb]
      exact h q hfree ho hq hpfn

/-! ## Merging -/

/-- The loop of `buddy_merge_internal` stops only where there is nothing to merge with. -/
theorem mergeLoop_merged : ∀ (steps : Nat) {s : State} (pfn order : Nat), Merged cfg s.pages →
    maxOrder ≤ order + steps → Merged cfg (mergeLoop cfg z steps s pfn order).1.pages ∧
        Alone cfg (mergeLoop cfg z steps s pfn order).1.pages z
          (mergeLoop cfg z steps s pfn order).2.2 (mergeLoop cfg z steps s pfn order).2.1 := by
  intro steps
  induction steps with
  | zero =>
    intro s pfn order h hsteps
    exact ⟨h, fun hlt => absurd hlt (Nat.not_lt.2 hsteps)⟩
  | succ steps ih =>
    intro s pfn order h hsteps
    by_cases htop : cfg.maxPfn ≤ pfn ^^^ 2 ^ order
    · simp only [mergeLoop, if_pos htop]
      exact ⟨h, fun _ hlt => absurd hlt (Nat.not_lt.2 htop)⟩
    · by_cases hno : (s.pages (pfn ^^^ 2 ^ order)).state ≠ .free ∨
        (s.pages (pfn ^^^ 2 ^ order)).order ≠ order ∨
          (s.pages (pfn ^^^ 2 ^ order)).mobility ≠ z.mobility ∨
          (s.pages (pfn ^^^ 2 ^ order)).numaNode ≠ z.node
      · simp only [mergeLoop, if_neg htop, if_pos hno]
        refine ⟨h, fun _ _ heq => ?_⟩
        rw [heq] at hno
        simp at hno
      · simp only [mergeLoop, if_neg htop, if_neg hno]
        refine ih _ _ ?_ (by omega)
        rw [setPage, removeFree_pages]
        exact h.mark _ (by simp)

theorem buddyMerge_merged (h : Merged cfg s.pages) (p order : Nat) :
    Merged cfg (s.buddyMergeInternal cfg z p order).pages := by
  obtain ⟨hloop, halone⟩ := mergeLoop_merged (z := z) (maxOrder - order) p order h (by omega)
  rw [buddyMergeInternal, linkFree_pages]
  exact hloop.link halone

theorem flushLoop_merged : ∀ (queue : List Nat) {s : State} (n : Nat), Merged cfg s.pages →
    Merged cfg (flushLoop cfg z queue s n).1.pages := by
  intro queue
  induction queue with
  | nil => exact fun n h => h
  | cons p queue ih => exact fun n h => ih _ (buddyMerge_merged (by exact h) _ _)

theorem flush_merged (h : Merged cfg s.pages) :
    Merged cfg (s.flushDeferredFreesInternal cfg z).pages := by
  rw [flushDeferredFreesInternal]
  split
  · exact h
  · exact flushLoop_merged _ 0 h

theorem drainLoop_merged (cpu o : Nat) : ∀ (n : Nat) {s s' : State} {list list' : PcpList},
    drainLoop cfg z cpu o n s list = some (list', s') → Merged cfg s.pages →
    Merged cfg s'.pages := by
  intro n
  induction n with
  | zero =>
    intro s s' list list' heq h
    cases heq
    exact h
  | succ n ih =>
    intro s s' list list' heq h
    rw [drainLoop] at heq
    split at heq
    · cases heq
    · exact ih heq (buddyMerge_merged (by exact h) _ _)

/-! ## Splitting -/

/-- The buddy of an upper half is the lower half. -/
theorem upper_xor {pfn : Nat} (h : 2 ^ (o + 1) ∣ pfn) : (pfn + 2 ^ o) ^^^ 2 ^ o = pfn := by
  rw [← Buddy.buddy_of_lower h]
  simp

/-- The lower half is in hand while the upper halves are linked. -/
theorem splitLoop_merged {pfn : Nat} :
    ∀ (curr : Nat) {s : State}, Merged cfg s.pages → 2 ^ curr ∣ pfn →
    (∀ o < curr, s.pages pfn ≠ ⟨.free, z.mobility, o, z.node⟩) →
      Merged cfg (splitLoop z pfn requested curr s).pages := by
  intro curr
  induction curr with
  | zero => exact fun h _ _ => h
  | succ o ih =>
    intro s h hdvd hhand
    rw [splitLoop]
    split
    · have hpages : (s.linkFree z o (pfn + 2 ^ o)).pages pfn = s.pages pfn := by
        rw [linkFree_pages]
        exact Function.update_of_ne (by have := Nat.two_pow_pos o; omega) ..
      refine ih ?_ (dvd_trans (pow_dvd_pow 2 (Nat.le_succ o)) hdvd) fun o' ho' => ?_
      · rw [linkFree_pages]
        refine h.link fun _ _ => ?_
        rw [upper_xor hdvd]
        exact hhand o (Nat.lt_succ_self o)
      · rw [hpages]
        exact hhand o' (ho'.trans (Nat.lt_succ_self o))
    · exact h

/-- What `pop_hot` takes off a list is aligned and its descriptor still has that list's order. -/
theorem Inv.popped (h : Inv F s g) (hp : p ∈ g.free z o) :
    2 ^ o ∣ p ∧ ∀ o' < o, (s.removeFree z o p).pages p ≠ ⟨.free, z.mobility, o', z.node⟩ := by
  refine ⟨h.shelved.aligned (mem_shelf_free hp), fun o' ho' heq => ?_⟩
  rw [removeFree_pages, h.marked z o p hp] at heq
  exact ho'.ne' (congrArg Page.order heq)

theorem extractBlock_merged {r : Option Nat} (h : Inv F s g)
    (heq : s.extractBlockInternal z requested = some (r, s'))
    (hm : Merged cfg s.pages) : Merged cfg s'.pages := by
  rw [extractBlockInternal] at heq
  by_cases hzero : s.availableOrders z requested = 0
  · simp only [hzero, if_true] at heq
    cases heq
    exact hm
  · obtain ⟨hlt, hbit⟩ := countrZero_spec hzero
    simp only [hzero, if_false] at heq
    generalize countrZero (s.availableOrders z requested) = curr at *
    obtain ⟨-, hne⟩ := available_spec h hlt hbit
    obtain ⟨p, l, hfree⟩ := List.exists_cons_of_ne_nil hne
    obtain ⟨hdvd, hhand⟩ := h.popped (p := p) (by rw [hfree]; exact List.mem_cons_self)
    rw [h.popFree_eq hfree] at heq
    cases heq
    refine Merged.mark (splitLoop_merged curr ?_ hdvd hhand) p (by simp)
    rwa [removeFree_pages]

theorem refillLoop_merged (cpu o : Nat) :
    ∀ (n : Nat) {s : State} {g : Ghost} {list : PcpList} (r : Nat), Inv F s g →
    g.stale = none → s.pcpList z cpu o = some list → list.count + n ≤ PcpList.maxCapacity →
    Merged cfg s.pages →
      ∀ r' list' s', refillLoop z cpu o n s list r = some (r', list', s') →
      Merged cfg s'.pages := by
  intro n
  induction n with
  | zero =>
    intro s g list r _ _ _ _ hm r' list' s' heq
    cases heq
    exact hm
  | succ n ih =>
    intro s g list r h hstale hlist hroom hm r' list' s' heq
    rw [refillLoop] at heq
    rcases extractBlock_ok z o h hstale with
      hnone | ⟨p, s₁, g₁, hsome, h₁, hstale₁, hheld₁, -, hsame₁⟩
    · rw [hnone] at heq
      cases heq
      exact hm
    · rw [hsome] at heq
      have hlist₁ : s₁.pcpList z cpu o = some list := by rw [SameCaches.pcpList hsame₁, hlist]
      have hm₁ := extractBlock_merged h hsome hm
      refine ih (r + 1) (h₁.pcpPush hlist₁ (by omega) hheld₁) hstale₁ ?_ ?_ (by exact hm₁) _ _ _ heq
      · rw [setPcp_pcpList]
        simp [hlist₁]
      · show list.count + 1 + n ≤ _
        omega

theorem adopt_merged {order : Nat} {H : List Block} (h : Settled F s H) (hp : ⟨p, order⟩ ∈ H)
    (hm : Merged cfg s.pages) : Merged cfg (s.adoptStolenBlock z p order requested).pages := by
  obtain ⟨free, hinv⟩ := h
  have hdvd : Block.Aligned ⟨p, order⟩ := hinv.shelved.aligned (c := Place.held) hp
  refine Merged.mark (splitLoop_merged order hm hdvd fun o _ heq => ?_) p (by simp)
  exact hinv.held_state hp rfl (congrArg Page.state heq)

/-! ## The calls -/

section

variable {H : List Block} {r : Option Nat}
variable {o cpu : Nat} (hm : Merged cfg s.pages)
include hm

theorem allocPagesLocked_merged (h : Settled F s H)
    (heq : s.allocPagesLocked cfg z o = some (r, s')) : Merged cfg s'.pages := by
  obtain ⟨⟨free, hinv⟩, -⟩ := flush_ok cfg z h
  rw [allocPagesLocked] at heq
  cases hx : (s.flushDeferredFreesInternal cfg z).extractBlockInternal z o with
  | none => simp [hx] at heq
  | some x =>
    have := extractBlock_merged hinv hx (flush_merged hm)
    rcases x with ⟨_ | p, s₁⟩ <;> simp only [hx, Option.some.injEq, Prod.mk.injEq] at heq <;>
      exact heq.2 ▸ this

theorem batchRefill_merged {b : Bool} {list list' : PcpList} (h : Settled F s H)
    (hlist : s.pcpList z cpu o = some list)
    (hempty : list.count = 0) (heq : s.batchRefillPcp cfg z cpu o list = some (b, list', s')) :
    Merged cfg s'.pages := by
  obtain ⟨⟨free, hinv⟩, hpcp⟩ := flush_ok cfg z h
  have hlist₁ := (hpcp z cpu o).trans hlist
  have hok := hinv.pcpOk z cpu o list hlist₁
  have hbatch := hok.batch_le.trans hok.high_le
  rw [batchRefillPcp] at heq
  cases hx : refillLoop z cpu o list.batch (s.flushDeferredFreesInternal cfg z) list 0 with
  | none => simp [hx] at heq
  | some x =>
    obtain ⟨n, list₁, s₁⟩ := x
    have :=
      refillLoop_merged cpu o list.batch 0 hinv rfl hlist₁ (by omega) (flush_merged hm) _ _ _ hx
    simp only [hx] at heq
    split at heq <;> simp only [Option.some.injEq, Prod.mk.injEq] at heq <;> exact heq.2.2 ▸ this

theorem batchDrain_merged {list list' : PcpList}
    (heq : s.batchDrainPcp cfg z cpu o list = some (list', s')) : Merged cfg s'.pages := by
  rw [batchDrainPcp] at heq
  cases hx :
    drainLoop cfg z cpu o (min list.batch list.count) (s.flushDeferredFreesInternal cfg z) list with
  | none => simp [hx] at heq
  | some x =>
    have := drainLoop_merged cpu o _ hx (flush_merged hm)
    simp only [hx, Option.some.injEq, Prod.mk.injEq] at heq
    exact heq.2 ▸ this

theorem allocPages_merged (h : Settled F s H) (heq : s.allocPages cfg z cpu o = some (r, s')) :
    Merged cfg s'.pages := by
  rw [allocPages] at heq
  cases hlist : (if pcpMaxOrder < o then none else s.pcpList z cpu o) with
  | none =>
    rw [hlist] at heq
    exact allocPagesLocked_merged hm h heq
  | some list =>
    have hlist' := pcpList_of_small hlist
    simp only [hlist] at heq
    cases hx :
      (if list.count = 0 then s.batchRefillPcp cfg z cpu o list else some (true, list, s)) with
    | none => simp [hx] at heq
    | some x =>
      obtain ⟨b, list₁, s₁⟩ := x
      have hm₁ : Merged cfg s₁.pages := by
        by_cases hempty : list.count = 0
        · rw [if_pos hempty] at hx
          exact batchRefill_merged hm h hlist' hempty hx
        · rw [if_neg hempty] at hx
          cases hx
          exact hm
      simp only [hx] at heq
      cases b
      · cases heq
        exact hm₁
      · dsimp only at heq
        split at heq <;> cases heq <;> exact hm₁

theorem freePage_merged {p : Nat} (h : Settled F s H) (hp : ⟨p, o⟩ ∈ H)
    (heq : s.freePage cfg z cpu p o = some s') : Merged cfg s'.pages := by
  have hlocked : ∀ {s : State}, Merged cfg s.pages →
      Merged cfg (s.freePageLocked cfg z p o).pages :=
    fun h => buddyMerge_merged (flush_merged h) p o
  rw [freePage] at heq
  split at heq
  · obtain ⟨free, hinv⟩ := h
    have hset : Merged cfg (s.setPage p { s.pages p with order := o }).pages :=
      hm.mark p (hinv.held_state hp rfl)
    dsimp only at heq
    split at heq <;> cases heq
    · exact hset
    · exact hlocked hset
  · split at heq
    · cases heq
      exact hlocked hm
    · rename_i list _
      cases hx : (if list.needsDrain then s.batchDrainPcp cfg z cpu o list else some (list, s)) with
      | none => simp [hx] at heq
      | some x =>
        obtain ⟨list₁, s₁⟩ := x
        have hm₁ : Merged cfg s₁.pages := by
          split at hx
          · exact batchDrain_merged hm hx
          · cases hx
            exact hm
        simp only [hx, Option.some.injEq] at heq
        exact heq ▸ hm₁

theorem extractLargest_merged (heq : s.extractLargestBlockForSteal cfg z o = some (r, s')) :
    Merged cfg s'.pages := by
  have hm₁ : Merged cfg (s.flushDeferredFreesInternal cfg z).pages := flush_merged hm
  rw [extractLargestBlockForSteal] at heq
  dsimp only at heq
  split at heq
  · cases heq
    exact hm₁
  · split at heq
    · cases heq
    · rename_i p s₂ hpop
      cases heq
      have hpages : s₂.pages = (s.flushDeferredFreesInternal cfg z).pages := by
        rw [popFree] at hpop
        split at hpop
        · cases hpop
          unfold clearIfEmpty
          split <;> rfl
        · cases hpop
      refine Merged.mark ?_ p (by simp)
      rwa [hpages]

omit hm in
theorem stealLoop_merged :
    ∀ (fallbacks : List PageMobility) {s : State} {H : List Block}, Settled F s H →
    stealLoop cfg z o fallbacks s = some (r, s') → Merged cfg s.pages → Merged cfg s'.pages := by
  intro fallbacks
  induction fallbacks with
  | nil =>
    intro s H _ heq hm
    cases heq
    exact hm
  | cons fallback rest ih =>
    intro s H h heq hm
    rw [stealLoop] at heq
    obtain ⟨r₁, s₁, hx, h₁⟩ := extractLargest_ok cfg ⟨z.node, fallback⟩ o h
    have hm₁ := extractLargest_merged hm hx
    rw [hx] at heq
    cases r₁ with
    | none => exact ih h₁ heq hm₁
    | some p =>
      cases heq
      exact adopt_merged h₁.2 List.mem_cons_self hm₁

theorem nodeAllocPages_merged (h : Settled F s H)
    (heq : s.nodeAllocPages cfg z cpu o = some (r, s')) : Merged cfg s'.pages := by
  rw [nodeAllocPages] at heq
  obtain ⟨r₁, s₁, hx, h₁⟩ := allocPages_ok cfg z cpu o h
  have hm₁ := allocPages_merged hm h hx
  rw [hx] at heq
  cases r₁ with
  | none => exact stealLoop_merged _ h₁ heq hm₁
  | some p =>
    cases heq
    exact hm₁

/-- **Every call keeps free buddies merged.** -/
theorem Op.run_merged {op : Op} {H' : List Block} (h : Settled F s H) (hallowed : op.Allowed s H)
    (hop : op.run cfg s H = some (s', H')) : Merged cfg s'.pages := by
  cases op with
  | allocPages z cpu order =>
    obtain ⟨x, heq, ⟨⟩⟩ := Option.map_eq_some_iff.1 hop
    exact allocPages_merged hm h heq
  | allocPagesLocked z order =>
    obtain ⟨x, heq, ⟨⟩⟩ := Option.map_eq_some_iff.1 hop
    exact allocPagesLocked_merged hm h heq
  | nodeAllocPages z cpu order =>
    obtain ⟨x, heq, ⟨⟩⟩ := Option.map_eq_some_iff.1 hop
    exact nodeAllocPages_merged hm h heq
  | freePage z cpu page order =>
    obtain ⟨x, heq, ⟨⟩⟩ := Option.map_eq_some_iff.1 hop
    exact freePage_merged hm h hallowed heq
  | batchRefillPcp z cpu order =>
    cases hlist : s.pcpList z cpu order with
    | none =>
      simp only [Op.run, hlist] at hop
      cases hop
      exact hm
    | some list =>
      simp only [Op.run, hlist] at hop
      obtain ⟨x, heq, ⟨⟩⟩ := Option.map_eq_some_iff.1 hop
      exact batchRefill_merged hm h hlist (hallowed list hlist) heq
  | batchDrainPcp z cpu order =>
    cases hlist : s.pcpList z cpu order with
    | none =>
      simp only [Op.run, hlist] at hop
      cases hop
      exact hm
    | some list =>
      simp only [Op.run, hlist] at hop
      obtain ⟨x, heq, ⟨⟩⟩ := Option.map_eq_some_iff.1 hop
      exact batchDrain_merged hm heq
  | flushDeferredFrees z =>
    cases hop
    exact flush_merged hm
  | extractLargestBlockForSteal z minOrder =>
    obtain ⟨x, heq, ⟨⟩⟩ := Option.map_eq_some_iff.1 hop
    exact extractLargest_merged hm heq
  | adoptStolenBlock z block blockOrder requestedOrder =>
    cases hop
    exact adopt_merged h hallowed.1 hm
  | tunePcp z =>
    cases hop
    exact hm

end

/-! ## Whole runs -/

namespace State

/-- No zone's free lists hold two buddies of an order that can still grow. -/
def NoFreeBuddies (s : State) : Prop :=
  ∀ z o p, o < maxOrder → p ∈ s.linked z o → p ^^^ 2 ^ o ∉ s.linked z o

end State

/-- The lists and the descriptors say the same, as every frame has a descriptor. -/
theorem Settled.noFreeBuddies_iff {H : List Block} (h : Settled F s H)
    (hmax : ∀ f ∈ F, f < cfg.maxPfn) : s.NoFreeBuddies ↔ Merged cfg s.pages := by
  have hacc := h.accounted
  have hlt : ∀ {z o p}, p ∈ s.linked z o → p < cfg.maxPfn := by
    intro z o p hp
    refine hmax p ((hacc.cover p).2 ⟨.free z o, ⟨p, o⟩, ?_, Block.base_mem _⟩)
    exact List.mem_map_of_mem hp
  constructor
  · intro hno p hfree ho _ _ heq
    have hlinked : ∀ q, s.pages q = s.pages p →
        q ∈ s.linked ⟨(s.pages p).numaNode, (s.pages p).mobility⟩ (s.pages p).order := by
      intro q hq
      obtain ⟨z, o, hmem⟩ := (hacc.free_iff q).1 (by rw [hq, hfree])
      have hnames := hacc.names q z o hmem
      rw [← hq, hnames]
      exact hmem
    exact hno _ _ p ho (hlinked p rfl) (hlinked _ heq)
  · intro hm z o p ho hp hb
    have hnames := hacc.names p z o hp
    refine hm p (by rw [hnames]) (by rw [hnames]; exact ho) (hlt hp) ?_ ?_ <;> rw [hnames]
    · exact hlt hb
    · exact hacc.names _ z o hb

/-- One allowed call after another. -/
def Later (cfg : Config) : State × List Block → State × List Block → Prop :=
  Relation.ReflTransGen fun a b => ∃ op : Op, op.Allowed a.1 a.2 ∧ op.run cfg a.1 a.2 = some b

/-- **Buddies stay merged.**  From any state of a run in which no zone's lists hold two free
buddies, no calls in any order change that; and a `MAX_ORDER` region whose frames are all on the
free lists of one zone is one block there. -/
theorem merged_stays {caches : ZoneId → Option (Nat → Nat → PcpList)}
    {blocks : List (ZoneId × Block)}
    (hboot : Boot caches blocks) (hmax : ∀ f ∈ injected blocks, f < cfg.maxPfn) {H H' : List Block}
    (hrun : Run cfg caches blocks s H) (hno : s.NoFreeBuddies)
    (hlater : Later cfg (s, H) (s', H')) : s'.NoFreeBuddies ∧ ∀ z base, 2 ^ maxOrder ∣ base →
      (∀ f ∈ (⟨base, maxOrder⟩ : Block), ∃ o, ∃ p ∈ s'.linked z o, f ∈ (⟨p, o⟩ : Block)) →
        base ∈ s'.linked z maxOrder := by
  have hkeep : ∀ b : State × List Block, Later cfg (s, H) b → Run cfg caches blocks b.1 b.2 ∧
      Merged cfg b.1.pages := by
    intro b hb
    induction hb with
    | refl => exact ⟨hrun, ((run_settled hboot hrun).noFreeBuddies_iff hmax).1 hno⟩
    | tail _ hstep ih =>
      obtain ⟨op, hallowed, hop⟩ := hstep
      exact ⟨.step op ih.1 hallowed hop, Op.run_merged ih.2 (run_settled hboot ih.1) hallowed hop⟩
  obtain ⟨hrun', hm'⟩ := hkeep (s', H') hlater
  have hsettled := run_settled hboot hrun'
  have hno' := (hsettled.noFreeBuddies_iff hmax).2 hm'
  refine ⟨hno', fun z base hdvd hcover => ?_⟩
  have hacc := hsettled.accounted
  have hmem : ∀ {p o}, p ∈ s'.linked z o → (⟨p, o⟩ : Block) ∈ s'.blocksIn H' (.free z o) :=
    fun hp => List.mem_map_of_mem hp
  refine Buddy.whole_of_covered (P := fun b => b.base ∈ s'.linked z b.order) ?_ ?_ ?_ hdvd
    fun f hf => ?_
  · intro b hb
    exact hacc.aligned _ b (hmem hb)
  · intro b hb
    obtain ⟨free, hinv⟩ := hsettled
    exact hinv.order_le (List.ne_nil_of_mem (hinv.linked_eq ▸ hb))
  · exact fun p o => hno' z o p
  · obtain ⟨o, p, hp, hf⟩ := hcover f hf
    exact ⟨⟨p, o⟩, hp, hf⟩

section

/-- Four frames in one zone. -/
private def fourFrames : List (ZoneId × Block) := [(⟨0, .movable⟩, ⟨4, 2⟩)]

private theorem fourFrames_boot : Boot (fun _ => none) fourFrames where
  apart := by simp [fourFrames]
  aligned := by simp [fourFrames, Block.Aligned]
  order_le := by simp [fourFrames, maxOrder]
  tuned _ _ hcache := nomatch hcache

private def eightPages : Config := ⟨8, fun _ => 0⟩

/-- The state boot leaves. -/
private def booted : State := (State.empty fun _ => none).injectAll fourFrames

private theorem booted_merged : Merged eightPages booted.pages := by
  have hfresh : Merged eightPages fun _ => {} := nofun
  exact hfresh.link (z := ⟨0, .movable⟩) (o := 2) (p := 4) nofun

/-- Taking one of the frames splits the block twice. -/
theorem merged_stays_four :
    ∃ s' H', Later eightPages (booted, []) (s', H') ∧ H' ≠ [] ∧ s'.NoFreeBuddies := by
  have hmax : ∀ f ∈ injected fourFrames, f < eightPages.maxPfn := by
    rintro f ⟨e, he, hf⟩
    obtain rfl := List.mem_singleton.1 he
    exact hf.2
  have hrun : Run eightPages (fun _ => none) fourFrames booted [] := .boot
  have hno := ((run_settled fourFrames_boot hrun).noFreeBuddies_iff hmax).2 booted_merged
  have hop : ((Op.allocPagesLocked ⟨0, .movable⟩ 0).run eightPages booted []).map Prod.snd =
      some [⟨4, 0⟩] := by
    decide +kernel
  obtain ⟨⟨s', H'⟩, hop, rfl⟩ := Option.map_eq_some_iff.1 hop
  have hlater : Later eightPages (booted, []) (s', _) :=
    .single ⟨.allocPagesLocked ⟨0, .movable⟩ 0, trivial, hop⟩
  exact ⟨s', _, hlater, List.cons_ne_nil _ _, (merged_stays fourFrames_boot hmax hrun hno hlater).1⟩

end

end Erebus.Pmm
