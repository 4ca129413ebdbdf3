import Erebus.Memory.Vmm.PageMap.Entry
import Mathlib.Tactic

/-!
# Static calls

`apply_patches` of `static_call.cpp`: every static call goes through a trampoline of eight bytes,
and the trampoline is pointed once at the best implementation that the boot CPU can run.

* `encode`, `decode`: the word an entry of the table asks for, and where the CPU goes from a word.
* `bestEntry`: the scan for the entry that decides a trampoline; `Wins`: the entry it is to find.
* `patchLoop`, `applyPatches`: the pass over the table, which decides each trampoline when its first
  entry comes up and looks only at the rest of the table then.
* `applyPatches_right`: what the pass leaves, and that a second one changes nothing.

Trampolines are words: `encode` turns down a site that is not a multiple of 16, so that no two of
them overlap. `F` are the features a CPU may have.
-/

namespace Erebus.Patch

open Function (update update_self update_of_ne update_eq_self)

/-- The errors of `apply_patches`; it passes on that of `create_alias`. -/
inductive Error where
  | invalidState
  | siteOutOfTextBounds
  | outOfBounds
  | unexpectedSiteMnemonic
  | createAlias (e : Vmm.Error)
  deriving DecidableEq

/-- `FeaturePack`; `list` has the `count` features that are in use. -/
structure FeaturePack (F : Type) where
  list : List F
  negateMask : BitVec 8

structure StaticCallEntry (F : Type) where
  site : BitVec 64
  target : BitVec 64
  requirements : FeaturePack F
  priority : Nat

/-- The linker's symbols around the code and the trampolines in it. -/
structure Image where
  textStart : BitVec 64
  textEnd : BitVec 64
  trampsStart : BitVec 64
  trampsEnd : BitVec 64

/-! ## Trampolines -/

def jmpRel32 : BitVec 64 := 0xE9

def int3Padding : BitVec 64 := 0xCCCCCC <<< 40

def returnTrampoline : BitVec 64 := 0xCCCCCC00401F0FC3

def isTrampoline (word : BitVec 64) : Bool :=
  word == returnTrampoline || (word &&& 0xFF == jmpRel32 && word >>> 40 == 0xCCCCCC)

def jumpTrampoline (rel : BitVec 32) : BitVec 64 :=
  jmpRel32 ||| rel.setWidth 64 <<< 8 ||| int3Padding

def inRange (addr start stop : BitVec 64) : Bool := start ≤ addr && addr < stop

variable {F : Type}

/-- The trampoline that an entry asks for, or why it cannot have it. -/
def encode (image : Image) (entry : StaticCallEntry F) : Except Error (BitVec 64) :=
  if !inRange entry.site image.trampsStart image.trampsEnd || entry.site % 16 != 0 then
    .error .siteOutOfTextBounds
  else if entry.target = 0 then
    .ok returnTrampoline
  else if !inRange entry.target image.textStart image.textEnd ||
      inRange entry.target image.trampsStart image.trampsEnd then
    .error .outOfBounds
  else
    -- the displacement counts from the end of the jump
    let rel := entry.target - (entry.site + 5#64)
    if rel ≠ (rel.setWidth 32).signExtend 64 then .error .outOfBounds
    else .ok (jumpTrampoline (rel.setWidth 32))

/-- Where the CPU goes from the word at `site`: back to the caller, or to an address. -/
def decode (site word : BitVec 64) : Option (Option (BitVec 64)) :=
  if word.setWidth 8 = 0xC3#8 then some none
  else if word.setWidth 8 = 0xE9#8 then
    some (some (site + 5#64 + ((word >>> 8).setWidth 32).signExtend 64))
  else none

/-- Where an entry wants it to go. -/
def StaticCallEntry.goal (entry : StaticCallEntry F) : Option (BitVec 64) :=
  if entry.target = 0 then none else some entry.target

theorem jumpTrampoline_toNat (rel : BitVec 32) :
    (jumpTrampoline rel).toNat = 0xCCCCCC * 2 ^ 40 + (rel.toNat * 2 ^ 8 + 0xE9) := by
  have hrel := rel.isLt
  have hwide : (rel.setWidth 64).toNat = rel.toNat := by
    rw [BitVec.toNat_setWidth]
    omega
  have hword : (rel.setWidth 64 <<< 8).toNat = rel.toNat <<< 8 := by
    rw [BitVec.toNat_shiftLeft, hwide, Nat.shiftLeft_eq]
    omega
  -- the three parts share no bits
  have hlow : 0xE9 ||| rel.toNat <<< 8 = rel.toNat * 2 ^ 8 + 0xE9 := by
    rw [Nat.or_comm, ← Nat.shiftLeft_add_eq_or_of_lt (by decide : 0xE9 < 2 ^ 8), Nat.shiftLeft_eq]
  rw [jumpTrampoline, BitVec.toNat_or, BitVec.toNat_or, hword,
    show jmpRel32.toNat = 0xE9 from rfl, hlow, Nat.or_comm,
    show int3Padding.toNat = 0xCCCCCC <<< 40 from rfl,
    ← Nat.shiftLeft_add_eq_or_of_lt (by omega), Nat.shiftLeft_eq]

theorem isTrampoline_jump (rel : BitVec 32) : isTrampoline (jumpTrampoline rel) = true := by
  have hnat := jumpTrampoline_toNat rel
  have hlt := rel.isLt
  have hpad : jumpTrampoline rel >>> 40 = 0xCCCCCC := by
    rw [← BitVec.toNat_inj, BitVec.toNat_ushiftRight, hnat, Nat.shiftRight_eq_div_pow]
    show _ = 0xCCCCCC
    omega
  have hmask : jumpTrampoline rel &&& 0xFF = jmpRel32 := by
    rw [← BitVec.toNat_inj, BitVec.toNat_and, hnat]
    show _ &&& (2 ^ 8 - 1) = 0xE9
    rw [Nat.and_two_pow_sub_one_eq_mod]
    omega
  rw [isTrampoline, hmask, hpad]
  simp

theorem decode_jump (site : BitVec 64) (rel : BitVec 32) :
    decode site (jumpTrampoline rel) = some (some (site + 5#64 + rel.signExtend 64)) := by
  have hnat := jumpTrampoline_toNat rel
  have hlt := rel.isLt
  have hbyte : (jumpTrampoline rel).setWidth 8 = 0xE9#8 := by
    rw [← BitVec.toNat_inj, BitVec.toNat_setWidth, hnat]
    show _ = 0xE9
    omega
  have hfield : (jumpTrampoline rel >>> 8).setWidth 32 = rel := by
    rw [← BitVec.toNat_inj, BitVec.toNat_setWidth, BitVec.toNat_ushiftRight, hnat,
      Nat.shiftRight_eq_div_pow]
    omega
  rw [decode, hbyte, if_neg (by decide), if_pos rfl, hfield]

/-- The word of an entry is a trampoline, and goes where the entry says. -/
theorem encode_spec {image : Image} {entry : StaticCallEntry F} {word : BitVec 64}
    (h : encode image entry = .ok word) :
    isTrampoline word = true ∧ decode entry.site word = some entry.goal := by
  unfold encode at h
  split at h
  · cases h
  split at h
  · rename_i htarget
    cases h
    exact ⟨rfl, by rw [StaticCallEntry.goal, if_pos htarget]; rfl⟩
  rename_i htarget
  split at h
  · cases h
  simp only at h
  split at h
  · cases h
  rename_i hfits
  cases h
  refine ⟨isTrampoline_jump _, ?_⟩
  rw [decode_jump, ← not_not.1 hfits, StaticCallEntry.goal, if_neg htarget, BitVec.add_comm,
    BitVec.sub_add_cancel]

/-! ## The best entry -/

variable [DecidableEq F] (always : F) (has : F → Bool)

/-- `FeaturePack::is_met_by`; `always` is `Feature::ALWAYS`, and `has` the boot CPU. -/
def FeaturePack.isMetBy (pack : FeaturePack F) : Bool :=
  pack.list.zipIdx.all fun (feature, i) =>
    (feature == always || has feature) != pack.negateMask.getLsbD i

/-- An entry for the trampoline at `site` that this CPU can use. -/
def StaticCallEntry.Meets (entry : StaticCallEntry F) (site : BitVec 64) : Prop :=
  entry.site = site ∧ entry.requirements.isMetBy always has = true

instance (entry : StaticCallEntry F) (site : BitVec 64) : Decidable (entry.Meets always has site) :=
  inferInstanceAs (Decidable (_ ∧ _))

def bestEntry (entries : List (StaticCallEntry F)) (site : BitVec 64) :
    Option (StaticCallEntry F) :=
  entries.foldl (fun best entry =>
    if entry.Meets always has site ∧ best.all (fun best => best.priority ≤ entry.priority) then
      some entry
    else best) none

/-- The met entry with the highest priority, the last one among equals. -/
def Wins (entries : List (StaticCallEntry F)) (site : BitVec 64) (entry : StaticCallEntry F) :
    Prop :=
  entry.Meets always has site ∧ ∃ before after, entries = before ++ entry :: after ∧
    (∀ e ∈ before, e.Meets always has site → e.priority ≤ entry.priority) ∧
    ∀ e ∈ after, e.Meets always has site → e.priority < entry.priority

variable {always has} {entries : List (StaticCallEntry F)} {site : BitVec 64}
  {entry e : StaticCallEntry F}

/-- The entry that is looked at last wins if no winner so far has a higher priority. -/
theorem Wins.overtaken (h : Wins always has entries site e) (hmeets : entry.Meets always has site)
    (hle : e.priority ≤ entry.priority) : Wins always has (entries ++ [entry]) site entry := by
  obtain ⟨-, before, after, rfl, hbefore, hafter⟩ := h
  refine ⟨hmeets, _, [], rfl, fun e' he hm => le_trans ?_ hle,
    fun _ he => absurd he List.not_mem_nil⟩
  rcases List.mem_append.1 he with he | he
  · exact hbefore e' he hm
  · rcases List.mem_cons.1 he with rfl | he
    · exact le_rfl
    · exact (hafter e' he hm).le

theorem Wins.stays (h : Wins always has entries site e)
    (hlt : entry.Meets always has site → entry.priority < e.priority) :
    Wins always has (entries ++ [entry]) site e := by
  obtain ⟨hmeets, before, after, rfl, hbefore, hafter⟩ := h
  refine ⟨hmeets, before, after ++ [entry], by simp, hbefore, fun e' he hm => ?_⟩
  rcases List.mem_append.1 he with he | he
  · exact hafter e' he hm
  · obtain rfl := List.mem_singleton.1 he
    exact hlt hm

/-- **`best_entry`** finds nothing only if there is nothing, and the winner otherwise. -/
theorem bestEntry_wins :
    (bestEntry always has entries site = none → ∀ e ∈ entries, ¬ e.Meets always has site) ∧
      ∀ e, bestEntry always has entries site = some e → Wins always has entries site e := by
  -- along the scan, from the front
  induction entries using List.reverseRecOn with
  | nil => exact ⟨fun _ e he => absurd he List.not_mem_nil, nofun⟩
  | append_singleton entries entry ih =>
    rw [bestEntry, List.foldl_append, ← bestEntry, List.foldl_cons, List.foldl_nil]
    cases hbest : bestEntry always has entries site with
    | none =>
      have hnone := ih.1 hbest
      simp only [Option.all_none, and_true]
      split
      · rename_i hmeets
        refine ⟨nofun, fun e he => ?_⟩
        cases he
        exact ⟨hmeets, entries, [], rfl, fun e he hm => absurd hm (hnone e he),
          fun e he => absurd he List.not_mem_nil⟩
      · rename_i hnot
        refine ⟨fun _ e he => ?_, nofun⟩
        rcases List.mem_append.1 he with he | he
        · exact hnone e he
        · rwa [List.mem_singleton.1 he]
    | some best =>
      have hwins := ih.2 best hbest
      simp only [Option.all_some, decide_eq_true_eq]
      split
      · rename_i hnew
        refine ⟨nofun, fun e he => ?_⟩
        cases he
        exact hwins.overtaken hnew.1 hnew.2
      · rename_i hold
        refine ⟨nofun, fun e he => ?_⟩
        cases he
        exact hwins.stays fun hm => lt_of_not_ge fun hle => hold ⟨hm, hle⟩

theorem bestEntry_site (h : bestEntry always has entries site = some e) : e.site = site :=
  (bestEntry_wins.2 e h).1.1

/-- An entry for another trampoline does not matter. -/
theorem bestEntry_cons_of_ne (h : e.site ≠ site) :
    bestEntry always has (e :: entries) site = bestEntry always has entries site := by
  simp [bestEntry, StaticCallEntry.Meets, h]

/-! ## The pass -/

/-- `sizeof(StaticCallEntry)`. -/
def entryBytes : Nat := 40

/-- The section of the table: its size, and the whole entries in it. -/
structure Table (F : Type) where
  bytes : Nat
  entries : List (StaticCallEntry F)
  length_eq : entries.length = bytes / entryBytes

/-- The words at the trampolines. -/
abbrev Words := BitVec 64 → BitVec 64

variable (always has) (image : Image)

/-- The loop of `apply_patches`; `seen` are the sites of the entries before these. -/
def patchLoop (seen : List (BitVec 64)) :
    List (StaticCallEntry F) → Words → Except Error Unit × Words
  | [], mem => (.ok (), mem)
  | entry :: rest, mem =>
    -- each trampoline is decided once, when its first entry comes up
    if entry.site ∈ seen then
      patchLoop seen rest mem
    else
      match bestEntry always has (entry :: rest) entry.site with
      | none => patchLoop (entry.site :: seen) rest mem
      | some best =>
        match encode image best with
        | .error e => (.error e, mem)
        | .ok word =>
          if isTrampoline (mem entry.site) then
            patchLoop (entry.site :: seen) rest (update mem entry.site word)
          else
            (.error .unexpectedSiteMnemonic, mem)

/-- `StaticCallPatcher::apply_patches`; `made` is what `create_alias` answers. -/
def applyPatches (table : Table F) (made : Except Vmm.Error Unit) (mem : Words) :
    Except Error Unit × Words :=
  if table.bytes % entryBytes ≠ 0 then
    (.error .invalidState, mem)
  else if table.entries.isEmpty then
    (.ok (), mem)
  else
    match made with
    | .error e => (.error (.createAlias e), mem)
    | .ok _ => patchLoop always has image [] table.entries mem

/-- What a pass that answers `r` makes of a trampoline: it leaves what was there, which it does in
the end only if no entry is met, or writes what the best entry asks for. -/
def Decided (entries : List (StaticCallEntry F)) (r : Except Error Unit) (mem mem' : Words)
    (site : BitVec 64) : Prop :=
  mem' site = mem site ∧ (r = .ok () → bestEntry always has entries site = none) ∨
    ∃ e, bestEntry always has entries site = some e ∧ encode image e = .ok (mem' site)

variable {always has image} {seen : List (BitVec 64)} {mem mem' : Words} {r : Except Error Unit}

/-- A pass that fails here has changed nothing from here on. -/
theorem Decided.failed {err : Error} :
    Decided always has image entries (.error err) mem mem site :=
  .inl ⟨rfl, nofun⟩

theorem Decided.cons_of_ne (h : Decided always has image entries r mem mem' site)
    (hne : e.site ≠ site) : Decided always has image (e :: entries) r mem mem' site := by
  rwa [Decided, bestEntry_cons_of_ne hne]

/-- A trampoline that was seen stays; any other one is decided. -/
theorem patchLoop_spec (h : patchLoop always has image seen entries mem = (r, mem'))
    (site : BitVec 64) : (site ∈ seen → mem' site = mem site) ∧
      (site ∉ seen → Decided always has image entries r mem mem' site) := by
  induction entries generalizing seen mem with
  | nil =>
    cases h
    exact ⟨fun _ => rfl, fun _ => .inl ⟨rfl, fun _ => rfl⟩⟩
  | cons entry rest ih =>
    rw [patchLoop] at h
    split at h
    · rename_i hseen
      exact ⟨(ih h).1, fun hsite => ((ih h).2 hsite).cons_of_ne fun heq => hsite (heq ▸ hseen)⟩
    rename_i hfresh
    -- the rest of the pass, after a round that leaves `mem₁` behind
    have hpass : ∀ {mem₁},
        patchLoop always has image (entry.site :: seen) rest mem₁ = (r, mem') →
        (∀ s, s ≠ entry.site → mem₁ s = mem s) →
        Decided always has image (entry :: rest) (.ok ()) mem mem₁ entry.site →
        (site ∈ seen → mem' site = mem site) ∧
          (site ∉ seen → Decided always has image (entry :: rest) r mem mem' site) := by
      intro mem₁ hrun hother hhere
      obtain ⟨hkept, hrest⟩ := ih hrun
      by_cases hsite : site = entry.site
      · subst hsite
        refine ⟨fun hin => absurd hin hfresh, fun _ => ?_⟩
        rw [Decided, hkept List.mem_cons_self]
        exact hhere.imp_left fun h => ⟨h.1, fun _ => h.2 rfl⟩
      · have hnot : site ∉ seen → site ∉ entry.site :: seen := fun hnot hin =>
          hnot ((List.mem_cons.1 hin).resolve_left hsite)
        rw [Decided, ← hother site hsite]
        exact ⟨fun hin => hkept (List.mem_cons_of_mem _ hin),
          fun hin => (hrest (hnot hin)).cons_of_ne (Ne.symm hsite)⟩
    split at h
    · rename_i hbest
      exact hpass h (fun _ _ => rfl) (.inl ⟨rfl, fun _ => hbest⟩)
    rename_i best hbest
    split at h
    · cases h
      exact ⟨fun _ => rfl, fun _ => .failed⟩
    rename_i word hword
    split at h
    · refine hpass h (fun s hs => update_of_ne hs ..) (.inr ⟨best, hbest, ?_⟩)
      rw [update_self]
      exact hword
    · cases h
      exact ⟨fun _ => rfl, fun _ => .failed⟩

/-- Where everything is in place already, nothing happens. -/
theorem patchLoop_settled
    (h : ∀ site ∉ seen, ∀ e, bestEntry always has entries site = some e →
      encode image e = .ok (mem site)) :
    patchLoop always has image seen entries mem = (.ok (), mem) := by
  induction entries generalizing seen with
  | nil => rfl
  | cons entry rest ih =>
    have hrest : ∀ {seen'}, entry.site ∈ seen' → (∀ s ∈ seen, s ∈ seen') →
        patchLoop always has image seen' rest mem = (.ok (), mem) := by
      intro seen' hin hsub
      refine ih fun site hsite e he => h site (fun hs => hsite (hsub site hs)) e ?_
      have hne : entry.site ≠ site := fun heq => hsite (heq ▸ hin)
      rwa [bestEntry_cons_of_ne hne]
    rw [patchLoop]
    split
    · rename_i hseen
      exact hrest hseen fun _ => id
    rename_i hfresh
    have hnext := hrest (List.mem_cons_self (l := seen)) fun s hs => List.mem_cons_of_mem _ hs
    split
    · exact hnext
    rename_i best hbest
    have hword := h _ hfresh best hbest
    -- the same word is written once more
    rw [hword]
    simp only [(encode_spec hword).1, if_true, update_eq_self]
    exact hnext

theorem applyPatches_decided {table : Table F} {made : Except Vmm.Error Unit}
    (h : applyPatches always has image table made mem = (r, mem')) (site : BitVec 64) :
    Decided always has image table.entries r mem mem' site := by
  unfold applyPatches at h
  split at h
  · cases h
    exact .failed
  split at h
  · rename_i hempty
    cases h
    rw [List.isEmpty_iff.1 hempty]
    exact .inl ⟨rfl, fun _ => rfl⟩
  split at h
  · cases h
    exact .failed
  · exact (patchLoop_spec h site).2 List.not_mem_nil

theorem applyPatches_again {table : Table F} {made : Except Vmm.Error Unit}
    (h : applyPatches always has image table made mem = (.ok (), mem')) :
    applyPatches always has image table (.ok ()) mem' = (.ok (), mem') := by
  have hdecided := applyPatches_decided h
  unfold applyPatches at h ⊢
  split at h
  · cases h
  rename_i hwhole
  rw [if_neg hwhole]
  split
  · rfl
  refine patchLoop_settled fun site _ e he => ?_
  rcases hdecided site with ⟨-, hnone⟩ | ⟨best, hbest, hword⟩
  · rw [hnone rfl] at he
    cases he
  · rw [hbest] at he
    cases he
    exact hword

/-- A trampoline goes where the winner among the entries says. -/
def Right (always : F) (has : F → Bool) (entries : List (StaticCallEntry F)) (mem : Words)
    (site : BitVec 64) : Prop :=
  ∃ e, Wins always has entries site e ∧ decode site (mem site) = some e.goal ∧
    isTrampoline (mem site) = true

theorem right_of_encode (hbest : bestEntry always has entries site = some e)
    (hword : encode image e = .ok (mem site)) : Right always has entries mem site := by
  have hspec := encode_spec hword
  rw [bestEntry_site hbest] at hspec
  exact ⟨e, bestEntry_wins.2 e hbest, hspec.2, hspec.1⟩

/-- **`apply_patches`** points every trampoline that has a met entry where the best of these says,
keeps all others, and has nothing to do the second time. After a failure a trampoline is as it was,
or right. -/
theorem applyPatches_right (always : F) (has : F → Bool) (image : Image) (table : Table F)
    (made : Except Vmm.Error Unit) (mem : Words) :
    let run := applyPatches always has image table made mem
    (run.1 = .ok () →
      (∀ site, (∃ e ∈ table.entries, e.Meets always has site) →
        Right always has table.entries run.2 site) ∧
      (∀ site, (∀ e ∈ table.entries, ¬ e.Meets always has site) → run.2 site = mem site) ∧
      applyPatches always has image table (.ok ()) run.2 = (.ok (), run.2)) ∧
    (run.1 ≠ .ok () →
      ∀ site, run.2 site = mem site ∨ Right always has table.entries run.2 site) := by
  intro run
  have hdecided := applyPatches_decided (rfl : run = (run.1, run.2))
  refine ⟨fun hr => ⟨fun site hmet => ?_, fun site hnone => ?_, ?_⟩, fun _ site => ?_⟩
  · obtain ⟨e, he, hmeets⟩ := hmet
    rcases hdecided site with ⟨-, hnone⟩ | ⟨best, hbest, hword⟩
    · exact absurd hmeets (bestEntry_wins.1 (hnone hr) e he)
    · exact right_of_encode hbest hword
  · rcases hdecided site with ⟨hsame, -⟩ | ⟨best, hbest, -⟩
    · exact hsame
    · obtain ⟨hmeets, before, after, hentries, -⟩ := bestEntry_wins.2 best hbest
      exact absurd hmeets (hnone best (by simp [hentries]))
  · have hok : applyPatches always has image table made mem = (.ok (), run.2) := by rw [← hr]
    exact applyPatches_again hok
  · rcases hdecided site with ⟨hsame, -⟩ | ⟨best, hbest, hword⟩
    · exact .inl hsame
    · exact .inr (right_of_encode hbest hword)

/-- Two implementations of one call, of the same priority, and a call that is turned off. -/
def twoCalls : Table Nat where
  bytes := 120
  entries := [⟨0x1000, 0x3000, ⟨[1], 0⟩, 100⟩, ⟨0x1010, 0, ⟨[2], 1⟩, 100⟩,
    ⟨0x1000, 0x2000, ⟨[0, 1], 0⟩, 100⟩]
  length_eq := rfl

/-- The later one is taken, and the third trampoline is left alone. -/
theorem applyPatches_right_twoCalls :
    let run := applyPatches 0 (· == 1) ⟨0x1000, 0x8000, 0x1000, 0x1030⟩ twoCalls (.ok ())
      fun _ => jumpTrampoline 0
    run.1 = .ok () ∧ Right 0 (· == 1) twoCalls.entries run.2 0x1000 ∧
      decode 0x1000 (run.2 0x1000) = some (some 0x2000) ∧
      decode 0x1010 (run.2 0x1010) = some none ∧ run.2 0x1020 = jumpTrampoline 0 := by
  intro run
  have hrun : run.1 = .ok () := rfl
  obtain ⟨hright, hkept, -⟩ := (applyPatches_right 0 (· == 1) _ twoCalls (.ok ()) _).1 hrun
  exact ⟨hrun, hright 0x1000 ⟨_, List.mem_cons_self, by decide⟩, by decide, by decide,
    hkept 0x1020 (by decide)⟩

end Erebus.Patch
