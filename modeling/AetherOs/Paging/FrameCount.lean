import AetherOs.Paging.Accounts
import AetherOs.Paging.Release
import AetherOs.Paging.Boot
import Mathlib.Algebra.Group.Action.Defs
import Mathlib.Algebra.Order.BigOperators.Group.Finset

/-! # The number of free frames -/

namespace AetherOs.Paging

open Base Function Finset

/-! ## Runs of consecutive frames -/

section

variable {m : Pmm} {a f g count steps run start : ℕ}

def RunFree (m : Pmm) (a count : ℕ) : Prop := ∀ g, a ≤ g → g < a + count → pmmTestBit m g = false

theorem scanRun_lowest (hrun : run < count) (hcur : RunFree m (f - run) run) (hle : run ≤ f)
    (hstart : run ≠ 0 → start + run = f) :
    (∀ a, scanRun m count steps f run start = some a →
      RunFree m a count ∧ a + count ≤ f + steps ∧ ∀ b, f - run ≤ b → RunFree m b count → a ≤ b) ∧
    (scanRun m count steps f run start = none →
      ∀ b, f - run ≤ b → b + count ≤ f + steps → ¬ RunFree m b count) := by
  induction steps generalizing f run start with
  | zero =>
    refine ⟨fun a ha => (nomatch ha), fun _ b hb hend => ?_⟩
    omega
  | succ steps ih =>
    rw [scanRun]
    split
    · -- A run that starts at or before a frame in use would contain it.
      rename_i hused
      obtain ⟨hsome, hnone⟩ := @ih (f + 1) 0 start (by omega)
        (fun g hge hlt => by omega) (by omega) (fun h => absurd rfl h)
      have hlater {b : ℕ} (hb : f - run ≤ b) (hfree : RunFree m b count) : f + 1 - 0 ≤ b := by
        by_contra hlow
        have hbit := hfree f (by omega) (by omega)
        rw [hused] at hbit
        cases hbit
      refine ⟨fun a ha => ?_, fun hfail b hb hend hfree => ?_⟩
      · obtain ⟨hfree, hend, hlow⟩ := hsome a ha
        exact ⟨hfree, by omega, fun b hb hbfree => hlow b (hlater hb hbfree) hbfree⟩
      · exact hnone hfail b (hlater hb hfree) (by omega) hfree
    · rename_i hbit
      have hfree : pmmTestBit m f = false := by simpa using hbit
      have hcur' : RunFree m (f + 1 - (run + 1)) (run + 1) := fun g hge hlt => by
        by_cases hg : g = f
        · rw [hg, hfree]
        · exact hcur g (by omega) (by omega)
      dsimp only
      have hstart' : (if run = 0 then f else start) + run = f := by
        split
        · omega
        · rename_i hne
          exact hstart hne
      split
      · rename_i hfull
        refine ⟨fun a ha => ?_, fun hfail => nomatch hfail⟩
        obtain rfl := Option.some.inj ha
        have heq : (if run = 0 then f else start) = f + 1 - (run + 1) := by omega
        rw [heq, ← hfull]
        exact ⟨hcur', by omega, fun b hb _ => by omega⟩
      · rename_i hshort
        obtain ⟨hsome, hnone⟩ := @ih (f + 1) (run + 1) (if run = 0 then f else start) (by omega)
          hcur' (by omega) (fun _ => by omega)
        refine ⟨fun a ha => ?_, fun hfail b hb hend => hnone hfail b (by omega) (by omega)⟩
        obtain ⟨hrunfree, hend, hlow⟩ := hsome a ha
        exact ⟨hrunfree, by omega, fun b hb => hlow b (by omega)⟩

def takeFrames (a count : ℕ) (m : Pmm) : Pmm := (List.range' a count).foldl (fun m f => takeFrame f m) m

theorem free_takeFrames : Free (takeFrames a count m) g ↔ Free m g ∧ ¬ (a ≤ g ∧ g < a + count) := by
  induction count generalizing a m with
  | zero => simp [takeFrames]
  | succ count ih =>
    change Free (takeFrames (a + 1) count (takeFrame a m)) g ↔ _
    rw [ih, free_takeFrame]
    constructor
    · rintro ⟨⟨hfree, hne⟩, hout⟩
      exact ⟨hfree, by omega⟩
    · rintro ⟨hfree, hout⟩
      exact ⟨⟨hfree, by omega⟩, by omega⟩

theorem refcounts_takeFrames : (takeFrames a count m).refcounts g =
    if a ≤ g ∧ g < a + count then 1 else m.refcounts g := by
  induction count generalizing a m with
  | zero =>
    rw [if_neg (by omega)]
    rfl
  | succ count ih =>
    change (takeFrames (a + 1) count (takeFrame a m)).refcounts g = _
    rw [ih]
    by_cases hga : g = a
    · subst hga
      rw [if_neg (by omega), if_pos (by omega)]
      exact update_self _ _ _
    · have hother : (takeFrame a m).refcounts g = m.refcounts g := update_of_ne hga _ _
      rw [hother]
      exact if_congr (by omega) rfl rfl

theorem pmmTestBit_takeFrames : pmmTestBit (takeFrames a count m) g =
    (decide (a ≤ g ∧ g < a + count) || pmmTestBit m g) := by
  induction count generalizing a m with
  | zero => simp [takeFrames]
  | succ count ih =>
    change pmmTestBit (takeFrames (a + 1) count (takeFrame a m)) g = _
    rw [ih, pmmTestBit_takeFrame, ← Bool.or_assoc, ← Bool.decide_or]
    congr 1
    exact decide_eq_decide.mpr (by omega)

theorem usedFrameCount_takeFrames (hused : m.usedFrameCount < wordSize) :
    (takeFrames a count m).usedFrameCount = addWord m.usedFrameCount count := by
  induction count generalizing a m with
  | zero => exact (Nat.mod_eq_of_lt hused).symm
  | succ count ih =>
    change (takeFrames (a + 1) count (takeFrame a m)).usedFrameCount = _
    have hlt : (takeFrame a m).usedFrameCount < wordSize := Nat.mod_lt _ (by decide)
    rw [ih hlt]
    change addWord (addWord m.usedFrameCount 1) count = _
    simp only [addWord, wordSize]
    omega

def scanFrames (count : ℕ) (m : Pmm) : ℕ × Pmm :=
  match scanRun m count maxFrames 0 0 0 with
  | some start => (start * pageSize, takeFrames start count m)
  | none => (0, m)

theorem scanFrames_lowest (hcount : 1 ≤ count) :
    (scanFrames count m = (0, m) ∧ ∀ b, b + count ≤ maxFrames → ¬ RunFree m b count) ∨
      ∃ a, RunFree m a count ∧ a + count ≤ maxFrames ∧ (∀ b, RunFree m b count → a ≤ b) ∧
        scanFrames count m = (a * pageSize, takeFrames a count m) := by
  obtain ⟨hsome, hnone⟩ := @scanRun_lowest m 0 count maxFrames 0 0
    (by omega) (fun g _ hlt => by omega) le_rfl (fun h => absurd rfl h)
  rw [scanFrames]
  cases hscan : scanRun m count maxFrames 0 0 0 with
  | none => exact .inl ⟨rfl, fun b hend => hnone hscan b (by omega) (by omega)⟩
  | some a =>
    obtain ⟨hfree, hend, hlow⟩ := hsome a hscan
    exact .inr ⟨a, hfree, by omega, fun b => hlow b (by omega), rfl⟩

theorem runFree_one : RunFree m a 1 ↔ pmmTestBit m a = false :=
  ⟨fun h => h a le_rfl (by omega), fun h g hge hlt => by rwa [show g = a by omega]⟩

theorem pmmAllocFrame_eq_scanFrames : pmmAllocFrame m = scanFrames 1 m := by
  rcases pmmAllocFrame_lowest m with ⟨hfail, hnone⟩ | ⟨f, hf, hlow, halloc⟩ <;>
    rcases scanFrames_lowest (m := m) le_rfl with ⟨hfail', hnone'⟩ | ⟨a, hfree, hend, hlow', hscan⟩
  · rw [hfail, hfail']
  · exact absurd ⟨by omega, runFree_one.mp hfree⟩ (hnone a)
  · exact absurd (runFree_one.mpr hf.2) (hnone' f hf.1)
  · obtain rfl : f = a :=
      le_antisymm (hlow a ⟨by omega, runFree_one.mp hfree⟩) (hlow' f (runFree_one.mpr hf.2))
    rw [halloc, hscan]
    rfl

theorem pmmAllocFrames_eq (hcount : 1 ≤ count) : pmmAllocFrames count m = scanFrames count m := by
  rw [pmmAllocFrames, if_neg (by omega)]
  split_ifs with hone
  · rw [hone, pmmAllocFrame_eq_scanFrames]
  · rfl

theorem pmmAllocFrames_lowest (hcount : 1 ≤ count) :
    (pmmAllocFrames count m = (0, m) ∧ ∀ b, b + count ≤ maxFrames → ¬ RunFree m b count) ∨
      ∃ a, RunFree m a count ∧ a + count ≤ maxFrames ∧ (∀ b, RunFree m b count → a ≤ b) ∧
        pmmAllocFrames count m = (a * pageSize, takeFrames a count m) := by
  rw [pmmAllocFrames_eq hcount]
  exact scanFrames_lowest hcount

structure RunTaken (m m' : Pmm) (a count : ℕ) : Prop where
  bits : ∀ g, pmmTestBit m' g = (decide (a ≤ g ∧ g < a + count) || pmmTestBit m g)
  refcounts : ∀ g, m'.refcounts g = if a ≤ g ∧ g < a + count then 1 else m.refcounts g
  used : m'.usedFrameCount = addWord m.usedFrameCount count

def LowestRun (m : Pmm) (a count : ℕ) : Prop :=
  (RunFree m a count ∧ a + count ≤ maxFrames) ∧ ∀ b, RunFree m b count ∧ b + count ≤ maxFrames → a ≤ b

/-- While frame 0 is in use, `pmm_alloc_frames` is complete and first-fit, and its shortcut for one frame agrees with the
search for a run. -/
theorem pmmAllocFrames_firstFit (hzero : pmmTestBit m 0 = true) (hused : m.usedFrameCount < wordSize)
    (hcount : 1 ≤ count) :
    ((pmmAllocFrames count m).1 = 0 ↔ ∀ a, ¬ (RunFree m a count ∧ a + count ≤ maxFrames)) ∧
    ((pmmAllocFrames count m).1 = 0 → (pmmAllocFrames count m).2 = m) ∧
    (∀ a, LowestRun m a count → (pmmAllocFrames count m).1 = a * pageSize ∧
      RunTaken m (pmmAllocFrames count m).2 a count) ∧
    pmmAllocFrames 1 m = scanFrames 1 m := by
  have hlow := pmmAllocFrames_lowest (m := m) hcount
  have hone : pmmAllocFrames 1 m = scanFrames 1 m := pmmAllocFrames_eq le_rfl
  rcases hlow with ⟨hfail, hnone⟩ | ⟨a, hfree, hend, hlow, hsome⟩
  · rw [hfail]
    refine ⟨⟨fun _ a ⟨hfree, hend⟩ => hnone a hend hfree, fun _ => rfl⟩, fun _ => rfl, fun a ha => ?_, hone⟩
    exact absurd ha.1.1 (hnone a ha.1.2)
  · -- A run of free frames does not start at frame 0.
    have ha : a ≠ 0 := by
      rintro rfl
      have hbit := hfree 0 le_rfl (by omega)
      rw [hzero] at hbit
      cases hbit
    have hne : a * pageSize ≠ 0 := Nat.mul_ne_zero ha (by decide)
    rw [hsome]
    refine ⟨⟨fun h => absurd h hne, fun h => absurd ⟨hfree, hend⟩ (h a)⟩, fun h => absurd h hne, fun b hb => ?_, hone⟩
    obtain rfl : a = b := le_antisymm (hlow b hb.1.1) (hb.2 a ⟨hfree, hend⟩)
    exact ⟨rfl, fun g => pmmTestBit_takeFrames, fun g => refcounts_takeFrames, usedFrameCount_takeFrames hused⟩

/-- With frames 0 and 1 in use, two frames are taken from frame 2 on. -/
theorem pmmAllocFrames_firstFit_bareMachine : (pmmAllocFrames 2 bareMachine.pmm).1 = 2 * pageSize ∧
    RunTaken bareMachine.pmm (pmmAllocFrames 2 bareMachine.pmm).2 2 2 := by
  have hlowest : LowestRun bareMachine.pmm 2 2 := by
    refine ⟨⟨fun g hge hlt => ?_, by decide⟩, fun b hb => ?_⟩
    · obtain rfl | rfl : g = 2 ∨ g = 3 := by omega
      · decide
      · decide
    · have hbits : ∀ g < 2, pmmTestBit bareMachine.pmm g := by decide
      by_contra hlt
      have hbit := hb.1 b le_rfl (by omega)
      rw [hbits b (by omega)] at hbit
      cases hbit
  exact (pmmAllocFrames_firstFit (by decide) (by decide) (by decide)).2.2.1 2 hlowest

theorem pmmFreeFrames_eq (hend : a + count ≤ maxFrames) :
    pmmFreeFrames (a * pageSize) count m = freeAll (List.range' a count) m := by
  rw [freeAll, List.range'_eq_map_range, List.foldl_map]
  refine List.foldl_ext _ _ _ fun m' i hi => ?_
  have hi := List.mem_range.mp hi
  have hsum : addWord (a * pageSize) (i * pageSize) = (a + i) * pageSize := by
    simp only [addWord, wordSize, maxFrames, pageSize] at *
    omega
  rw [hsum]

end

/-! ## The number of free frames -/

section

def usedFrames (m : Pmm) : Finset ℕ := (Finset.range maxFrames).filter fun f => pmmTestBit m f = true

def clearFrames (m : Pmm) : Finset ℕ := (Finset.range maxFrames).filter fun f => pmmTestBit m f = false

def Counted (m : Pmm) : Prop := m.usedFrameCount = (usedFrames m).card

variable {m m' : Pmm} {a f count : ℕ}

theorem card_clearFrames (m : Pmm) : (usedFrames m).card + (clearFrames m).card = maxFrames := by
  have hsplit := card_filter_add_card_filter_not (s := Finset.range maxFrames) fun f => pmmTestBit m f
  simp only [Bool.not_eq_true, card_range] at hsplit
  exact hsplit

theorem card_usedFrames_le (m : Pmm) : (usedFrames m).card ≤ maxFrames := by
  have := card_clearFrames m
  omega

namespace Counted

theorem congr (h : Counted m) (hbits : m'.bitmap = m.bitmap) (hused : m'.usedFrameCount = m.usedFrameCount) :
    Counted m' := by
  have hframes : usedFrames m' = usedFrames m := filter_congr fun f _ => by rw [pmmTestBit, pmmTestBit, hbits]
  rw [Counted, hused, hframes]
  exact h

theorem set (h : Counted m) (hf : Free m f) (hbits : m'.bitmap = (pmmSetBit f m).bitmap)
    (hused : m'.usedFrameCount = addWord m.usedFrameCount 1) : Counted m' := by
  have hbit (g : ℕ) : pmmTestBit m' g = (decide (g = f) || pmmTestBit m g) := by
    rw [pmmTestBit, hbits]
    exact pmmTestBit_pmmSetBit
  have hframes : usedFrames m' = insert f (usedFrames m) := by
    ext g
    simp only [usedFrames, mem_filter, mem_insert, mem_range, hbit, Bool.or_eq_true,
      decide_eq_true_eq]
    constructor
    · rintro ⟨hg, rfl | hbit⟩
      · exact .inl rfl
      · exact .inr ⟨hg, hbit⟩
    · rintro (rfl | ⟨hg, hbit⟩)
      · exact ⟨hf.1, .inl rfl⟩
      · exact ⟨hg, .inr hbit⟩
  have hnew : f ∉ usedFrames m := by simp [usedFrames, hf.2]
  have hle := card_usedFrames_le m
  rw [Counted, hused, hframes, card_insert_of_notMem hnew, h]
  exact addWord_eq (by simp only [wordSize, maxFrames, pageSize] at *; omega)

theorem clear (h : Counted m) (hf : f < maxFrames) (hset : pmmTestBit m f)
    (hbits : m'.bitmap = (pmmClearBit f m).bitmap) (hused : m'.usedFrameCount = subWord m.usedFrameCount 1) :
    Counted m' := by
  have hbit (g : ℕ) : pmmTestBit m' g = (decide (g ≠ f) && pmmTestBit m g) := by
    rw [pmmTestBit, hbits]
    exact pmmTestBit_pmmClearBit
  have hframes : usedFrames m' = (usedFrames m).erase f := by
    ext g
    simp only [usedFrames, mem_filter, mem_erase, mem_range, hbit, Bool.and_eq_true,
      decide_eq_true_eq]
    tauto
  have hmem : f ∈ usedFrames m := by simp [usedFrames, hf, hset]
  have hle := card_usedFrames_le m
  have hpos : 0 < (usedFrames m).card := card_pos.mpr ⟨f, hmem⟩
  rw [Counted, hused, hframes, card_erase_of_mem hmem, h]
  exact subWord_eq (by simp only [wordSize, maxFrames, pageSize] at *; omega) hpos

/-! ## Calls -/

section

variable (h : Counted m)

include h

theorem takeFrame (hf : Free m f) : Counted (takeFrame f m) :=
  h.set hf rfl rfl

theorem takeFrames (hfree : RunFree m a count) (hend : a + count ≤ maxFrames) :
    Counted (takeFrames a count m) := by
  induction count generalizing a m with
  | zero => exact h
  | succ count ih =>
    refine ih (h.takeFrame ⟨by omega, hfree a le_rfl (by omega)⟩) (fun g hge hlt => ?_) (by omega)
    rw [pmmTestBit_takeFrame, hfree g (by omega) (by omega), Bool.or_false]
    exact decide_eq_false (by omega)

theorem pmmAllocFrame : Counted (pmmAllocFrame m).2 := by
  rcases pmmAllocFrame_cases m with hnone | ⟨f, hf, hsome⟩
  · rwa [hnone]
  · rw [hsome]
    exact h.takeFrame hf

theorem pmmAllocFrames (count : ℕ) : Counted (pmmAllocFrames count m).2 := by
  by_cases hcount : count = 0
  · rwa [Paging.pmmAllocFrames, if_pos hcount]
  · rcases pmmAllocFrames_lowest (m := m) (Nat.pos_of_ne_zero hcount) with ⟨hfail, -⟩ | ⟨a, hfree, hend, -, hsome⟩
    · rwa [hfail]
    · rw [hsome]
      exact h.takeFrames hfree hend

theorem pmmFreeFrame (frame : ℕ) : Counted (pmmFreeFrame frame m) := by
  rw [Paging.pmmFreeFrame]
  split
  · exact h
  rename_i hlt
  split
  · exact h
  rename_i hbit
  split
  · exact h.congr rfl rfl
  · exact h.clear (by omega) (by simpa using hbit) rfl rfl

theorem pmmFreeFrames (frame count : ℕ) : Counted (pmmFreeFrames frame count m) := by
  rw [Paging.pmmFreeFrames]
  exact List.foldlRecOn _ _ h fun m hm i _ => hm.pmmFreeFrame _

theorem pmmRefFrame (phys : ℕ) : Counted (pmmRefFrame phys m) := by
  rw [Paging.pmmRefFrame]
  split_ifs
  · exact h
  · exact h.congr rfl rfl
  · exact h

theorem pmmMarkUsed (addr size : ℕ) : Counted (pmmMarkUsed addr size m) := by
  rw [Paging.pmmMarkUsed]
  refine List.foldlRecOn _ _ h fun m hm f hf => ?_
  have hlt : f < maxFrames := by
    have := List.mem_range'_1.mp hf
    omega
  rw [markFrameUsed]
  split_ifs with hbit
  · exact hm
  · exact hm.set ⟨hlt, by simpa using hbit⟩ rfl rfl

theorem pmmMarkFree (addr size : ℕ) : Counted (pmmMarkFree addr size m) := by
  rw [Paging.pmmMarkFree]
  refine List.foldlRecOn _ _ h fun m hm f hf => ?_
  have hlt : f < maxFrames := by
    have := List.mem_range'_1.mp hf
    omega
  rw [markFrameFree]
  split_ifs with hbit
  · exact hm.clear hlt hbit rfl rfl
  · exact hm

end

theorem addEntry {st : PmmState} (h : Counted st.pmm) (e : MmapEntry) : Counted (addEntry e st).pmm := by
  rw [Paging.addEntry]
  split
  · exact h.pmmMarkFree e.baseAddr e.length
  · exact h

end Counted

theorem counted_start : Counted PmmState.start.pmm := by
  have hall : usedFrames PmmState.start.pmm = Finset.range maxFrames := by
    refine filter_true_of_mem fun f _ => ?_
    have hbits : ∀ i < 8, (0xFF : BitVec 8).getLsbD i := by decide
    rw [pmmTestBit_eq]
    exact hbits _ (Nat.mod_lt _ (by decide))
  rw [Counted, hall, card_range]
  rfl

inductive PmmCall
  | allocFrame
  | allocFrames (count : ℕ)
  | freeFrame (frame : ℕ)
  | freeFrames (frame count : ℕ)
  | refFrame (phys : ℕ)
  | unrefFrame (phys : ℕ)

def PmmCall.run (st : PmmState) : PmmCall → PmmState
  | allocFrame => { st with pmm := (pmmAllocFrame st.pmm).2 }
  | allocFrames count => { st with pmm := (pmmAllocFrames count st.pmm).2 }
  | freeFrame frame => { st with pmm := pmmFreeFrame frame st.pmm }
  | freeFrames frame count => { st with pmm := pmmFreeFrames frame count st.pmm }
  | refFrame phys => { st with pmm := pmmRefFrame phys st.pmm }
  | unrefFrame phys => { st with pmm := pmmUnrefFrame phys st.pmm }

theorem counted_run {st : PmmState} (h : Counted st.pmm) (c : PmmCall) :
    Counted (c.run st).pmm ∧ (c.run st).totalFrameCount = st.totalFrameCount := by
  cases c with
  | allocFrame => exact ⟨h.pmmAllocFrame, rfl⟩
  | allocFrames count => exact ⟨h.pmmAllocFrames count, rfl⟩
  | freeFrame frame => exact ⟨h.pmmFreeFrame frame, rfl⟩
  | freeFrames frame count => exact ⟨h.pmmFreeFrames frame count, rfl⟩
  | refFrame phys => exact ⟨h.pmmRefFrame phys, rfl⟩
  | unrefFrame phys => exact ⟨h.pmmFreeFrame phys, rfl⟩

theorem counted_runs {st : PmmState} (h : Counted st.pmm) (calls : List PmmCall) :
    Counted (calls.foldl PmmCall.run st).pmm ∧ (calls.foldl PmmCall.run st).totalFrameCount = st.totalFrameCount :=
  List.foldlRecOn (motive := fun st' : PmmState => Counted st'.pmm ∧ st'.totalFrameCount = st.totalFrameCount) calls _ ⟨h, rfl⟩
    fun _ hst' c _ => ⟨(counted_run hst'.1 c).1, (counted_run hst'.1 c).2.trans hst'.2⟩

theorem pmmFreeFramesCount_eq_iff {st : PmmState} (h : Counted st.pmm) (htotal : st.totalFrameCount < wordSize) :
    pmmFreeFramesCount st = (clearFrames st.pmm).card ↔ st.totalFrameCount = maxFrames := by
  have hsum := card_clearFrames st.pmm
  rw [pmmFreeFramesCount, h]
  simp only [subWord, wordSize, maxFrames, pageSize] at *
  omega

/-! ## Boot -/

section Boot

variable (info : ℕ → UInt8) (tag : ℕ)

def entryOffset (i : ℕ) : ℕ := tag + 16 + i * entrySize info tag

def entryCount : ℕ := (tagSize info tag - 16 + (entrySize info tag - 1)) / entrySize info tag

def mmapEntry (i : ℕ) : MmapEntry := mmapEntryAt info (entryOffset info tag i)

def availableFrames (count : ℕ) : ℕ :=
  ∑ i ∈ Finset.range count, if (mmapEntry info tag i).available then (mmapEntry info tag i).length / pageSize else 0

def BelowLimit : Prop := ∀ i < entryCount info tag, (mmapEntry info tag i).available = true →
  (mmapEntry info tag i).baseAddr + (mmapEntry info tag i).length ≤ 0x100000000

variable {info tag}

theorem lt_entryCount_iff {i : ℕ} (hsize : 0 < entrySize info tag) :
    entryOffset info tag i < tag + tagSize info tag ↔ i < entryCount info tag := by
  have hdiv : i < entryCount info tag ↔ (i + 1) * entrySize info tag ≤ tagSize info tag - 16 + (entrySize info tag - 1) :=
    Nat.le_div_iff_mul_le hsize
  rw [hdiv, entryOffset, Nat.add_mul]
  omega

theorem entryCount_lt (hsize : 0 < entrySize info tag) : entryCount info tag < 2 ^ 32 := by
  have hlt : tagSize info tag < 256 ^ 4 := leNat_lt
  rw [entryCount, Nat.div_lt_iff_lt_mul hsize]
  have hmul : 2 ^ 32 + (entrySize info tag - 1) ≤ 2 ^ 32 * entrySize info tag := by
    obtain ⟨k, hk⟩ : ∃ k, entrySize info tag = k + 1 := ⟨entrySize info tag - 1, by omega⟩
    rw [hk, Nat.mul_succ]
    omega
  omega

theorem availableFrames_le {n : ℕ} (hlim : BelowLimit info tag) (hn : n ≤ entryCount info tag) :
    availableFrames info tag n ≤ n * maxFrames := by
  have hsum := sum_le_card_nsmul (Finset.range n)
    (fun i => if (mmapEntry info tag i).available then (mmapEntry info tag i).length / pageSize else 0) maxFrames
    fun i hi => by
      split_ifs with havail
      · have := hlim i (by have := mem_range.mp hi; omega) havail
        simp only [maxFrames, pageSize]
        omega
      · exact Nat.zero_le _
  rwa [card_range, smul_eq_mul] at hsum

theorem mmapLoop_spec {fuel : ℕ} (hfuel : tagSize info tag < fuel) (hsize : 0 < entrySize info tag)
    (hlim : BelowLimit info tag) : ∃ st, loop (mmapStep info tag) fuel (tag + 16, .start) = some st ∧
      Counted st.pmm ∧ st.totalFrameCount = availableFrames info tag (entryCount info tag) := by
  have hmany := entryCount_lt hsize
  refine loop_rule (I := fun x => ∃ i ≤ entryCount info tag, x.1 = entryOffset info tag i ∧ Counted x.2.pmm ∧
    x.2.totalFrameCount = availableFrames info tag i) (fun x => tag + tagSize info tag - x.1) (by dsimp only; omega)
    ⟨0, Nat.zero_le _, by simp [entryOffset], counted_start, rfl⟩ ?_
  rintro ⟨off, st⟩ ⟨i, hi, rfl, hcounted, htotal⟩
  dsimp only at hcounted htotal
  rw [mmapStep]
  by_cases hlt : entryOffset info tag i < tag + tagSize info tag
  · rw [if_pos hlt]
    have hi := (lt_entryCount_iff hsize).mp hlt
    refine .inr ⟨_, rfl, ⟨i + 1, hi, ?_, hcounted.addEntry _, ?_⟩, by dsimp only; omega⟩
    · simp only [entryOffset, Nat.add_mul]
      omega
    · have hle := availableFrames_le hlim (Nat.succ_le_of_lt hi)
      set entry := mmapEntry info tag i
      have hsucc : availableFrames info tag (i + 1) = availableFrames info tag i +
          if entry.available then entry.length / pageSize else 0 :=
        sum_range_succ _ _
      rw [addEntry]
      change (if entry.available = true then _ else _ : PmmState).totalFrameCount = _
      rw [hsucc] at hle ⊢
      split_ifs with havail
      · rw [if_pos havail] at hle
        have hdown : alignDown entry.length pageSize / pageSize =
            entry.length / pageSize := frame_div _
        change addWord st.totalFrameCount (alignDown entry.length pageSize / pageSize) = _
        rw [hdown, htotal]
        refine addWord_eq ?_
        simp only [wordSize, maxFrames, pageSize] at *
        omega
      · exact htotal
  · rw [if_neg hlt]
    obtain rfl : i = entryCount info tag := by
      have := (lt_entryCount_iff hsize).not.mp hlt
      omega
    exact .inl ⟨_, rfl, hcounted, htotal⟩

theorem pmmInit_counted {fuel : ℕ} (hfind : multibootFindTag info 6 fuel = some (some tag))
    (hfuel : tagSize info tag < fuel) (hsize : 0 < entrySize info tag) (hlim : BelowLimit info tag)
    (kernelPhysEnd bitmapAddr : ℕ) : ∃ st, pmmInit kernelPhysEnd bitmapAddr info fuel = some st ∧ Counted st.pmm ∧
      st.totalFrameCount = availableFrames info tag (entryCount info tag) ∧ st.totalFrameCount < wordSize := by
  obtain ⟨st, hloop, hcounted, htotal⟩ := mmapLoop_spec hfuel hsize hlim
  refine ⟨{ st with pmm := markKernel kernelPhysEnd bitmapAddr st.pmm }, ?_, ?_, htotal, ?_⟩
  · rw [pmmInit, hfind]
    simp only [hloop, Option.map_some]
  · exact ((hcounted.pmmMarkUsed _ _).pmmMarkUsed _ _).pmmMarkUsed _ _
  · have hle := availableFrames_le hlim le_rfl
    have hmany := entryCount_lt hsize
    change st.totalFrameCount < wordSize
    rw [htotal]
    simp only [wordSize, maxFrames, pageSize] at *
    omega

/-- From boot on, the number of free frames is right exactly if the memory map offers all frames of four gigabytes. -/
theorem pmmFreeFramesCount_truthful_iff {fuel : ℕ} (hfind : multibootFindTag info 6 fuel = some (some tag))
    (hfuel : tagSize info tag < fuel) (hsize : 24 ≤ entrySize info tag) (hlim : BelowLimit info tag)
    (kernelPhysEnd bitmapAddr : ℕ) : ∃ st, pmmInit kernelPhysEnd bitmapAddr info fuel = some st ∧
      ∀ calls : List PmmCall, pmmFreeFramesCount (calls.foldl PmmCall.run st) =
        (clearFrames (calls.foldl PmmCall.run st).pmm).card ↔
          availableFrames info tag (entryCount info tag) = maxFrames := by
  obtain ⟨st, hinit, hcounted, htotal, hlt⟩ := pmmInit_counted hfind hfuel (by omega) hlim kernelPhysEnd bitmapAddr
  refine ⟨st, hinit, fun calls => ?_⟩
  obtain ⟨hend, hsame⟩ := counted_runs hcounted calls
  rw [pmmFreeFramesCount_eq_iff hend (hsame ▸ hlt), hsame, htotal]

end Boot

def oneEntry (baseAddr length : ℕ) : ℕ → UInt8 :=
  putLE 4 8 6 <| putLE 4 12 40 <| putLE 4 16 24 <| putLE 8 24 baseAddr <| putLE 8 32 length <| putLE 4 40 1 fun _ => 0

/-- A machine with four gigabytes of memory and no gap in it. -/
theorem pmmFreeFramesCount_truthful_iff_full : ∃ st,
    pmmInit 0x200000 0xFFFFFFFF80180000 (oneEntry 0 0x100000000) 41 = some st ∧
      ∀ calls : List PmmCall, pmmFreeFramesCount (calls.foldl PmmCall.run st) =
        (clearFrames (calls.foldl PmmCall.run st).pmm).card := by
  have hfind : multibootFindTag (oneEntry 0 0x100000000) 6 41 = some (some 8) := by decide +kernel
  have hlim : BelowLimit (oneEntry 0 0x100000000) 8 := by unfold BelowLimit; decide +kernel
  obtain ⟨st, hinit, hiff⟩ := pmmFreeFramesCount_truthful_iff hfind (by decide +kernel) (by decide +kernel) hlim 0x200000
    0xFFFFFFFF80180000
  exact ⟨st, hinit, fun calls => (hiff calls).mpr (by decide +kernel)⟩

/-- A machine with 128 megabytes reports a wrong number of free frames right after boot. -/
theorem exists_free_count_wrong : BelowLimit (oneEntry 0x100000 0x7F00000) 8 ∧ ∃ st,
    pmmInit 0x200000 0xFFFFFFFF80180000 (oneEntry 0x100000 0x7F00000) 41 = some st ∧
      pmmFreeFramesCount st ≠ (clearFrames st.pmm).card := by
  have hlim : BelowLimit (oneEntry 0x100000 0x7F00000) 8 := by unfold BelowLimit; decide +kernel
  have hfind : multibootFindTag (oneEntry 0x100000 0x7F00000) 6 41 = some (some 8) := by decide +kernel
  obtain ⟨st, hinit, hcounted, htotal, hlt⟩ := pmmInit_counted hfind (by decide +kernel) (by decide +kernel) hlim 0x200000
    0xFFFFFFFF80180000
  refine ⟨hlim, st, hinit, fun heq => ?_⟩
  rw [pmmFreeFramesCount_eq_iff hcounted hlt, htotal] at heq
  revert heq
  decide +kernel

end

end AetherOs.Paging
