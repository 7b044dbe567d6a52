import AetherOs.Base.Run
import AetherOs.Heap.Alloc
import AetherOs.Heap.Free

/-! # Runs of the heap allocator -/

namespace AetherOs.Heap

open Base Option

structure HeapConfig where
  heap : HeapState
  live : List ℕ

inductive HeapCall
  | kmalloc (frames : ℕ → Bool) (size : ℕ)
  | kfree (ptr : ℕ)

def HeapCall.exec (fuel : ℕ) (s : HeapConfig) : HeapCall → Option HeapConfig
  | .kmalloc frames size =>
    match Heap.kmalloc frames fuel s.heap size with
    | some (.ok (ptr, h)) => some ⟨h, if ptr = 0 then s.live else ptr :: s.live⟩
    | _ => none
  | .kfree ptr =>
    if ptr ∈ s.live then
      match Heap.kfree fuel s.heap ptr with
      | some (.ok h) => some ⟨h, s.live.erase ptr⟩
      | _ => none
    else none

open HeapCall

def HeapStep (s : HeapConfig) (c : HeapCall) (s' : HeapConfig) : Prop :=
  ∃ fuel, c.exec fuel s = some s'

def bootConfig (frames : ℕ → Bool) (mem : ℕ → HeapBlock) (start size : ℕ) : HeapConfig :=
  ⟨heapInit frames mem start size, []⟩

def HeapIntact (s : HeapConfig) : Prop :=
  ∃ blocks frees,
    Tiles s.heap.mem s.heap.heapStartAddr blocks s.heap.heapCurrent ∧
    Chain (fun b => (s.heap.mem b).next) 0 s.heap.freeList frees ∧ frees.Nodup ∧
    (∀ b, b ∈ frees ↔ b ∈ blocks ∧ (s.heap.mem b).isFree = true) ∧
    (∀ p ∈ s.live, ∃ b ∈ blocks, p = b + hdrSize ∧ (s.heap.mem b).isFree = false) ∧
    (s.live.Pairwise fun p q => p + (s.heap.mem (ptrToBlock p)).size ≤ q ∨
      q + (s.heap.mem (ptrToBlock q)).size ≤ p) ∧
    ∀ b ∈ blocks, b ∈ frees ∨ b + hdrSize ∈ s.live

def InOrder (s : HeapConfig) : HeapCall → Prop
  | .kmalloc _ size => RequestFits s.heap size
  | .kfree ptr => FreesInOrder s.heap ptr

structure Held (s : HeapConfig) (blocks frees : List ℕ) : Prop where
  layout : Layout s.heap.mem s.heap.heapStartAddr s.heap.heapCurrent s.heap.freeList blocks frees
  current_le : s.heap.heapCurrent ≤ s.heap.heapEndAddr
  nodup : s.live.Nodup
  mem_live : ∀ p, p ∈ s.live ↔ ∃ b, p = b + hdrSize ∧ Used s.heap.mem blocks b

variable {s s' : HeapConfig} {blocks frees : List ℕ}

theorem held_bootConfig (frames : ℕ → Bool) (mem : ℕ → HeapBlock) {start size : ℕ}
    (hstart : 0 < start) (hsize : start + max size (1024 * 1024 + pageSize) < wordSize) :
    ∃ blocks frees, Held (bootConfig frames mem start size) blocks frees := by
  let h : HeapState := ⟨start, addWord start size, start, 0, 0, mem⟩
  have hl : Layout h.mem h.heapStartAddr h.heapCurrent h.freeList [] [] :=
    ⟨hstart, by simp only [h]; omega, rfl, .nil, by simp, by simp⟩
  have hend : h.heapCurrent ≤ h.heapEndAddr := by
    simp only [h, addWord_eq (show start + size < wordSize by omega)]
    omega
  have hfirst : roundUp (1024 * 1024 + hdrSize) pageSize = 1024 * 1024 + pageSize := by decide
  have hfit : start + roundUp (1024 * 1024 + hdrSize) pageSize < wordSize := by omega
  rcases expandHeap_layout frames (1024 * 1024) hl hfit with hfail | ⟨h', hgrow, hgrown, _⟩
  · have hboot : bootConfig frames mem start size = ⟨h, []⟩ := by
      simp only [bootConfig, heapInit, h, hfail, getD_none]
    rw [hboot]
    exact ⟨[], [], hl, hend, .nil, by simp [Used]⟩
  · have hboot : bootConfig frames mem start size = ⟨h', []⟩ := by
      simp only [bootConfig, heapInit, h, hgrow, getD_some]
    rw [hboot]
    refine ⟨_, _, hgrown.layout, ?_, .nil, fun p => ?_⟩
    · rw [hgrown.end_eq]
      exact hgrown.current_le
    · simp only [List.not_mem_nil, false_iff, hgrown.used]
      simp [Used]

section

variable (hs : Held s blocks frees)
include hs

theorem Held.ptrToBlock_eq {b : ℕ} (hb : b ∈ blocks) : ptrToBlock (b + hdrSize) = b := by
  have hlt := hs.layout.blockEnd_lt hb
  simp only [blockEnd] at hlt
  rw [ptrToBlock, subWord_eq (by omega) (by omega)]
  omega

theorem Held.disjoint :
    s.live.Pairwise fun p q => p + (s.heap.mem (ptrToBlock p)).size ≤ q ∨
      q + (s.heap.mem (ptrToBlock q)).size ≤ p := by
  refine hs.nodup.imp_of_mem fun {p q} hp hq hne => ?_
  obtain ⟨b, rfl, hb, _⟩ := (hs.mem_live p).mp hp
  obtain ⟨c, rfl, hc, _⟩ := (hs.mem_live q).mp hq
  rw [hs.ptrToBlock_eq hb, hs.ptrToBlock_eq hc]
  have := hs.layout.tiles.disjoint hb hc fun heq => hne (by rw [heq])
  simp only [blockEnd] at this
  omega

theorem Held.intact : HeapIntact s := by
  refine ⟨blocks, frees, hs.layout.tiles, hs.layout.chain, hs.layout.chain.nodup,
    hs.layout.mem_frees, fun p hp => ?_, hs.disjoint, fun b hb => ?_⟩
  · obtain ⟨b, hp, hb, hfree⟩ := (hs.mem_live p).mp hp
    exact ⟨b, hb, hp, hfree⟩
  · cases hfree : (s.heap.mem b).isFree with
    | true => exact .inl ((hs.layout.mem_frees b).mpr ⟨hb, hfree⟩)
    | false => exact .inr ((hs.mem_live _).mpr ⟨b, rfl, hb, hfree⟩)

theorem held_step {c : HeapCall} (hok : InOrder s c)
    (hstep : HeapStep s c s') : ∃ blocks' frees', Held s' blocks' frees' := by
  obtain ⟨fuel, hexec⟩ := hstep
  cases c with
  | kmalloc frames size =>
    rcases kmalloc_layout frames fuel hs.layout hs.current_le hok with
      ⟨hnone, _⟩ | hnull | ⟨h', b, hret, halloc⟩
    · simp [exec, hnone] at hexec
    · simp only [exec, hnull, if_true, some.injEq] at hexec
      subst hexec
      exact ⟨blocks, frees, hs⟩
    · have hne : b + hdrSize ≠ 0 := by simp [hdrSize]
      simp only [exec, hret, if_neg hne, some.injEq] at hexec
      subst hexec
      obtain ⟨blocks', frees', hlayout, hused⟩ := halloc.layout
      refine ⟨blocks', frees', hlayout, halloc.current_le, ?_, fun p => ?_⟩
      · refine List.nodup_cons.mpr ⟨fun hp => ?_, hs.nodup⟩
        obtain ⟨c, hc, hcused⟩ := (hs.mem_live _).mp hp
        obtain rfl : b = c := Nat.add_right_cancel hc
        exact halloc.fresh hcused
      · simp only [List.mem_cons, hs.mem_live, hused]
        constructor
        · rintro (rfl | ⟨c, rfl, hc⟩)
          · exact ⟨b, rfl, .inr rfl⟩
          · exact ⟨c, rfl, .inl hc⟩
        · rintro ⟨c, rfl, hc | rfl⟩
          · exact .inr ⟨c, rfl, hc⟩
          · exact .inl rfl
  | kfree ptr =>
    by_cases hlive : ptr ∈ s.live
    · obtain ⟨b, rfl, hb⟩ := (hs.mem_live ptr).mp hlive
      rcases kfree_layout fuel hs.layout hb hok with ⟨hnone, _⟩ |
        ⟨h', blocks', frees', hret, _, hlimit, hcur, hlayout, hused⟩
      · simp [exec, hnone] at hexec
      · simp only [exec, if_pos hlive, hret, some.injEq] at hexec
        subst hexec
        refine ⟨blocks', frees', hlayout, ?_, hs.nodup.erase _, fun p => ?_⟩
        · rw [hcur, hlimit]
          exact hs.current_le
        · simp only [hs.nodup.mem_erase_iff, hs.mem_live, hused]
          constructor
          · rintro ⟨hne, c, rfl, hc⟩
            exact ⟨c, rfl, hc, fun heq => hne (by rw [heq])⟩
          · rintro ⟨c, rfl, hc, hne⟩
            exact ⟨fun heq => hne (Nat.add_right_cancel heq), c, rfl, hc⟩
    · simp [exec, hlive] at hexec

end

theorem kmalloc_returns {h : HeapState} {size : ℕ} (frames : ℕ → Bool)
    (hl : Layout h.mem h.heapStartAddr h.heapCurrent h.freeList blocks frees)
    (hend : h.heapCurrent ≤ h.heapEndAddr) (hfit : RequestFits h size) :
    (∃ fuel q, kmalloc frames fuel h size = some q) ∧
      ∀ fuel q, kmalloc frames fuel h size = some q → ∃ res, q = .ok res := by
  refine ⟨⟨frees.length + 2, ?_⟩, fun fuel q hq => ?_⟩
  · rcases kmalloc_layout frames (frees.length + 2) hl hend hfit with
      ⟨_, hfuel⟩ | hnull | ⟨_, _, hret, _⟩
    · omega
    · exact ⟨_, hnull⟩
    · exact ⟨_, hret⟩
  · rcases kmalloc_layout frames fuel hl hend hfit with ⟨hnone, _⟩ | hnull | ⟨_, _, hret, _⟩
    · rw [hnone] at hq
      cases hq
    · rw [hnull] at hq
      exact ⟨_, (some.inj hq).symm⟩
    · rw [hret] at hq
      exact ⟨_, (some.inj hq).symm⟩

theorem held_run (frames : ℕ → Bool) (mem : ℕ → HeapBlock) {start size : ℕ} (hstart : 0 < start)
    (hsize : start + max size (1024 * 1024 + pageSize) < wordSize) {calls : List HeapCall}
    (hrun : Run (guarded InOrder HeapStep) (bootConfig frames mem start size) calls s) :
    ∃ blocks frees, Held s blocks frees :=
  hrun.invariant (I := fun s => ∃ blocks frees, Held s blocks frees)
    (fun _ _ _ ⟨_, _, hs⟩ hstep => held_step hs hstep.1 hstep.2)
    (held_bootConfig frames mem hstart hsize)

def kernelHeap : HeapConfig :=
  bootConfig (fun _ => true) (fun _ => ⟨0, 0, 0, 0⟩) 0xFFFFFE0000000000 (64 * 1024 * 1024)

def alloc16 : HeapCall := .kmalloc (fun _ => true) 16

def kernelRun (calls : List HeapCall) : HeapConfig :=
  (calls.foldlM (exec 4) kernelHeap).getD kernelHeap

theorem run_kernelRun {calls : List HeapCall}
    (h : (calls.foldlM (exec 4) kernelHeap).isSome) :
    Run HeapStep kernelHeap calls (kernelRun calls) := by
  obtain ⟨s, hs⟩ := isSome_iff_exists.mp h
  rw [kernelRun, hs]
  exact .of_foldlM (fun _ _ _ hexec => ⟨4, hexec⟩) hs

theorem heapStep_kernelRun (calls : List HeapCall) {c : HeapCall}
    (h : ((calls ++ [c]).foldlM (exec 4) kernelHeap).isSome) :
    HeapStep (kernelRun calls) c (kernelRun (calls ++ [c])) := by
  obtain ⟨s, hs⟩ := isSome_iff_exists.mp h
  refine ⟨4, ?_⟩
  rw [kernelRun, kernelRun, hs]
  rw [List.foldlM_append] at hs
  obtain ⟨mid, hmid, hlast⟩ := bind_eq_some_iff.mp hs
  rw [hmid]
  simpa using hlast

theorem run_secondFreed : Run (guarded InOrder HeapStep) kernelHeap
    [alloc16, alloc16, .kfree 0xFFFFFE0000000050]
    (kernelRun [alloc16, alloc16, .kfree 0xFFFFFE0000000050]) := by
  refine .cons ⟨?_, heapStep_kernelRun [] (by decide +kernel)⟩
    (.cons ⟨?_, heapStep_kernelRun [alloc16] (by decide +kernel)⟩
      (.cons ⟨?_, heapStep_kernelRun [alloc16, alloc16] (by decide +kernel)⟩ (.nil _)))
  · change RequestFits (kernelRun []).heap 16
    decide +kernel
  · change RequestFits (kernelRun [alloc16]).heap 16
    decide +kernel
  · exact ⟨[0xFFFFFE0000000060], by decide +kernel, .inr ⟨fun _ => by decide +kernel,
      .inl (by decide +kernel)⟩⟩

/-- Every run of admissible calls from `heap_init` ends in an intact heap, also when
mapping a page fails. -/
theorem heapIntact_of_inOrder (frames : ℕ → Bool) (mem : ℕ → HeapBlock) {start size : ℕ}
    (hstart : 0 < start) (hsize : start + max size (1024 * 1024 + pageSize) < wordSize)
    {calls : List HeapCall} {s : HeapConfig}
    (hrun : Run (guarded InOrder HeapStep) (bootConfig frames mem start size) calls s) :
    HeapIntact s := by
  obtain ⟨_, _, hs⟩ := held_run frames mem hstart hsize hrun
  exact hs.intact

/-- The second of two allocations is released and the heap stays intact. -/
theorem heapIntact_secondFreed : HeapIntact (kernelRun [alloc16, alloc16, .kfree 0xFFFFFE0000000050]) :=
  heapIntact_of_inOrder (fun _ => true) (fun _ => ⟨0, 0, 0, 0⟩) (by decide) (by decide) run_secondFreed

def scatteredFrees : List HeapCall :=
  [alloc16, alloc16, alloc16, alloc16, alloc16, .kfree 0xFFFFFE0000000050,
    .kfree 0xFFFFFE00000000B0, .kfree 0xFFFFFE0000000020]

/-- The third release makes the first block absorb the second and take over its link, which
skips the fourth: that block is free and no longer on the list. -/
theorem not_heapIntact_scatteredFrees :
    Run HeapStep kernelHeap scatteredFrees (kernelRun scatteredFrees) ∧
    ¬ HeapIntact (kernelRun scatteredFrees) := by
  set s := kernelRun scatteredFrees
  refine ⟨run_kernelRun (by decide +kernel), ?_⟩
  rintro ⟨blocks, frees, htiles, hchain, _, hmem, _⟩
  have hlist : Chain (fun b => (s.heap.mem b).next) 0
      s.heap.freeList [0xFFFFFE0000000000, 0xFFFFFE00000000F0] := by
    decide +kernel
  have hblocks : Tiles s.heap.mem s.heap.heapStartAddr
      [0xFFFFFE0000000000, 0xFFFFFE0000000060, 0xFFFFFE0000000090, 0xFFFFFE00000000C0, 0xFFFFFE00000000F0]
      s.heap.heapCurrent := by
    decide +kernel
  have hfree : (s.heap.mem 0xFFFFFE0000000090).isFree := by decide +kernel
  rw [hchain.unique hlist, htiles.unique hblocks] at hmem
  have := (hmem 0xFFFFFE0000000090).mpr ⟨by simp, hfree⟩
  simp at this

/-- After admissible calls, an admissible release returns, and so does a request after it;
neither panics. -/
theorem kfree_returns_of_inOrder (frames : ℕ → Bool) (mem : ℕ → HeapBlock) {start size : ℕ}
    (hstart : 0 < start) (hsize : start + max size (1024 * 1024 + pageSize) < wordSize)
    {calls : List HeapCall} {s : HeapConfig}
    (hrun : Run (guarded InOrder HeapStep) (bootConfig frames mem start size) calls s)
    {ptr : ℕ} (hlive : ptr ∈ s.live) (hord : FreesInOrder s.heap ptr) :
    (∃ fuel r, kfree fuel s.heap ptr = some r) ∧
      ∀ fuel r, kfree fuel s.heap ptr = some r → ∃ h, r = .ok h ∧
        ∀ frames' size', RequestFits h size' →
          (∃ fuel' q, kmalloc frames' fuel' h size' = some q) ∧
            ∀ fuel' q, kmalloc frames' fuel' h size' = some q → ∃ res, q = .ok res := by
  obtain ⟨blocks, frees, hs⟩ := held_run frames mem hstart hsize hrun
  obtain ⟨b, rfl, hb⟩ := (hs.mem_live ptr).mp hlive
  refine ⟨?_, fun fuel r hr => ?_⟩
  · rcases kfree_layout (frees.length + 1) hs.layout hb hord with ⟨_, hfuel⟩ | ⟨h, _, _, hret, _⟩
    · omega
    · exact ⟨_, _, hret⟩
  · rcases kfree_layout fuel hs.layout hb hord with ⟨hnone, _⟩ |
      ⟨h, blocks', frees', hret, _, hlimit, hcur, hlayout, _⟩
    · rw [hnone] at hr
      cases hr
    · rw [hret] at hr
      obtain rfl := some.inj hr
      have hend : h.heapCurrent ≤ h.heapEndAddr := by
        rw [hcur, hlimit]
        exact hs.current_le
      exact ⟨h, rfl, fun frames' size' hfit => kmalloc_returns frames' hlayout hend hfit⟩

/-- The first block can then be released as well. -/
theorem kfree_returns_secondFreed :
    ∃ fuel r, kfree fuel (kernelRun [alloc16, alloc16, .kfree 0xFFFFFE0000000050]).heap
      0xFFFFFE0000000020 = some r :=
  (kfree_returns_of_inOrder (fun _ => true) (fun _ => ⟨0, 0, 0, 0⟩) (by decide) (by decide)
    run_secondFreed (by decide +kernel) ⟨[0xFFFFFE0000000030], by decide +kernel,
      .inr ⟨fun _ => by decide +kernel, .inl (by decide +kernel)⟩⟩).1

theorem coalesce_eq_none_of_step {mem : ℕ → HeapBlock} {curr : ℕ} (hne : curr ≠ 0)
    (hlast : (mem curr).isLast = false)
    (hstep : ∀ fuel, (if mergeable mem curr then coalesce fuel (mergeNext mem curr) curr
      else coalesce fuel mem (mem curr).next) = none) (fuel : ℕ) : coalesce fuel mem curr = none := by
  cases fuel with
  | zero => simp [coalesce, hne, hlast]
  | succ fuel =>
    rw [coalesce.eq_def, if_neg (by simp [hne, hlast])]
    exact hstep fuel

theorem coalesce_eq_none_of_self_link {mem : ℕ → HeapBlock} {curr : ℕ} (hne : curr ≠ 0)
    (hlast : (mem curr).isLast = false) (hmerge : mergeable mem curr = false)
    (hnext : (mem curr).next = curr) (fuel : ℕ) : coalesce fuel mem curr = none := by
  induction fuel with
  | zero => simp [coalesce, hne, hlast]
  | succ fuel ih => simp [coalesce, hne, hlast, hmerge, hnext, ih]

def firstFreed : List HeapCall := [alloc16, alloc16, alloc16, .kfree 0xFFFFFE0000000020]

/-- The release of the second block makes the first absorb it and take over its link, which
points back to the first: the pass visits that block forever. -/
theorem kfree_loops_firstFreed :
    Run HeapStep kernelHeap firstFreed (kernelRun firstFreed) ∧
    0xFFFFFE0000000050 ∈ (kernelRun firstFreed).live ∧
    ∀ fuel, kfree fuel (kernelRun firstFreed).heap 0xFFFFFE0000000050 = none := by
  refine ⟨run_kernelRun (by decide +kernel), by decide +kernel, fun fuel => ?_⟩
  have hblock : ptrToBlock 0xFFFFFE0000000050 = 0xFFFFFE0000000030 := by decide +kernel
  rw [kfree, if_neg (by decide), hblock, if_neg (by decide +kernel), if_neg (by decide +kernel),
    map_eq_none_iff]
  refine coalesce_eq_none_of_step (by decide) (by decide +kernel) (fun fuel => ?_) fuel
  rw [if_neg (by decide +kernel), show (_ : HeapBlock).next = 0xFFFFFE0000000000 by decide +kernel]
  refine coalesce_eq_none_of_step (by decide) (by decide +kernel) (fun fuel => ?_) fuel
  rw [if_pos (by decide +kernel)]
  exact coalesce_eq_none_of_self_link (by decide) (by decide +kernel) (by decide +kernel)
    (by decide +kernel) fuel

end AetherOs.Heap
