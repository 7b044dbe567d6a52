import AetherOs.Base.Run
import AetherOs.Shm.Regions

/-! # Regions outlive their mappings -/

namespace AetherOs.Shm

open Base Base.Radix Paging Function Option

variable {k k' : ShmKernel} {kernel : Set ℕ} {j p q d : ℕ} {s : Machine} {t task : Task}

/-! ## Another process in a slot -/

theorem stackFrame_setTask {o : Option Task} : StackFrame ((k.setTask q o).withMachine s) p j d ↔
    if p = q then q < maxProcesses ∧ j < kstackFrames ∧ ∃ t, o = some t ∧ t.kernelStack ≠ 0 ∧ t.stackFrame j = d
    else StackFrame k p j d := by
  by_cases hpq : p = q
  · subst hpq
    simp [StackFrame, ShmKernel.setTask, ShmKernel.withMachine]
  · simp [StackFrame, ShmKernel.setTask, ShmKernel.withMachine, hpq]

theorem mem_reserved_setTask {o : Option Task} : d ∈ reserved ((k.setTask q o).withMachine s) ↔
    (∃ a i, RegionFrame k a i d) ∨ (∃ p j, p ≠ q ∧ StackFrame k p j d) ∨
      (q < maxProcesses ∧ ∃ j < kstackFrames, ∃ t, o = some t ∧ t.kernelStack ≠ 0 ∧ t.stackFrame j = d) := by
  refine or_congr Iff.rfl ⟨?_, ?_⟩
  · rintro ⟨p, j, hd⟩
    rw [stackFrame_setTask] at hd
    split_ifs at hd with hpq
    · exact .inr ⟨hd.1, j, hd.2⟩
    · exact .inl ⟨p, j, hpq, hd⟩
  · rintro (⟨p, j, hpq, hd⟩ | ⟨hq, j, hd⟩)
    · exact ⟨p, j, stackFrame_setTask.mpr (by rw [if_neg hpq]; exact hd)⟩
    · exact ⟨q, j, stackFrame_setTask.mpr (by rw [if_pos rfl]; exact ⟨hq, hd⟩)⟩

theorem reserved_setTask_some (hq : q < maxProcesses) (hnone : k.processTable q = none) :
    reserved ((k.setTask q (some t)).withMachine s) =
      reserved k ∪ {d | t.kernelStack ≠ 0 ∧ ∃ j < kstackFrames, t.stackFrame j = d} := by
  ext d
  rw [mem_reserved_setTask]
  constructor
  · rintro (hd | ⟨p, j, -, hd⟩ | ⟨-, j, hj, u, hu, hne, hd⟩)
    · exact .inl (.inl hd)
    · exact .inl (.inr ⟨p, j, hd⟩)
    · obtain rfl := some.inj hu
      exact .inr ⟨hne, j, hj, hd⟩
  · rintro ((hd | ⟨p, j, hd⟩) | ⟨hne, j, hj, hd⟩)
    · exact .inl hd
    · refine .inr (.inl ⟨p, j, ?_, hd⟩)
      rintro rfl
      obtain ⟨-, -, u, hu, -⟩ := hd
      rw [hnone] at hu
      cases hu
    · exact .inr (.inr ⟨hq, j, hj, t, rfl, hne, hd⟩)

structure Admits (k : ShmKernel) (q : ℕ) (t : Task) : Prop where
  stack : t.kernelStack ≠ 0 → ∃ f, f + kstackFrames ≤ maxFrames ∧ t.kernelStack = physToVirt (f * pageSize)
  no_region : t.kernelStack ≠ 0 → ∀ j < kstackFrames, ∀ a i, ¬ RegionFrame k a i (t.stackFrame j)
  no_stack : t.kernelStack ≠ 0 → ∀ j < kstackFrames, ∀ p i, p ≠ q → ¬ StackFrame k p i (t.stackFrame j)
  space : t.addressSpace ≠ k.machine.kernelPml4 → ∀ p < maxProcesses, p ≠ q → ∀ u, k.processTable p = some u →
    u.addressSpace ≠ t.addressSpace

theorem takeRun {live : Finset ℕ} {reserved : Set ℕ} {home : ℕ → ℕ → Prop} {root f count : ℕ}
    (h : ReservedState s root live kernel reserved home) (hfree : RunFree s.pmm f count) (hend : f + count ≤ maxFrames) :
    ReservedState { s with pmm := takeFrames f count s.pmm } root live kernel reserved home := by
  refine (h.of_frames { s with pmm := takeFrames f count s.pmm } (fun _ _ => rfl) rfl (fun g hg => ?_) fun g hg => ?_).1
  · exact fun hg' => hg (free_takeFrames.mp hg').1
  · rw [refcounts_takeFrames, if_neg]
    rintro ⟨hlo, hhi⟩
    exact hg ⟨by omega, hfree g hlo hhi⟩

theorem reserveRun {live : Finset ℕ} {reserved fresh : Set ℕ} {home : ℕ → ℕ → Prop} {root f count : ℕ}
    (h : ReservedState s root live kernel reserved home) (hfree : RunFree s.pmm f count) (hend : f + count ≤ maxFrames)
    (hfresh : ∀ d ∈ fresh, ∃ j < count, f + j = d) :
    ReservedState { s with pmm := takeFrames f count s.pmm } root live kernel (reserved ∪ fresh) home := by
  have hrun {d : ℕ} (hd : d ∈ fresh) : f ≤ d ∧ d < f + count ∧ Free s.pmm d := by
    obtain ⟨j, hj, rfl⟩ := hfresh d hd
    exact ⟨by omega, by omega, by omega, hfree _ (by omega) (by omega)⟩
  refine (takeRun h hfree hend).reserve _ (fun d hd => ?_) (fun d hd => ?_) fun d hd r hr n hn => ?_
  · obtain ⟨hlo, hhi, hd⟩ := hrun hd
    refine ⟨hd.1, fun hfree => (free_takeFrames.mp hfree).2 ⟨hlo, hhi⟩, ?_⟩
    have hone : (takeFrames f count s.pmm).refcounts d = 1 := by rw [refcounts_takeFrames, if_pos ⟨hlo, hhi⟩]
    exact (congrArg BitVec.toNat hone).ge
  · obtain ⟨-, -, hd⟩ := hrun hd
    exact ⟨fun ht => h.spaces.tables.kept d ht hd, fun hmem => h.spaces.tables.shared_kept d hmem hd⟩
  · exact (h.held r hr n d hn).2 (hrun hd).2.2

def SafeExit (k : ShmKernel) (t : Task) : Prop :=
  ∀ a < shmMaxRegions, (k.shmTable a).valid = true → ∀ i < (k.shmTable a).numPages,
    frameOf k.machine t.addressSpace (shmPage + i) = some ((k.shmTable a).frame i) →
      2 ≤ refs k.machine ((k.shmTable a).frame i)

instance (k : ShmKernel) (t : Task) : Decidable (SafeExit k t) := inferInstanceAs (Decidable (∀ _ < _, _))

/-! ## Runs -/

def Safe (k : ShmKernel) : ℕ × Call → Prop
  | (p, .exit) => ∀ t ∈ k.processTable p, t.addressSpace ≠ k.machine.kernelPml4 → SafeExit k t
  | (p, .shmUnmap v) => ∀ t ∈ k.processTable p, ∀ a ∈ regionAt t.addressSpace v k,
      (k.shmTable a).refcount = 0 ∨ (k.shmTable a).refcount = 1 → ReleasableBy k a t.addressSpace v
  | (_, .shmClose a) => a < shmMaxRegions → (k.shmTable a).valid = true → (k.shmTable a).refcount ≤ 1 → Releasable k a
  | _ => True

instance (k : ShmKernel) : DecidablePred (Safe k)
  | (_, .exit) => inferInstanceAs (Decidable (∀ _ ∈ _, _))
  | (_, .shmUnmap _) => inferInstanceAs (Decidable (∀ _ ∈ _, ∀ _ ∈ _, _))
  | (_, .shmClose _) => inferInstanceAs (Decidable (_ → _ → _ → _))
  | (_, .shmOpen _ _) => inferInstanceAs (Decidable True)
  | (_, .shmMap _ _) => inferInstanceAs (Decidable True)
  | (_, .fork) => inferInstanceAs (Decidable True)

def Outlives (k : ShmKernel) : Prop :=
  ∀ a < shmMaxRegions, (k.shmTable a).valid = true → ∀ i < (k.shmTable a).numPages,
    pmmTestBit k.machine.pmm ((k.shmTable a).frame i) = true ∧
      ((pmmAllocFrame k.machine.pmm).1 = (k.shmTable a).physPages i → (pmmAllocFrame k.machine.pmm).1 = 0)

instance (k : ShmKernel) : Decidable (Outlives k) := inferInstanceAs (Decidable (∀ _ < _, _))

section

variable (h : Sound kernel k)
include h

theorem Sound.setTask {o : Option Task} (hidle : q ≠ k.idleProc) (hadmits : ∀ t, o = some t → Admits k q t)
    (hstate : ReservedState s k.machine.kernelPml4 (liveSpaces ((k.setTask q o).withMachine s)) kernel
      (reserved ((k.setTask q o).withMachine s)) (home k)) :
    Sound kernel ((k.setTask q o).withMachine s) := by
  have hroot : s.kernelPml4 = k.machine.kernelPml4 := hstate.root_eq
  have hslot {p : ℕ} (hp : p ≠ q) : ((k.setTask q o).withMachine s).processTable p = k.processTable p :=
    update_of_ne hp _ _
  have hself : ((k.setTask q o).withMachine s).processTable q = o := update_self _ _ _
  refine ⟨?_, h.pages_pos, h.pages_le, h.aligned, h.regions_apart, fun p hp t ht => ?_, fun p i q' j d hd hd' => ?_,
    fun a i p j d hd hd' => ?_, fun p hp q' hq' t u ht hu heq huser => ?_, h.idle_lt, ?_⟩
  · exact hroot.symm ▸ hstate
  · by_cases hpq : p = q
    · rw [hpq, hself] at ht
      exact (hadmits t ht).stack
    · rw [hslot hpq] at ht
      exact h.stack_eq p hp t ht
  · rw [stackFrame_setTask] at hd hd'
    split at hd <;> split at hd'
    · rename_i hp hq'
      exact hp.trans hq'.symm
    · rename_i hq'
      obtain ⟨-, hi, t, rfl, hne, rfl⟩ := hd
      exact absurd hd' ((hadmits t rfl).no_stack hne i hi q' j hq')
    · rename_i hp _
      obtain ⟨-, hj, t, rfl, hne, rfl⟩ := hd'
      exact absurd hd ((hadmits t rfl).no_stack hne j hj p i hp)
    · exact h.stacks_apart p i q' j d hd hd'
  · rw [stackFrame_setTask] at hd'
    split at hd'
    · obtain ⟨-, hj, t, rfl, hne, rfl⟩ := hd'
      exact (hadmits t rfl).no_region hne j hj a i hd
    · exact h.apart a i p j d hd hd'
  · change t.addressSpace ≠ s.kernelPml4 at huser
    rw [hroot] at huser
    by_cases hpq : p = q <;> by_cases hqq : q' = q
    · exact hpq.trans hqq.symm
    · rw [hpq, hself] at ht
      rw [hslot hqq] at hu
      exact absurd heq.symm ((hadmits t ht).space huser q' hq' hqq u hu)
    · rw [hqq, hself] at hu
      rw [hslot hpq] at ht
      exact absurd heq ((hadmits u hu).space (heq ▸ huser) p hp hpq t ht)
    · rw [hslot hpq] at ht
      rw [hslot hqq] at hu
      exact h.spaces_apart p hp q' hq' t u ht hu heq huser
  · obtain ⟨t, ht, hkernel⟩ := h.idle
    exact ⟨t, (hslot hidle.symm).trans ht, hkernel.trans hroot.symm⟩

/-! ## Fork and exit -/

omit h in
theorem mem_liveSpaces_setTask {o : Option Task} {r : ℕ} (hroot : s.kernelPml4 = k.machine.kernelPml4) :
    r ∈ liveSpaces ((k.setTask q o).withMachine s) ↔
      (q < maxProcesses ∧ ∃ u, o = some u ∧ u.addressSpace ≠ k.machine.kernelPml4 ∧ u.addressSpace = r) ∨
      ∃ p < maxProcesses, p ≠ q ∧
        ∃ u, k.processTable p = some u ∧ u.addressSpace ≠ k.machine.kernelPml4 ∧ u.addressSpace = r := by
  have hslot {p : ℕ} (hp : p ≠ q) : ((k.setTask q o).withMachine s).processTable p = k.processTable p :=
    update_of_ne hp _ _
  have hself : ((k.setTask q o).withMachine s).processTable q = o := update_self _ _ _
  rw [mem_liveSpaces, ← hroot]
  constructor
  · rintro ⟨p, hp, u, hu, hspace⟩
    by_cases hpq : p = q
    · subst hpq
      exact .inl ⟨hp, u, hself.symm.trans hu, hspace⟩
    · exact .inr ⟨p, hp, hpq, u, (hslot hpq).symm.trans hu, hspace⟩
  · rintro (⟨hq, u, hu, hspace⟩ | ⟨p, hp, hpq, u, hu, hspace⟩)
    · exact ⟨q, hq, u, hself.trans hu, hspace⟩
    · exact ⟨p, hp, u, (hslot hpq).trans hu, hspace⟩

omit h in
theorem liveSpaces_insert (hq : q < maxProcesses) (hnone : k.processTable q = none)
    (hroot : s.kernelPml4 = k.machine.kernelPml4) (huser : t.addressSpace ≠ k.machine.kernelPml4) :
    liveSpaces ((k.setTask q (some t)).withMachine s) = insert t.addressSpace (liveSpaces k) := by
  ext r
  rw [Finset.mem_insert, mem_liveSpaces_setTask hroot, mem_liveSpaces]
  refine or_congr ⟨?_, ?_⟩ (exists_congr fun p => and_congr_right fun _ => ⟨And.right, fun hu => ⟨?_, hu⟩⟩)
  · rintro ⟨-, u, hu, -, rfl⟩
    exact congrArg Task.addressSpace (some.inj hu).symm
  · rintro rfl
    exact ⟨hq, t, rfl, huser, rfl⟩
  · rintro rfl
    obtain ⟨u, hu, -⟩ := hu
    rw [hnone] at hu
    cases hu

theorem Sound.liveSpaces_erase (hp : p < maxProcesses) (ht : k.processTable p = some t)
    (hroot : s.kernelPml4 = k.machine.kernelPml4) : liveSpaces ((k.setTask p none).withMachine s) =
      if t.addressSpace = k.machine.kernelPml4 then liveSpaces k else (liveSpaces k).erase t.addressSpace := by
  ext r
  rw [mem_liveSpaces_setTask hroot, or_iff_right (by simp)]
  split_ifs with hkernel
  · rw [mem_liveSpaces]
    refine exists_congr fun q => and_congr_right fun _ => ⟨And.right, fun hu => ⟨?_, hu⟩⟩
    rintro rfl
    obtain ⟨u, hu, huser, -⟩ := hu
    rw [ht] at hu
    exact huser (some.inj hu ▸ hkernel)
  · rw [Finset.mem_erase, mem_liveSpaces]
    constructor
    · rintro ⟨q, hq, hqp, u, hu, hne, rfl⟩
      refine ⟨fun heq => hqp ?_, q, hq, u, hu, hne, rfl⟩
      exact h.spaces_apart q hq p hp u t hu ht heq hne
    · rintro ⟨hne, q, hq, u, hu, huser', rfl⟩
      refine ⟨q, hq, ?_, u, hu, huser', rfl⟩
      rintro rfl
      rw [ht] at hu
      exact hne (congrArg Task.addressSpace (some.inj hu)).symm

theorem Sound.processFork (hspace : task.addressSpace ∈ liveSpaces k) :
    Sound kernel (processFork task k).2 := by
  rw [Shm.processFork]
  cases hslot : allocProcessSlot k with
  | none => exact h
  | some q =>
    obtain ⟨-, hq, hnone, -⟩ := search_some hslot
    have hq : q < maxProcesses := by omega
    have hnone : k.processTable q = none := by simpa using hnone
    have hclone := h.state.clone hspace (h.card_lt hq hnone)
    generalize vmmCloneAddressSpace task.addressSpace k.machine = res at hclone ⊢
    obtain ⟨_ | dst, s⟩ := res
    · exact h.withMachine hclone
    · obtain ⟨hdst, hstate, hmany⟩ := hclone
      dsimp only at hstate hmany ⊢
      have hdst' : dst ∈ insert dst (liveSpaces k) := Finset.mem_insert_self _ _
      -- A clone without a stack is destroyed again.
      have hundo {m : Pmm} (hs : ReservedState { s with pmm := m } k.machine.kernelPml4 (insert dst (liveSpaces k)) kernel
          (reserved k) (home k)) (hrefs : ∀ d, ¬ Free s.pmm d → m.refcounts d = s.pmm.refcounts d) :
          Sound kernel (k.withMachine (vmmDestroyAddressSpace dst { s with pmm := m })) := by
        refine h.withMachine ?_
        have hgone := hs.destroy hdst' fun n d hd hmem => by
          have hrefs : refs { s with pmm := m } d = refs s d :=
            congrArg BitVec.toNat (hrefs d (hstate.held dst hdst' n d hd).2)
          exact hrefs.symm ▸ hmany n d hd hmem
        rwa [Finset.erase_insert hdst] at hgone
      rcases pmmAllocFrames_lowest (m := s.pmm) (by decide : 1 ≤ kstackFrames) with ⟨hfail, -⟩ | ⟨f, hfree, hend, -, hrun⟩
      · rw [hfail, if_pos rfl]
        exact hundo hstate fun _ _ => rfl
      · rw [hrun]
        dsimp only
        split
        · refine hundo (takeRun hstate hfree hend) fun d hd => ?_
          rw [refcounts_takeFrames, if_neg]
          rintro ⟨hlo, hhi⟩
          exact hd ⟨by omega, hfree d hlo hhi⟩
        · have hroot : s.kernelPml4 = k.machine.kernelPml4 := hstate.root_eq
          have huser : dst ≠ k.machine.kernelPml4 := by
            intro heq
            refine hstate.spaces.tables.forest.not_shared dst hdst' [] dst .nil (by simp [Owned]) rfl ?_
            rw [heq, ← hroot]
            exact hstate.spaces.kernelHalf.root
          have hrunUsed {j d : ℕ} (hj : j < kstackFrames) (hd : d ∈ reserved k) : f + j ≠ d := by
            rintro rfl
            have hfreeRun : Free s.pmm (f + j) := ⟨by omega, hfree (f + j) (by omega) (by omega)⟩
            exact (hstate.kept (f + j) hd).2.1 hfreeRun
          have hstack (j : ℕ) : Task.stackFrame ⟨dst, physToVirt (f * pageSize)⟩ j = f + j :=
            (stackFrame_physToVirt (t := ⟨dst, physToVirt (f * pageSize)⟩) hend rfl).2
          refine h.setTask ?_ ?_ ?_
          · intro hidle
            obtain ⟨t, ht, -⟩ := h.idle
            rw [← hidle, hnone] at ht
            cases ht
          · intro t ht
            obtain rfl := some.inj ht
            refine ⟨fun _ => ⟨f, hend, rfl⟩, fun _ j hj a i hd => ?_, fun _ j hj p i _ hd => ?_, fun _ p hp hpq u hu heq => ?_⟩
            · rw [hstack] at hd
              exact hrunUsed hj (.inl ⟨a, i, hd⟩) rfl
            · rw [hstack] at hd
              exact hrunUsed hj (.inr ⟨p, i, hd⟩) rfl
            · change u.addressSpace = dst at heq
              exact hdst (heq ▸ space_mem hp hu (heq ▸ huser))
          · rw [liveSpaces_insert (t := ⟨dst, physToVirt (f * pageSize)⟩)
              (s := { s with pmm := takeFrames f kstackFrames s.pmm }) hq hnone hroot huser, reserved_setTask_some hq hnone]
            refine reserveRun hstate hfree hend fun d hd => ?_
            obtain ⟨-, j, hj, hd⟩ := hd
            exact ⟨j, hj, (hstack j).symm.trans hd⟩

theorem Sound.processExit (hp : p < maxProcesses) (ht : k.processTable p = some t)
    (hidle : p ≠ k.idleProc) (hsafe : t.addressSpace ≠ k.machine.kernelPml4 → SafeExit k t) :
    Sound kernel (processExit p t k) := by
  obtain ⟨s, hs, hstate⟩ : ∃ s : Machine, s = (if t.addressSpace ≠ k.machine.kernelPml4 then
      vmmDestroyAddressSpace t.addressSpace k.machine else k.machine) ∧
      ReservedState s k.machine.kernelPml4 (if t.addressSpace = k.machine.kernelPml4 then liveSpaces k
        else (liveSpaces k).erase t.addressSpace) kernel (reserved k) (home k) := by
    refine ⟨_, rfl, ?_⟩
    by_cases huser : t.addressSpace = k.machine.kernelPml4
    · rw [if_neg (not_not.mpr huser), if_pos huser]
      exact h.state
    · rw [if_pos huser, if_neg huser]
      refine h.state.destroy (space_mem hp ht huser) fun n d hd hmem => ?_
      obtain ⟨a, i, hregion, rfl⟩ := h.state.placed _ (space_mem hp ht huser) n d hd hmem
      obtain ⟨ha, hvalid, hi, rfl⟩ := hregion
      exact hsafe huser a ha hvalid i hi hd
  rw [Shm.processExit, ← hs]
  have hroot : s.kernelPml4 = k.machine.kernelPml4 := hstate.root_eq
  have hlive (m : Pmm) := h.liveSpaces_erase (s := { s with pmm := m }) hp ht hroot
  refine h.setTask hidle (fun _ hnone => nomatch hnone) ?_
  -- The frames of its kernel stack, if it has one.
  obtain ⟨frames, hnodup, hown, hpmm⟩ : ∃ frames : List ℕ, frames.Nodup ∧ (∀ d, d ∈ frames ↔ ∃ j, StackFrame k p j d) ∧
      (if t.kernelStack ≠ 0 then pmmFreeFrames (subWord t.kernelStack kernelVmaBase) kstackFrames s.pmm else s.pmm) =
        freeAll frames s.pmm := by
    have hslot {j d : ℕ} : StackFrame k p j d ↔ j < kstackFrames ∧ t.kernelStack ≠ 0 ∧ t.stackFrame j = d := by
      simp [StackFrame, hp, ht]
    by_cases hstack : t.kernelStack = 0
    · exact ⟨[], .nil, by simp [hslot, hstack], if_neg (not_not.mpr hstack)⟩
    · obtain ⟨f, hend, heq⟩ := h.stack_eq p hp t ht hstack
      obtain ⟨haddr, -⟩ := stackFrame_physToVirt (j := 0) hend heq
      refine ⟨List.range' f kstackFrames, List.nodup_range', fun d => ?_, ?_⟩
      · simp only [hslot, (stackFrame_physToVirt hend heq).2, List.mem_range'_1]
        exact ⟨fun hd => ⟨d - f, by omega, hstack, by omega⟩, fun ⟨j, hj, _, hd⟩ => by omega⟩
      · rw [if_pos hstack, haddr, pmmFreeFrames_eq hend]
  have hset : reserved ((k.setTask p none).withMachine { s with pmm := freeAll frames s.pmm }) =
      reserved k \ {d | d ∈ frames} := by
    ext d
    rw [mem_reserved_setTask, Set.mem_sdiff, Set.mem_ofPred_eq, hown]
    constructor
    · rintro (⟨a, i, hd⟩ | ⟨q, j, hqp, hd⟩ | ⟨-, -, -, u, hu, -⟩)
      · exact ⟨.inl ⟨a, i, hd⟩, fun ⟨j, hj⟩ => h.apart a i p j d hd hj⟩
      · exact ⟨.inr ⟨q, j, hd⟩, fun ⟨i, hi⟩ => hqp (h.stacks_apart q j p i d hd hi)⟩
      · cases hu
    · rintro ⟨hd | ⟨q, j, hd⟩, hnot⟩
      · exact .inl hd
      · exact .inr (.inl ⟨q, j, fun hqp => hnot ⟨j, hqp ▸ hd⟩, hd⟩)
  rw [hlive, hpmm, hset]
  refine hstate.release hnodup (fun d hd => ?_) fun d hd r hr n hn => ?_
  · obtain ⟨j, hj⟩ := (hown d).mp hd
    exact .inr ⟨p, j, hj⟩
  · -- No address space maps a frame of a kernel stack.
    obtain ⟨j, hj⟩ := (hown d).mp hd
    obtain ⟨a, i, hregion, -⟩ := hstate.placed r hr n d hn (.inr ⟨p, j, hj⟩)
    exact absurd hj (h.apart a i p j d hregion)

theorem Sound.step {c : ℕ × Call} (hstep : guarded Safe Step k c k') : Sound kernel k' := by
  obtain ⟨hsafe, hstep⟩ := hstep
  cases hstep with
  | @call p task c hp htask hidle huser =>
    have hspace (hc : c ≠ .exit) : task.addressSpace ∈ liveSpaces k := space_mem hp htask (huser.resolve_left hc)
    cases c with
    | shmOpen name size => exact h.sysShmOpen name size
    | shmMap shmId flags => exact h.sysShmMap (hspace (by simp)) shmId flags
    | shmUnmap v => exact h.sysShmUnmap (hspace (by simp)) fun a ha => hsafe task htask a ha
    | shmClose shmId => exact h.sysShmClose hsafe
    | fork => exact h.processFork (hspace (by simp))
    | exit => exact h.processExit hp htask hidle (hsafe task htask)

theorem Sound.outlives : Outlives k := by
  intro a ha hvalid i hi
  have hframe : RegionFrame k a i ((k.shmTable a).frame i) := ⟨ha, hvalid, hi, rfl⟩
  obtain ⟨hlt, hused, -⟩ := h.state.kept _ (.inl ⟨a, i, hframe⟩)
  refine ⟨?_, fun heq => ?_⟩
  · by_contra hclear
    exact hused ⟨hlt, Bool.eq_false_of_not_eq_true hclear⟩
  · rcases pmmAllocFrame_cases k.machine.pmm with hnone | ⟨f, hf, hsome⟩
    · exact congrArg Prod.fst hnone
    · rw [hsome, h.aligned a i _ hframe] at heq
      exact absurd (Nat.eq_of_mul_eq_mul_right (by decide) heq ▸ hf) hused

end

def oneProcess : ShmKernel where
  machine := (vmmCreateAddressSpace bareMachine).2
  shmTable := fun _ => .zero
  processTable := fun p => if p = 0 then some ⟨1, 0⟩ else if p = 1 then some ⟨2, 0⟩ else none
  idleProc := 0

theorem sound_oneProcess : Sound {1} oneProcess := by
  have hregion (a i d : ℕ) : ¬ RegionFrame oneProcess a i d := fun hd => Bool.false_ne_true hd.2.1
  have hslot {p : ℕ} {t : Task} (ht : oneProcess.processTable p = some t) : p = 0 ∧ t = ⟨1, 0⟩ ∨ p = 1 ∧ t = ⟨2, 0⟩ := by
    simp only [oneProcess] at ht
    split_ifs at ht with h0 h1
    · exact .inl ⟨h0, (some.inj ht).symm⟩
    · exact .inr ⟨h1, (some.inj ht).symm⟩
  have hnull {p : ℕ} {t : Task} (ht : oneProcess.processTable p = some t) : t.kernelStack = 0 := by
    obtain ⟨-, rfl⟩ | ⟨-, rfl⟩ := hslot ht <;> rfl
  have hstack (p j d : ℕ) : ¬ StackFrame oneProcess p j d := fun ⟨_, _, _, ht, hne, _⟩ => hne (hnull ht)
  have hreserved : reserved oneProcess = ∅ := by
    ext d
    simp [reserved, hregion, hstack]
  have hlive : liveSpaces oneProcess = {2} := by decide +kernel
  have hnone : ReservedState bareMachine 1 ∅ {1} ∅ (home oneProcess) := by
    refine ⟨rfl, ?_, ?_, by simp, ⟨?_, ?_⟩, by simp, by simp, by simp⟩
    · simpa using (FreshSpaces.none kernelHalf_bareMachine kept_bareMachine).spaces
    · simp [OwnTable]
    · simp
    · simp
  have htwo : Free bareMachine.pmm 2 := ⟨by decide, by decide⟩
  have hnew := (hnone.newSpace htwo (by decide)).1
  have hcreate : (vmmCreateAddressSpace bareMachine).2 = Paging.newSpace bareMachine 2 :=
    (vmmCreateAddressSpace_eq (kept_bareMachine 1 rfl) (Prod.ext (by decide +kernel) rfl)).2.2
  refine ⟨?_, fun a _ hvalid => (Bool.false_ne_true hvalid).elim, fun a _ hvalid => (Bool.false_ne_true hvalid).elim,
    fun a i d hd => absurd hd (hregion a i d),
    fun a i _ _ d hd => absurd hd (hregion a i d), fun p _ t ht hne => absurd (hnull ht) hne,
    fun p j _ _ d hd => absurd hd (hstack p j d), fun a i _ _ d hd => absurd hd (hregion a i d),
    fun p _ q _ t u ht hu heq _ => ?_, by decide, ⟨⟨1, 0⟩, rfl, rfl⟩⟩
  · rw [hlive, hreserved]
    change ReservedState (vmmCreateAddressSpace bareMachine).2 _ _ _ _ _
    rw [hcreate]
    exact hnew
  · obtain ⟨rfl, rfl⟩ | ⟨rfl, rfl⟩ := hslot ht <;> obtain ⟨rfl, rfl⟩ | ⟨rfl, rfl⟩ := hslot hu <;> first | rfl | cases heq

def exec (k : ShmKernel) (c : ℕ × Call) : Option ShmKernel :=
  (k.processTable c.1).bind fun task =>
    if c.1 < maxProcesses ∧ c.1 ≠ k.idleProc ∧ (c.2 = .exit ∨ task.addressSpace ≠ k.machine.kernelPml4) then
      some (serve c.1 task k c.2)
    else none

theorem step_of_exec {c : ℕ × Call} (h : exec k c = some k') : Step k c k' := by
  obtain ⟨task, htask, h⟩ := bind_eq_some_iff.mp h
  split at h
  · rename_i hcall
    exact some.inj h ▸ .call hcall.1 htask hcall.2.1 hcall.2.2
  · cases h

/-- Kernel stacks share no frame, and what a process maps is in use and in no stack. -/
def StacksHidden (k : ShmKernel) : Prop :=
  (∀ p i q j d, StackFrame k p i d → StackFrame k q j d → p = q) ∧
    ∀ r ∈ liveSpaces k, ∀ n d, frameOf k.machine r n = some d → ¬ Free k.machine.pmm d ∧ ∀ p j, ¬ StackFrame k p j d

end AetherOs.Shm
