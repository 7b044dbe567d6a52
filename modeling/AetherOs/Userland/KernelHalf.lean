import AetherOs.Paging.UserSteps
import AetherOs.Userland.Exec
import AetherOs.Paging.CowClone

/-! # Memory calls and the kernel half -/

namespace AetherOs.Userland

open Base Base.Radix Paging Function

/-! ## The memory calls as steps -/

section

def Phdr.touches (ph : Phdr) (v : ℕ) : Prop :=
  (∃ i < ph.pages, v = addWord ph.vaddrAligned (i * pageSize)) ∨ ∃ i < ph.pFilesz, v = addWord ph.pVaddr i

def Phdr.fits (ph : Phdr) : Prop :=
  ph.pFilesz = 0 ∨ 2 * (ph.pVaddr % pageSize) + chunkSize ph.pVaddr ph.pFilesz ≤ pageSize

instance (ph : Phdr) : Decidable ph.fits := inferInstanceAs (Decidable (_ ∨ _))

variable {s₀ s : Machine} {live : Finset ℕ} {kernel : Set ℕ} {r v : ℕ} {flags : BitVec 64}

theorem addWord_addWord (a b c : ℕ) : addWord (addWord a b) c = addWord a (b + c) := by
  simp only [addWord, Nat.mod_add_mod, Nat.add_assoc]

theorem userIndex_of_lt (hv : v < userPages * pageSize) : userIndex (pml4Index v) := by
  simp only [userIndex, pml4Index, userPages, pageSize] at *
  omega

theorem smallFlags_userFlags : SmallFlags userFlags := by
  refine ⟨?_, by decide⟩
  intro i hi hi'
  have hbits : ∀ i < 64, 12 ≤ i → i < 52 → userFlags.getLsbD i = false := by decide
  exact hbits i (by omega) hi hi'

theorem smallFlags_pteFlags (ph : Phdr) : SmallFlags ph.pteFlags :=
  smallFlags_userBits _ _

section Rounds

variable (h : Keeps live kernel s₀ s) (hr : r ∈ live) (hv : userIndex (pml4Index v))

include h hr hv

theorem brkPage_ends : Ends (Keeps live kernel s₀) (Keeps live kernel s₀) (brkPage r v s) := by
  obtain ⟨hkeeps, hspare⟩ := h.state.alloc
  rw [brkPage]
  split_ifs with hne
  · exact h.trans hkeeps
  · obtain ⟨z, heq, hz⟩ := hspare hne
    rw [heq]
    exact h.trans (hkeeps.trans (hkeeps.state.map hr hv hz smallFlags_userFlags).1)

theorem mmapPage_ends : Ends (Keeps live kernel s₀) (Keeps live kernel s₀) (mmapPage r v s) := by
  obtain ⟨hkeeps, hspare⟩ := h.state.alloc
  rw [mmapPage]
  split_ifs with hne
  · exact h.trans hkeeps
  · obtain ⟨z, heq, hz⟩ := hspare hne
    obtain ⟨hclear, hz⟩ := hkeeps.state.storeSpare hz fun _ => 0
    rw [heq, clearFrame, frame_div]
    exact h.trans (hkeeps.trans (hclear.trans (hclear.state.map hr hv hz smallFlags_userFlags).1))

theorem munmapPage_keeps : Keeps live kernel s₀ (munmapPage r v s) := by
  rw [munmapPage]
  split_ifs with hne
  · exact h
  · exact h.trans (h.state.unmap hr hv hne)

theorem loadPage_ends (hflags : SmallFlags flags) :
    Ends (Keeps live kernel s₀) (Keeps live kernel s₀) (loadPage r v flags s) := by
  obtain ⟨hkeeps, hspare⟩ := h.state.alloc
  rw [loadPage]
  split_ifs with hne
  · exact h.trans hkeeps
  · obtain ⟨z, heq, hz⟩ := hspare hne
    obtain ⟨hclear, hz⟩ := hkeeps.state.storeSpare hz fun _ => 0
    obtain ⟨hmap, hfail⟩ := hclear.state.map hr hv hz hflags
    have hdone := h.trans (hkeeps.trans (hclear.trans hmap))
    rw [heq, clearFrame, frame_div]
    dsimp only
    split_ifs with hcode
    · exact hdone
    · exact hdone.trans (hdone.state.freeSpare (hfail hcode))

end Rounds

theorem copyBytes_bytes (file : ElfFile) (src d : ℕ) {off count : ℕ} (hfits : off + count ≤ pageSize) :
    ∃ page, copyBytes file src (d * pageSize + off) count s = { s with mem := update s.mem d page } ∧
      ∀ j, byteAt page j = if off ≤ j ∧ j < off + count then file.byte (addWord src (j - off)) else byteAt (s.mem d) j := by
  refine foldl_range_invariant (fun k t => ∃ page, t = { s with mem := update s.mem d page } ∧
    ∀ j, byteAt page j = if off ≤ j ∧ j < off + k then file.byte (addWord src (j - off)) else byteAt (s.mem d) j)
    ⟨s.mem d, by rw [update_eq_self], fun j => by rw [if_neg (by omega)]⟩ ?_
  rintro k hk _ ⟨page, rfl, hpage⟩
  have hframe : (d * pageSize + off + k) / pageSize = d := by
    simp only [pageSize] at *
    omega
  have hoff : (d * pageSize + off + k) % pageSize = off + k := by
    simp only [pageSize] at *
    omega
  simp only [storeByte, hframe, hoff, update_self, update_idem]
  refine ⟨_, rfl, fun j => ?_⟩
  rw [byteAt_setByte, hpage]
  by_cases hj : j = off + k
  · rw [if_pos hj, if_pos (by omega), hj, Nat.add_sub_cancel_left]
  · rw [if_neg hj]
    refine if_congr ?_ rfl rfl
    omega

theorem fits_next (dst toCopy : ℕ) : toCopy - chunkSize dst toCopy = 0 ∨
    2 * (addWord dst (chunkSize dst toCopy) % pageSize) +
      chunkSize (addWord dst (chunkSize dst toCopy)) (toCopy - chunkSize dst toCopy) ≤ pageSize := by
  simp only [chunkSize, addWord, wordSize, pageSize]
  omega

theorem copyFile_ends (file : ElfFile) (rounds src : ℕ) {dst toCopy : ℕ} (hr : r ∈ live)
    (h : Keeps live kernel s₀ s) (huser : ∀ i < toCopy, userIndex (pml4Index (addWord dst i)))
    (hdst : dst < wordSize)
    (hfits : toCopy = 0 ∨ 2 * (dst % pageSize) + chunkSize dst toCopy ≤ pageSize) :
    Ends (Keeps live kernel s₀) (Keeps live kernel s₀) (copyFile file r rounds src dst toCopy s) := by
  induction rounds generalizing src dst toCopy s with
  | zero => exact h
  | succ rounds ih =>
    simp only [copyFile]
    split
    · exact h
    · rename_i hne
      split
      · exact h
      · rename_i hphys
        have hv : userIndex (pml4Index dst) := by
          simpa [addWord, Nat.mod_eq_of_lt hdst] using huser 0 (by omega)
        obtain ⟨d, hd, heq⟩ := h.state.spaces.vmmGetPhysical_user hr hv hphys
        have hfits := hfits.resolve_left hne
        obtain ⟨page, hcopy, -⟩ := copyBytes_bytes (s := s) file src d
          (show dst % pageSize + dst % pageSize + chunkSize dst toCopy ≤ pageSize by omega)
        rw [heq, Nat.add_assoc, hcopy]
        refine ih _ (h.trans (h.state.storeFrame hr hd page).1) (fun i hi => ?_) (addWord_lt _ _)
          (fits_next dst toCopy)
        rw [addWord_addWord]
        exact huser _ (by omega)

theorem loadSegment_ends (file : ElfFile) {ph : Phdr} (h : Keeps live kernel s₀ s) (hr : r ∈ live)
    (huser : ∀ v, ph.touches v → userIndex (pml4Index v)) (hvaddr : ph.pVaddr < wordSize) (hfits : ph.fits) :
    Ends (Keeps live kernel s₀) (fun e => Keeps live kernel s₀ e.2) (loadSegment file ph r s) := by
  have hpages : Ends (Keeps live kernel s₀) (Keeps live kernel s₀) ((List.range ph.pages).foldlM
      (fun s i => loadPage r (addWord ph.vaddrAligned (i * pageSize)) ph.pteFlags s) s) :=
    foldlM_range_ends h fun i hi t ht =>
      loadPage_ends ht hr (huser _ (.inl ⟨i, hi, rfl⟩)) (smallFlags_pteFlags ph)
  rw [loadSegment]
  refine hpages.outcome (fun s' hs' => ?_) fun _ he => he
  have hcopy := copyFile_ends file ph.pFilesz ph.pOffset hr hs'
    (fun i hi => huser _ (.inr ⟨i, hi, rfl⟩)) hvaddr hfits
  exact hcopy.outcome (fun _ hs => hs) fun _ he => he

end

/-! ## Memory calls and the kernel half -/

section

inductive MemoryCall
  | brk (newBrk : ℕ)
  | mmap (addr length : ℕ)
  | munmap (addr length : ℕ)
  | elfLoad (file : ElfFile)

namespace MemoryCall

def run (p : Process) (s : Machine) : MemoryCall → Machine
  | brk newBrk => (sysBrk newBrk ⟨s, some p⟩).2.machine
  | mmap addr length => (sysMmap addr length ⟨s, some p⟩).2.machine
  | munmap addr length => (sysMunmap addr length ⟨s, some p⟩).2.machine
  | elfLoad file => (Userland.elfLoad file p s).machine

def touches (p : Process) (v : ℕ) : MemoryCall → Prop
  | brk newBrk => ∃ i < (alignUp newBrk pageSize - alignUp p.heapEnd pageSize) / pageSize,
      v = alignUp p.heapEnd pageSize + i * pageSize
  | mmap addr length => ∃ i < alignUp length pageSize / pageSize,
      v = addWord (alignUp (if addr = 0 then p.heapEnd else addr) pageSize) (i * pageSize)
  | munmap addr length => ∃ i < alignUp length pageSize / pageSize, v = addWord addr (i * pageSize)
  | elfLoad file => ∃ i < phnum file, (phdrAt file i).loads ∧ (phdrAt file i).touches v

def fits : MemoryCall → Prop
  | elfLoad file => ∀ i < phnum file, (phdrAt file i).loads → (phdrAt file i).fits
  | _ => True

end MemoryCall

structure KernelHalfKept (live : Finset ℕ) (s s' : Machine) : Prop where
  translation : ∀ r, Space s live r → ∀ v, 256 ≤ pml4Index v → vmmGetPhysical s' r v = vmmGetPhysical s r v
  frames : ∀ r, Space s live r → ∀ v, KernelPage s r v →
    ¬ Free s'.pmm (vmmGetPhysical s r v / pageSize) ∧
      s'.pmm.refcounts (vmmGetPhysical s r v / pageSize) = s.pmm.refcounts (vmmGetPhysical s r v / pageSize)

variable {s s' : Machine} {live : Finset ℕ} {kernel : Set ℕ} {p : Process} {r v : ℕ}

theorem readLe_lt (file : ElfFile) (off bytes : ℕ) : readLe file off bytes < 256 ^ bytes := by
  induction bytes generalizing off with
  | zero => exact Nat.one_pos
  | succ bytes ih =>
    have hbyte := (file.byte off).isLt
    have hrest := ih (addWord off 1)
    rw [readLe, Nat.pow_succ]
    omega

theorem addressSpace_raiseHeap (segEnd : ℕ) : (raiseHeap segEnd p).addressSpace = p.addressSpace := by
  rw [raiseHeap]
  split <;> rfl

theorem elfLoad_keeps (file : ElfFile) (h : UserState s live kernel) (hp : p.addressSpace ∈ live)
    (huser : ∀ i < phnum file, (phdrAt file i).loads → ∀ v, (phdrAt file i).touches v →
      userIndex (pml4Index v))
    (hfits : ∀ i < phnum file, (phdrAt file i).loads → (phdrAt file i).fits) :
    Keeps live kernel s (elfLoad file p s).machine := by
  rw [elfLoad]
  split
  · have hloop : Ends (fun st : Process × Machine => st.1.addressSpace ∈ live ∧ Keeps live kernel s st.2)
        (fun e : ℤ × Process × Machine => Keeps live kernel s e.2.2)
        ((List.range (phnum file)).foldlM (fun st i => loadPhdr file i st) (p, s)) := by
      refine foldlM_range_ends ⟨hp, .refl h⟩ fun i hi st hst => ?_
      rw [loadPhdr]
      split_ifs with hloads
      · have hvaddr : (phdrAt file i).pVaddr < wordSize := readLe_lt file _ 8
        have hseg := loadSegment_ends file hst.2 hst.1 (huser i hi hloads) hvaddr (hfits i hi hloads)
        refine hseg.outcome (fun s' hs' => ⟨?_, hs'⟩) fun _ he => he
        rw [addressSpace_raiseHeap]
        exact hst.1
      · exact hst
    exact hloop.outcome (R := fun res : LoadResult => Keeps live kernel s res.machine)
      (fun _ hst => hst.2) fun _ he => he
  · exact .refl h

theorem MemoryCall.keeps (c : MemoryCall) (h : UserState s live kernel) (hp : p.addressSpace ∈ live)
    (huser : ∀ v, c.touches p v → userIndex (pml4Index v)) (hfits : c.fits) :
    Keeps live kernel s (c.run p s) := by
  cases c with
  | brk newBrk =>
    simp only [run, sysBrk]
    split
    · exact .refl h
    · split
      · exact .refl h
      · exact (foldlM_range_ends (.refl h) fun i hi t ht => brkPage_ends ht hp (huser _ ⟨i, hi, rfl⟩)).outcome
          (R := fun res : ℤ × Kernel => Keeps live kernel s res.2.machine) (fun _ ht => ht) fun _ ht => ht
  | mmap addr length =>
    simp only [run, sysMmap]
    split
    · exact .refl h
    · exact (foldlM_range_ends (.refl h) fun i hi t ht => mmapPage_ends ht hp (huser _ ⟨i, hi, rfl⟩)).outcome
        (R := fun res : ℤ × Kernel => Keeps live kernel s res.2.machine) (fun _ ht => ht) fun _ ht => ht
  | munmap addr length =>
    simp only [run, sysMunmap]
    split
    · exact .refl h
    · exact foldl_range_invariant (fun _ t => Keeps live kernel s t) (.refl h) fun i hi t ht =>
        munmapPage_keeps ht hp (huser _ ⟨i, hi, rfl⟩)
  | elfLoad file =>
    exact elfLoad_keeps file h hp (fun i hi hloads v hv => huser v ⟨i, hi, hloads, hv⟩) hfits

theorem vmmGetPhysical_kernelPage (h : UserState s live kernel) (hr : Space s live r) (hv : KernelPage s r v) :
    vmmGetPhysical s r v / pageSize = tableOf (entryOf s r (ptPath v) (ptIndex v)) := by
  have hwalk : child (entryOf s r (pdPath v) (pdIndex v)) = tableAt s r (ptPath v) :=
    (walk_concat_eq child_zero).symm
  obtain ⟨t, ht, -⟩ := table_of_present hv.2
  rw [ht] at hwalk
  obtain ⟨hpde, hsmall, -⟩ := child_eq_some.mp hwalk
  rw [h.spaces.vmmGetPhysical_kernel hr hv.1, translate_small hpde hsmall hv.2]
  have hoff : v % pageSize < pageSize := Nat.mod_lt _ (by decide)
  simp only [pageSize] at hoff ⊢
  omega

theorem kernelHalfKept_of_keeps (h : UserState s live kernel) (hkeeps : Keeps live kernel s s') :
    KernelHalfKept live s s' := by
  refine ⟨fun r hr v hv => hkeeps.vmmGetPhysical_eq h hr (by simpa [userIndex] using hv), fun r hr v hv => ?_⟩
  rw [vmmGetPhysical_kernelPage h hr hv]
  have hmem := h.pages r hr v hv
  exact ⟨hkeeps.state.spaces.tables.shared_kept _ hmem, hkeeps.kernel.refcounts _ hmem⟩

theorem userState_none_bareMachine : UserState bareMachine ∅ {1} := by
  refine UserState.none kernelHalf_bareMachine kept_bareMachine fun v hv => ?_
  obtain ⟨t, -, hentry⟩ := table_of_present hv.2
  have hpresent := hv.2
  rw [← hentry] at hpresent
  cases (hasFlag_zero _).symm.trans hpresent

theorem userState_bareMachine : UserState (vmmCreateAddressSpace bareMachine).2 {2} {1} :=
  (userState_none_bareMachine.create
    (Prod.ext (by decide +kernel : (vmmCreateAddressSpace bareMachine).1 = some 2) rfl)).1

def heapMachine : Machine :=
  let pmm := takeFrame 3 (takeFrame 2 bareMachine.pmm)
  let s := (vmmMapPage 1 0xFFFFFE0000000000 (2 * pageSize) (ptePresent ||| pteWritable)
    { bareMachine with pmm := pmm }).2
  let s := (vmmCreateAddressSpace s).2
  { s with pmm := pmmFreeFrame (3 * pageSize) s.pmm }

def leBytes (value : ℕ) : ℕ → List (BitVec 8)
  | 0 => []
  | bytes + 1 => BitVec.ofNat 8 value :: leBytes (value / 256) bytes

def tailFile : ElfFile :=
  let header := leBytes 0x464C457F 4 ++ leBytes 0x102 12 ++ leBytes 2 2 ++ leBytes 62 2 ++ leBytes 1 4 ++
    leBytes 0x400FF8 8 ++ leBytes 64 8 ++ leBytes 0 12 ++ leBytes 64 2 ++ leBytes 56 2 ++ leBytes 1 2 ++
    leBytes 0 6
  let phdr := leBytes 1 4 ++ leBytes 6 4 ++ leBytes 120 8 ++ leBytes 0x400FF8 8 ++ leBytes 0 8 ++
    leBytes 8 8 ++ leBytes 8 8 ++ leBytes pageSize 8
  let bytes := header ++ phdr ++ leBytes 0x5003 8
  ⟨bytes.length, fun i => bytes.getD i 0⟩

theorem not_kept_of_translation (hr : Space s live r) (hv : 256 ≤ pml4Index v)
    (hne : vmmGetPhysical s' r v ≠ vmmGetPhysical s r v) : ¬ KernelHalfKept live s s' :=
  fun h => hne (h.translation r hr v hv)

theorem not_kept_of_freed (hr : Space s live r) (hv : KernelPage s r v)
    (hfree : Free s'.pmm (vmmGetPhysical s r v / pageSize)) : ¬ KernelHalfKept live s s' :=
  fun h => (h.frames r hr v hv).1 hfree

def mapFirst (vaddr : ℕ) (s : Machine) : Machine :=
  (vmmMapPage 1 vaddr 0 (ptePresent ||| pteWritable ||| pteHuge) s).2

end

end AetherOs.Userland
