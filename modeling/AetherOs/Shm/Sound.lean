import AetherOs.Paging.Reserved
import AetherOs.Shm.Model

/-! # Well-formed kernels with shared memory -/

namespace AetherOs.Shm

open Paging Finset

def shmPage : ℕ := shmBase / pageSize

def Region.frame (r : Region) (i : ℕ) : ℕ := r.physPages i / pageSize

variable (k : ShmKernel)

def RegionFrame (a i d : ℕ) : Prop :=
  a < shmMaxRegions ∧ (k.shmTable a).valid = true ∧ i < (k.shmTable a).numPages ∧ (k.shmTable a).frame i = d

def Task.stackFrame (t : Task) (j : ℕ) : ℕ := subWord t.kernelStack kernelVmaBase / pageSize + j

def StackFrame (p j d : ℕ) : Prop :=
  p < maxProcesses ∧ j < kstackFrames ∧ ∃ t, k.processTable p = some t ∧ t.kernelStack ≠ 0 ∧ t.stackFrame j = d

def reserved : Set ℕ := {d | (∃ a i, RegionFrame k a i d) ∨ ∃ p j, StackFrame k p j d}

def home (d n : ℕ) : Prop := ∃ a i, RegionFrame k a i d ∧ n = shmPage + i

def userTask (p : ℕ) : Bool :=
  (k.processTable p).any fun t => t.addressSpace ≠ k.machine.kernelPml4

def spaceOf (p : ℕ) : ℕ := ((k.processTable p).map Task.addressSpace).getD 0

def liveSpaces : Finset ℕ :=
  ((Finset.range maxProcesses).filter fun p => userTask k p).image (spaceOf k)

variable {k : ShmKernel} {kernel : Set ℕ} {a i j p q r d n : ℕ} {t : Task} {s : Machine}

theorem mem_liveSpaces : r ∈ liveSpaces k ↔ ∃ p < maxProcesses, ∃ t, k.processTable p = some t ∧
    t.addressSpace ≠ k.machine.kernelPml4 ∧ t.addressSpace = r := by
  rw [liveSpaces, mem_image]
  constructor
  · rintro ⟨p, hp, rfl⟩
    obtain ⟨hp, huser⟩ := mem_filter.mp hp
    rw [spaceOf]
    cases ht : k.processTable p with
    | none =>
      rw [userTask, ht] at huser
      cases huser
    | some t =>
      rw [userTask, ht] at huser
      exact ⟨p, mem_range.mp hp, t, ht, by simpa using huser, rfl⟩
  · rintro ⟨p, hp, t, ht, huser, rfl⟩
    refine ⟨p, mem_filter.mpr ⟨mem_range.mpr hp, ?_⟩, by rw [spaceOf, ht]; rfl⟩
    rw [userTask, ht]
    simpa using huser

theorem liveSpaces_of_root {table : ℕ → Region} (hroot : s.kernelPml4 = k.machine.kernelPml4) :
    liveSpaces ⟨s, table, k.processTable, k.idleProc⟩ = liveSpaces k := by
  ext r
  simp only [mem_liveSpaces, hroot]

theorem space_mem (hp : p < maxProcesses) (ht : k.processTable p = some t)
    (huser : t.addressSpace ≠ k.machine.kernelPml4) : t.addressSpace ∈ liveSpaces k :=
  mem_liveSpaces.mpr ⟨p, hp, t, ht, huser, rfl⟩

structure Sound (kernel : Set ℕ) (k : ShmKernel) : Prop where
  state : ReservedState k.machine k.machine.kernelPml4 (liveSpaces k) kernel (reserved k) (home k)
  pages_pos : ∀ a < shmMaxRegions, (k.shmTable a).valid = true → 0 < (k.shmTable a).numPages
  pages_le : ∀ a < shmMaxRegions, (k.shmTable a).valid = true → (k.shmTable a).numPages ≤ shmMaxPages
  aligned : ∀ a i d, RegionFrame k a i d → (k.shmTable a).physPages i = d * pageSize
  regions_apart : ∀ a i b j d, RegionFrame k a i d → RegionFrame k b j d → a = b ∧ i = j
  stack_eq : ∀ p < maxProcesses, ∀ t, k.processTable p = some t → t.kernelStack ≠ 0 →
    ∃ f, f + kstackFrames ≤ maxFrames ∧ t.kernelStack = physToVirt (f * pageSize)
  stacks_apart : ∀ p i q j d, StackFrame k p i d → StackFrame k q j d → p = q
  apart : ∀ a i p j d, RegionFrame k a i d → ¬ StackFrame k p j d
  spaces_apart : ∀ p < maxProcesses, ∀ q < maxProcesses, ∀ t u, k.processTable p = some t → k.processTable q = some u →
    t.addressSpace = u.addressSpace → t.addressSpace ≠ k.machine.kernelPml4 → p = q
  idle_lt : k.idleProc < maxProcesses
  idle : ∃ t, k.processTable k.idleProc = some t ∧ t.addressSpace = k.machine.kernelPml4

theorem stackFrame_physToVirt {f : ℕ} (hend : f + kstackFrames ≤ maxFrames)
    (ht : t.kernelStack = physToVirt (f * pageSize)) :
    subWord t.kernelStack kernelVmaBase = f * pageSize ∧ t.stackFrame j = f + j := by
  have heq : subWord t.kernelStack kernelVmaBase = f * pageSize := by
    rw [ht]
    simp only [subWord, physToVirt, addWord, wordSize, kernelVmaBase, kstackFrames, maxFrames, pageSize] at *
    omega
  exact ⟨heq, by rw [Task.stackFrame, heq, frame_div]⟩

namespace Sound

variable (h : Sound kernel k)

include h

theorem home_eq (hd : RegionFrame k a i d) : home k d n ↔ n = shmPage + i := by
  constructor
  · rintro ⟨b, j, hb, rfl⟩
    rw [(h.regions_apart a i b j d hd hb).2]
  · exact fun hn => ⟨a, i, hd, hn⟩

theorem roots (hroot : s.kernelPml4 = k.machine.kernelPml4) :
    (∀ p < maxProcesses, ∀ q < maxProcesses, ∀ t u, k.processTable p = some t → k.processTable q = some u →
      t.addressSpace = u.addressSpace → t.addressSpace ≠ s.kernelPml4 → p = q) ∧
      ∃ t, k.processTable k.idleProc = some t ∧ t.addressSpace = s.kernelPml4 := by
  rw [hroot]
  exact ⟨h.spaces_apart, h.idle⟩

theorem withMachine (hstate : ReservedState s k.machine.kernelPml4 (liveSpaces k) kernel (reserved k) (home k)) :
    Sound kernel (k.withMachine s) := by
  have hroot : s.kernelPml4 = k.machine.kernelPml4 := hstate.root_eq
  have hlive : liveSpaces (k.withMachine s) = liveSpaces k := liveSpaces_of_root hroot
  refine ⟨?_, h.pages_pos, h.pages_le, h.aligned, h.regions_apart, h.stack_eq, h.stacks_apart, h.apart, (h.roots hroot).1,
    h.idle_lt, (h.roots hroot).2⟩
  rw [hlive]
  exact hroot.symm ▸ hstate

theorem card_lt (hq : q < maxProcesses) (hnone : k.processTable q = none) : (liveSpaces k).card < 255 := by
  obtain ⟨t, ht, hkernel⟩ := h.idle
  have hne : k.idleProc ≠ q := by
    intro heq
    rw [heq, hnone] at ht
    cases ht
  have hsub : (Finset.range maxProcesses).filter (fun p => userTask k p) ⊆
      ((Finset.range maxProcesses).erase q).erase k.idleProc := by
    intro p hp
    obtain ⟨hp, huser⟩ := mem_filter.mp hp
    refine mem_erase.mpr ⟨?_, mem_erase.mpr ⟨?_, hp⟩⟩
    · rintro rfl
      simp [userTask, ht, hkernel] at huser
    · rintro rfl
      simp [userTask, hnone] at huser
  have hcard := card_le_card hsub
  rw [card_erase_of_mem (mem_erase.mpr ⟨hne, mem_range.mpr h.idle_lt⟩),
    card_erase_of_mem (mem_range.mpr hq), card_range] at hcard
  have himage : (liveSpaces k).card ≤ _ := card_image_le
  have : maxProcesses = 256 := rfl
  omega

end Sound

end AetherOs.Shm
