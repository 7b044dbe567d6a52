import AetherOs.Fat32.Ops

/-! # Mounting a FAT32 volume

`fat32_init` checks the sector size and the number of tables. It takes every other field of the boot sector
as it is. -/

namespace AetherOs.Fat32

open Base

def einval : ℤ := 22

def enomem : ℤ := 12

/-- The fields of the boot sector that `fat32_init` reads. -/
structure Fat32Bpb where
  bytesPerSector : ℕ
  sectorsPerCluster : ℕ
  reservedSectors : ℕ
  numFats : ℕ
  totalSectors32 : ℕ
  fatSize32 : ℕ
  rootCluster : ℕ
  fsInfoSector : ℕ

def readBpb (b : ℕ → UInt8) : Fat32Bpb where
  bytesPerSector := leNat b 2 11
  sectorsPerCluster := leNat b 1 13
  reservedSectors := leNat b 2 14
  numFats := leNat b 1 16
  totalSectors32 := leNat b 4 32
  fatSize32 := leNat b 4 36
  rootCluster := leNat b 4 44
  fsInfoSector := leNat b 2 48

/-- The first sector of the data area, in the driver's arithmetic of 32 bits. -/
def Fat32Bpb.dataLba (b : Fat32Bpb) : ℕ := (b.reservedSectors + b.numFats * b.fatSize32) % uintSize

variable (disk : ℕ → ℕ → UInt8)

/-- A slot of the mount table after `memset`. -/
def Fat32Fs.cleared : Fat32Fs where
  valid := false
  fatLba := 0
  dataLba := 0
  rootCluster := 0
  sectorsPerCluster := 0
  bytesPerCluster := 0
  totalClusters := 0
  freeClusters := 0
  nextFreeHint := 0
  sectorBuf := fun _ => 0
  sectorBufLba := uintSize - 1
  sectorBufDirty := false
  disk := disk

def hasFsInfo (info : ℕ → UInt8) : Bool := leNat info 4 0 = 0x41615252 ∧ leNat info 4 484 = 0x61417272

/-- The slot once the geometry is derived from the boot sector and the hints are read from FSInfo. -/
def Fat32Fs.mounted : Fat32Fs :=
  let b := readBpb (disk 0)
  let info := disk b.fsInfoSector
  { Fat32Fs.cleared disk with
    valid := true
    fatLba := b.reservedSectors
    dataLba := b.dataLba
    rootCluster := b.rootCluster
    sectorsPerCluster := b.sectorsPerCluster
    bytesPerCluster := b.sectorsPerCluster * 512
    totalClusters := (b.totalSectors32 + uintSize - b.dataLba) % uintSize / b.sectorsPerCluster
    freeClusters := if hasFsInfo info then leNat info 4 488 else uintSize - 1
    nextFreeHint := if hasFsInfo info then leNat info 4 492 else 2 }

/-- `fat32_init`, with whether its two allocations succeed. It has no result when it divides by zero. -/
def fat32Init (ctxMem rootMem : Bool) : Option (ℤ × Fat32Fs) :=
  if (readBpb (disk 0)).bytesPerSector ≠ 512 then some (-einval, .cleared disk)
  else if (readBpb (disk 0)).numFats < 1 then some (-einval, .cleared disk)
  else if (readBpb (disk 0)).sectorsPerCluster = 0 then none
  else some (if ctxMem ∧ rootMem then 0 else -enomem, .mounted disk)

/-- The areas that a boot sector describes fit each other on a volume of `clusters` clusters. -/
structure Fat32Bpb.Consistent (b : Fat32Bpb) (clusters : ℕ) : Prop where
  sectors : 0 < b.sectorsPerCluster
  areas : b.reservedSectors + b.numFats * b.fatSize32 ≤ b.totalSectors32
  table : (clusters + 2) * 4 ≤ b.fatSize32 * 512
  root : 2 ≤ b.rootCluster ∧ b.rootCluster < clusters + 2

/-- What mounting has to guarantee: it returns, an accepted volume is consistent, a refused one is not marked
valid. -/
def MountRight : Option (ℤ × Fat32Fs) → Prop
  | none => False
  | some (ret, fs) => (ret = 0 → (readBpb (disk 0)).Consistent fs.totalClusters) ∧ (ret ≠ 0 → fs.valid = false)

/-- The number of clusters between the end of the tables and the end of the volume. -/
def Fat32Bpb.clusters (b : Fat32Bpb) : ℕ :=
  (b.totalSectors32 - (b.reservedSectors + b.numFats * b.fatSize32)) / b.sectorsPerCluster

theorem totalClusters_mounted {disk : ℕ → ℕ → UInt8} (h : (readBpb (disk 0)).reservedSectors +
    (readBpb (disk 0)).numFats * (readBpb (disk 0)).fatSize32 ≤ (readBpb (disk 0)).totalSectors32) :
    (Fat32Fs.mounted disk).totalClusters = (readBpb (disk 0)).clusters := by
  have hsize : (readBpb (disk 0)).totalSectors32 < uintSize := leNat_lt
  simp only [Fat32Fs.mounted, Fat32Bpb.clusters, Fat32Bpb.dataLba]
  generalize readBpb (disk 0) = b at h hsize
  rw [Nat.mod_eq_of_lt (a := b.reservedSectors + b.numFats * b.fatSize32) (by omega), Nat.add_comm,
    Nat.add_sub_assoc h, Nat.add_mod_left, Nat.mod_eq_of_lt (by omega)]

/-- Mounting is right exactly when one of the two checks refuses the boot sector, or both allocations succeed
and the boot sector is consistent. -/
theorem fat32Init_right_iff (disk : ℕ → ℕ → UInt8) (ctxMem rootMem : Bool) :
    MountRight disk (fat32Init disk ctxMem rootMem) ↔
      (readBpb (disk 0)).bytesPerSector ≠ 512 ∨ (readBpb (disk 0)).numFats < 1 ∨
        ((ctxMem ∧ rootMem) ∧ (readBpb (disk 0)).Consistent (readBpb (disk 0)).clusters) := by
  have hrefused : MountRight disk (some (-einval, .cleared disk)) := ⟨fun h => absurd h (by decide), fun _ => rfl⟩
  rw [fat32Init]
  by_cases hbytes : (readBpb (disk 0)).bytesPerSector ≠ 512
  · rw [if_pos hbytes]
    exact iff_of_true hrefused (.inl hbytes)
  by_cases hfats : (readBpb (disk 0)).numFats < 1
  · rw [if_neg hbytes, if_pos hfats]
    exact iff_of_true hrefused (.inr (.inl hfats))
  rw [if_neg hbytes, if_neg hfats, or_iff_right hbytes, or_iff_right hfats]
  by_cases hsectors : (readBpb (disk 0)).sectorsPerCluster = 0
  · rw [if_pos hsectors]
    exact iff_of_false id fun h => h.2.sectors.ne' hsectors
  rw [if_neg hsectors]
  by_cases hmem : ctxMem ∧ rootMem
  · rw [if_pos hmem, and_iff_right hmem]
    constructor
    · intro h
      have hok := h.1 rfl
      rwa [totalClusters_mounted hok.areas] at hok
    · intro h
      rw [← totalClusters_mounted h.areas] at h
      exact ⟨fun _ => h, fun hne => absurd rfl hne⟩
  · rw [if_neg hmem]
    exact iff_of_false (fun h => Bool.noConfusion (h.2 (by decide))) fun h => hmem h.1

/-- A boot sector with clusters of no sectors makes the driver divide by zero. -/
theorem fat32Init_no_sectors :
    ¬ MountRight (fun _ => putLE 2 11 512 (putLE 1 16 1 fun _ => 0))
      (fat32Init (fun _ => putLE 2 11 512 (putLE 1 16 1 fun _ => 0)) true true) := by
  have hnone : fat32Init (fun _ => putLE 2 11 512 (putLE 1 16 1 fun _ => 0)) true true = none := by decide +kernel
  rw [hnone]
  exact id

end AetherOs.Fat32
