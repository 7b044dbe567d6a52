import AetherOs.Fat32.Ops

/-! # A FAT32 volume as a map of clusters -/

namespace AetherOs.Fat32

open Base Function

@[ext]
structure Volume where
  clusters : ℕ
  clusterSize : ℕ
  root : ℕ
  hint : ℕ
  fat : ℕ → ℕ
  data : ℕ → ℕ → UInt8

namespace Volume

def InRange (v : Volume) (c : ℕ) : Prop := 2 ≤ c ∧ c < v.clusters + 2

instance (v : Volume) (c : ℕ) : Decidable (v.InRange c) := inferInstanceAs (Decidable (_ ∧ _))

def setFat (c val : ℕ) (v : Volume) : Volume := { v with fat := update v.fat c val }

def setData (c : ℕ) (buf : ℕ → UInt8) (v : Volume) : Volume :=
  { v with data := update v.data c fun j => if j < v.clusterSize then buf j else 0 }

def take (prev c : ℕ) (v : Volume) : Volume :=
  { (if prev ≠ 0 then (v.setFat c fatEoc).setFat prev c else v.setFat c fatEoc) with hint := c + 1 }

def freeAbove (v : Volume) : Option ℕ :=
  search (fun val => val = fatFree) v.fat (v.clusters + 2 - max v.hint 2) (max v.hint 2)

def freeBelow (v : Volume) : Option ℕ := search (fun val => val = fatFree) v.fat (max v.hint 2 - 2) 2

def alloc (prev : ℕ) (v : Volume) : ℕ × Volume :=
  match v.freeAbove with
  | some c => (c, (v.take prev c).setData c fun _ => 0)
  | none =>
    match v.freeBelow with
    | some c => (c, v.take prev c)
    | none => (0, v)

end Volume

def fatSector (lba : ℕ) (fs : Fat32Fs) : ℕ → UInt8 := if fs.sectorBufLba = lba then fs.sectorBuf else fs.disk lba

def fatLbaOf (c : ℕ) (fs : Fat32Fs) : ℕ := fs.fatLba + c * 4 / sectorSize

def fatEntry (c : ℕ) (fs : Fat32Fs) : ℕ :=
  leNat (fatSector (fatLbaOf c fs) fs) 4 (c * 4 % sectorSize) &&& fatMask

def dataLbaOf (c j : ℕ) (fs : Fat32Fs) : ℕ := fs.dataLba + (c - 2) * fs.sectorsPerCluster + j / sectorSize

def Fat32Fs.volume (fs : Fat32Fs) : Volume where
  clusters := fs.totalClusters
  clusterSize := fs.bytesPerCluster
  root := fs.rootCluster
  hint := fs.nextFreeHint
  fat := fun c => if c < fs.totalClusters + 2 then fatEntry c fs else 0
  data := fun c j => if (2 ≤ c ∧ c < fs.totalClusters + 2) ∧ j < fs.bytesPerCluster
    then fs.disk (dataLbaOf c j fs) (j % sectorSize) else 0

structure Sound (fs : Fat32Fs) : Prop where
  valid : fs.valid = true
  sectors : 0 < fs.sectorsPerCluster
  size : fs.bytesPerCluster = fs.sectorsPerCluster * sectorSize
  some : 0 < fs.totalClusters
  few : fs.totalClusters + 2 ≤ fatEocMin
  fat : fs.fatLba + ((fs.totalClusters + 2) * 4 + (sectorSize - 1)) / sectorSize ≤ fs.dataLba
  data : fs.dataLba + fs.totalClusters * fs.sectorsPerCluster ≤ uintSize
  buffer : (fs.fatLba ≤ fs.sectorBufLba ∧ fs.sectorBufLba < fs.dataLba) ∨
    (fs.sectorBufLba = uintSize - 1 ∧ fs.sectorBufDirty = false)
  clean : fs.sectorBufDirty = false → fs.sectorBufLba < fs.dataLba →
    ∀ o < sectorSize, fs.sectorBuf o = fs.disk fs.sectorBufLba o

structure Refines (fs : Fat32Fs) (v : Volume) : Prop where
  sound : Sound fs
  volume : fs.volume = v

structure SameView (fs fs' : Fat32Fs) : Prop where
  fatLba : fs'.fatLba = fs.fatLba
  dataLba : fs'.dataLba = fs.dataLba
  root : fs'.rootCluster = fs.rootCluster
  sectors : fs'.sectorsPerCluster = fs.sectorsPerCluster
  size : fs'.bytesPerCluster = fs.bytesPerCluster
  total : fs'.totalClusters = fs.totalClusters
  hint : fs'.nextFreeHint = fs.nextFreeHint
  fat : ∀ lba, fs.fatLba ≤ lba → lba < fs.dataLba → ∀ o < sectorSize, fatSector lba fs' o = fatSector lba fs o
  data : ∀ lba, fs.dataLba ≤ lba → ∀ o < sectorSize, fs'.disk lba o = fs.disk lba o

/-- A sector in the buffer with no change pending is what the disk holds. -/
def Coherent (fs : Fat32Fs) : Prop :=
  fs.sectorBufDirty = false → fs.sectorBufLba ≠ uintSize - 1 →
    ∀ o < sectorSize, fs.sectorBuf o = fs.disk fs.sectorBufLba o

/-- Two states of the driver that differ in what is buffered and read the same from every sector. -/
structure SameSectors (fs fs' : Fat32Fs) : Prop where
  rest : ∃ buf lba dirty disk,
    fs' = { fs with sectorBuf := buf, sectorBufLba := lba, sectorBufDirty := dirty, disk := disk }
  sector : ∀ l ≠ uintSize - 1, ∀ o < sectorSize, fatSector l fs' o = fatSector l fs o

theorem SameSectors.refl (fs : Fat32Fs) : SameSectors fs fs := ⟨⟨_, _, _, _, rfl⟩, fun _ _ _ _ => rfl⟩

variable {fs fs' : Fat32Fs} {v : Volume} {c prev val lba : ℕ} {buf : ℕ → UInt8}

theorem Sound.dataLba_lt (h : Sound fs) : fs.dataLba < uintSize := by
  have hdata := h.data
  have hpos : 0 < fs.totalClusters * fs.sectorsPerCluster := Nat.mul_pos h.some h.sectors
  omega

section

variable (h : Sound fs) (hc : c < fs.totalClusters + 2)
include h hc

theorem Sound.fatLbaOf_lt : fatLbaOf c fs < fs.dataLba := by
  have hfat := h.fat
  have hpos : c * 4 / sectorSize < ((fs.totalClusters + 2) * 4 + (sectorSize - 1)) / sectorSize := by
    simp only [sectorSize]
    omega
  rw [fatLbaOf]
  omega

theorem Sound.fat32FatLba_eq : fat32FatLba c fs = fatLbaOf c fs := by
  have hlt := h.fatLbaOf_lt hc
  have hdata := h.dataLba_lt
  have hfew := h.few
  have hmul : c * 4 % uintSize = c * 4 := Nat.mod_eq_of_lt (by simp only [uintSize, fatEocMin] at *; omega)
  rw [fat32FatLba, hmul, Nat.mod_eq_of_lt (by rw [fatLbaOf] at hlt; omega), fatLbaOf]

theorem Sound.fat32FatOffset_eq : fat32FatOffset c = c * 4 % sectorSize := by
  have hfew := h.few
  have hmul : c * 4 % uintSize = c * 4 := Nat.mod_eq_of_lt (by simp only [uintSize, fatEocMin] at *; omega)
  rw [fat32FatOffset, hmul]

end

theorem Sound.clusterToLba_eq (h : Sound fs) (hc : 2 ≤ c) (hlt : c < fs.totalClusters + 2) {i : ℕ}
    (hi : i < fs.sectorsPerCluster) : (clusterToLba c fs + i) % uintSize =
      fs.dataLba + (c - 2) * fs.sectorsPerCluster + i := by
  have hdata := h.data
  have hfew := h.few
  have hend : (c - 2 + 1) * fs.sectorsPerCluster ≤ fs.totalClusters * fs.sectorsPerCluster :=
    Nat.mul_le_mul_right _ (by omega)
  rw [Nat.add_mul, Nat.one_mul] at hend
  have hsub : (c + uintSize - 2) % uintSize = c - 2 := by
    simp only [uintSize, fatEocMin] at *
    omega
  rw [clusterToLba, hsub, Nat.mod_eq_of_lt (a := fs.dataLba + (c - 2) * fs.sectorsPerCluster) (by omega),
    Nat.mod_eq_of_lt (by omega)]

theorem fatOffset_lt (c : ℕ) : c * 4 % sectorSize + 4 ≤ sectorSize := by
  simp only [sectorSize]
  omega

namespace SameView

theorem fatLbaOf_eq (h : SameView fs fs') (c : ℕ) : fatLbaOf c fs' = fatLbaOf c fs := by
  rw [fatLbaOf, fatLbaOf, h.fatLba]

theorem fatEntry_eq (h : SameView fs fs') (hs : Sound fs) (hc : c < fs.totalClusters + 2) :
    fatEntry c fs' = fatEntry c fs := by
  have hle : fs.fatLba ≤ fatLbaOf c fs := Nat.le_add_right _ _
  rw [fatEntry, fatEntry, h.fatLbaOf_eq, leNat_congr fun j _ hj =>
    h.fat _ hle (hs.fatLbaOf_lt hc) j (by have := fatOffset_lt c; omega)]

theorem volume_eq (h : SameView fs fs') (hs : Sound fs) : fs'.volume = fs.volume := by
  have hfat : fs'.volume.fat = fs.volume.fat := by
    funext c
    change (if c < fs'.totalClusters + 2 then fatEntry c fs' else 0) =
      if c < fs.totalClusters + 2 then fatEntry c fs else 0
    rw [h.total]
    split
    · exact h.fatEntry_eq hs ‹_›
    · rfl
  have hdata : fs'.volume.data = fs.volume.data := by
    funext c j
    change (if (2 ≤ c ∧ c < fs'.totalClusters + 2) ∧ j < fs'.bytesPerCluster
      then fs'.disk (dataLbaOf c j fs') (j % sectorSize) else 0) =
      if (2 ≤ c ∧ c < fs.totalClusters + 2) ∧ j < fs.bytesPerCluster
      then fs.disk (dataLbaOf c j fs) (j % sectorSize) else 0
    have hlba : dataLbaOf c j fs' = dataLbaOf c j fs := by rw [dataLbaOf, dataLbaOf, h.dataLba, h.sectors]
    have hle : fs.dataLba ≤ dataLbaOf c j fs := (Nat.le_add_right _ _).trans (Nat.le_add_right _ _)
    rw [h.total, h.size, hlba, h.data _ hle _ (Nat.mod_lt _ (by decide))]
  exact Volume.ext h.total h.size h.root h.hint hfat hdata

end SameView

theorem volume_fat (hc : c < fs.totalClusters + 2) : fs.volume.fat c = fatEntry c fs := if_pos hc

theorem loadSector_sectors (h : Coherent fs) (lba : ℕ) : Coherent (fat32LoadSector lba fs) ∧
    SameSectors fs (fat32LoadSector lba fs) ∧ (fat32LoadSector lba fs).sectorBufLba = lba := by
  rw [fat32LoadSector]
  split_ifs with heq
  · exact ⟨h, .refl fs, heq⟩
  · rw [flushSector]
    split_ifs with hdirty
    · refine ⟨fun _ _ _ _ => rfl, ⟨⟨_, _, _, _, rfl⟩, fun l _ o _ => ?_⟩, rfl⟩
      simp only [fatSector, fat32WriteSector, fat32ReadSector]
      by_cases hlba : lba = l
      · subst hlba
        rw [if_pos rfl, if_neg heq, update_of_ne (Ne.symm heq)]
      · rw [if_neg hlba]
        by_cases hbuf : fs.sectorBufLba = l
        · subst hbuf
          rw [if_pos rfl, update_self]
        · rw [if_neg hbuf, update_of_ne (Ne.symm hbuf)]
    · refine ⟨fun _ _ _ _ => rfl, ⟨⟨_, _, _, _, rfl⟩, fun l hl o ho => ?_⟩, rfl⟩
      simp only [fatSector, fat32ReadSector]
      by_cases hlba : lba = l
      · subst hlba
        rw [if_pos rfl, if_neg heq]
      · rw [if_neg hlba]
        split_ifs with hbuf
        · subst hbuf
          exact (h (Bool.eq_false_iff.mpr hdirty) hl o ho).symm
        · rfl

theorem and_fatMask (h : val ≤ fatMask) : val &&& fatMask = val := by
  have hmod : val &&& (2 ^ 28 - 1) = val % 2 ^ 28 := Nat.and_two_pow_sub_one_eq_mod val 28
  exact hmod.trans (Nat.mod_eq_of_lt (by simp only [fatMask] at h; omega))

def overlay (base count : ℕ) (buf : ℕ → UInt8) (disk : ℕ → ℕ → UInt8) : ℕ → ℕ → UInt8 := fun l =>
  if base ≤ l ∧ l < base + count then fun o => buf ((l - base) * sectorSize + o) else disk l

theorem overlay_fat {l : ℕ} (hl : l < fs.dataLba) :
    overlay (dataLbaOf c 0 fs) fs.sectorsPerCluster buf fs.disk l = fs.disk l := by
  have hle : fs.dataLba ≤ dataLbaOf c 0 fs := (Nat.le_add_right _ _).trans (Nat.le_add_right _ _)
  exact if_neg fun hbad => by omega

section

variable (h : Sound fs)
include h

theorem Sound.coherent : Coherent fs := by
  intro hclean hlba
  rcases h.buffer with hin | hout
  · exact h.clean hclean hin.2
  · exact absurd hout.1 hlba

theorem Sound.dirty_lt (hdirty : fs.sectorBufDirty) :
    fs.fatLba ≤ fs.sectorBufLba ∧ fs.sectorBufLba < fs.dataLba := by
  rcases h.buffer with hin | ⟨-, hclean⟩
  · exact hin
  · rw [hdirty] at hclean
    cases hclean

theorem Sound.flush_disk {l : ℕ} (hl : fs.dataLba ≤ l) : (flushSector fs).disk l = fs.disk l := by
  rw [flushSector]
  split_ifs with hdirty
  · have hlt := h.dirty_lt hdirty
    exact update_of_ne (by omega) _ _
  · rfl

theorem loadSector_spec (hle : fs.fatLba ≤ lba) (hlt : lba < fs.dataLba) :
    Sound (fat32LoadSector lba fs) ∧ SameView fs (fat32LoadSector lba fs) ∧
      (fat32LoadSector lba fs).sectorBufLba = lba := by
  have hend := h.dataLba_lt
  obtain ⟨hcoherent, hsame, hlba⟩ := loadSector_sectors h.coherent lba
  have hdisk (l : ℕ) (hl : fs.dataLba ≤ l) : (fat32LoadSector lba fs).disk l = fs.disk l := by
    rw [fat32LoadSector]
    split_ifs
    · rfl
    · exact h.flush_disk hl
  obtain ⟨buf, l, dirty, disk, heq⟩ := hsame.rest
  have hsector := hsame.sector
  rw [heq] at hcoherent hsector hlba hdisk ⊢
  obtain rfl : l = lba := hlba
  refine ⟨⟨h.valid, h.sectors, h.size, h.some, h.few, h.fat, h.data, .inl ⟨hle, hlt⟩, fun hclean _ => ?_⟩,
    ⟨rfl, rfl, rfl, rfl, rfl, rfl, rfl, fun x _ hx => ?_, fun x hx o _ => congrFun (hdisk x hx) o⟩, rfl⟩
  · exact hcoherent hclean (show l ≠ uintSize - 1 by omega)
  · exact hsector x (by omega)

theorem Sound.sector_lt {j : ℕ} (hj : j < fs.bytesPerCluster) : j / sectorSize < fs.sectorsPerCluster := by
  rw [h.size] at hj
  exact Nat.div_lt_of_lt_mul (by rw [Nat.mul_comm]; exact hj)

theorem Sound.dataLbaOf_mem {x j : ℕ} (hx : 2 ≤ x) (hc : 2 ≤ c) (hj : j < fs.bytesPerCluster) :
    (dataLbaOf c 0 fs ≤ dataLbaOf x j fs ∧ dataLbaOf x j fs < dataLbaOf c 0 fs + fs.sectorsPerCluster) ↔ x = c := by
  have hsector := h.sector_lt hj
  rw [dataLbaOf, dataLbaOf, Nat.zero_div]
  generalize j / sectorSize = k at hsector ⊢
  constructor
  · rintro ⟨hle, hlt⟩
    have hmul {a b : ℕ} (hab : a - 2 + 1 ≤ b - 2) :
        (a - 2) * fs.sectorsPerCluster + fs.sectorsPerCluster ≤ (b - 2) * fs.sectorsPerCluster := by
      simpa [Nat.add_mul] using Nat.mul_le_mul_right fs.sectorsPerCluster hab
    rcases Nat.lt_trichotomy x c with hxc | hxc | hxc
    · have := hmul (a := x) (b := c) (by omega)
      omega
    · exact hxc
    · have := hmul (a := c) (b := x) (by omega)
      omega
  · rintro rfl
    omega

theorem writeCluster_eq (hlow : 2 ≤ c) (hhigh : c < fs.totalClusters + 2) :
    fat32WriteCluster c buf fs =
      some { fs with disk := overlay (dataLbaOf c 0 fs) fs.sectorsPerCluster buf fs.disk } := by
  have hfew := h.few
  rw [fat32WriteCluster, if_neg (by omega)]
  refine congrArg some (foldl_range_invariant
    (fun k t => t = { fs with disk := overlay (dataLbaOf c 0 fs) k buf fs.disk }) ?_ ?_)
  · have hnone : overlay (dataLbaOf c 0 fs) 0 buf fs.disk = fs.disk := funext fun l => if_neg fun hl => by omega
    rw [hnone]
  · rintro k hk t rfl
    have hbase : dataLbaOf c 0 fs = fs.dataLba + (c - 2) * fs.sectorsPerCluster := by
      rw [dataLbaOf, Nat.zero_div, Nat.add_zero]
    rw [h.clusterToLba_eq hlow hhigh hk, fat32WriteSector, ← hbase]
    congr 1
    funext l
    by_cases hl : l = dataLbaOf c 0 fs + k
    · subst hl
      rw [update_self, overlay, if_pos (by omega), Nat.add_sub_cancel_left]
    · rw [update_of_ne hl]
      simp only [overlay]
      by_cases hin : dataLbaOf c 0 fs ≤ l ∧ l < dataLbaOf c 0 fs + k
      · rw [if_pos hin, if_pos (by omega)]
      · rw [if_neg hin, if_neg (by omega)]

theorem overlay_data {x j : ℕ} (hx : 2 ≤ x) (hc : 2 ≤ c) (hj : j < fs.bytesPerCluster) :
    overlay (dataLbaOf c 0 fs) fs.sectorsPerCluster buf fs.disk (dataLbaOf x j fs) (j % sectorSize) =
      if x = c then buf j else fs.disk (dataLbaOf x j fs) (j % sectorSize) := by
  rw [overlay]
  by_cases hxc : x = c
  · subst hxc
    have hdiff : dataLbaOf x j fs - dataLbaOf x 0 fs = j / sectorSize := by
      rw [dataLbaOf, dataLbaOf, Nat.zero_div]
      exact Nat.add_sub_cancel_left _ _
    rw [if_pos rfl, if_pos ((h.dataLbaOf_mem hx hc hj).mpr rfl), hdiff, Nat.div_add_mod']
  · rw [if_neg hxc, if_neg fun hmem => hxc ((h.dataLbaOf_mem hx hc hj).mp hmem)]

end

section

variable (h : Refines fs v)
include h

theorem nextCluster_spec (hc : c < v.clusters + 2) :
    (fat32NextCluster c fs).1 = v.fat c ∧ Refines (fat32NextCluster c fs).2 v := by
  obtain ⟨hs, rfl⟩ := h
  have hc' : c < fs.totalClusters + 2 := hc
  have hle : fs.fatLba ≤ fatLbaOf c fs := Nat.le_add_right _ _
  obtain ⟨hsound, hsame, hlba⟩ := loadSector_spec hs hle (hs.fatLbaOf_lt hc')
  rw [fat32NextCluster, hs.fat32FatLba_eq hc', hs.fat32FatOffset_eq hc']
  refine ⟨?_, hsound, hsame.volume_eq hs⟩
  rw [volume_fat hc', ← hsame.fatEntry_eq hs hc', fatEntry, hsame.fatLbaOf_eq, fatSector, if_pos hlba]

theorem setFat_spec (hc : c < v.clusters + 2) (hval : val ≤ fatMask) :
    Refines (fat32SetFat c val fs) (v.setFat c val) := by
  obtain ⟨hs, rfl⟩ := h
  have hc' : c < fs.totalClusters + 2 := hc
  have hle : fs.fatLba ≤ fatLbaOf c fs := Nat.le_add_right _ _
  obtain ⟨hsound, hsame, hlba⟩ := loadSector_spec hs hle (hs.fatLbaOf_lt hc')
  rw [fat32SetFat, hs.fat32FatLba_eq hc', hs.fat32FatOffset_eq hc', and_fatMask hval]
  generalize hload : fat32LoadSector (fatLbaOf c fs) fs = t at hsound hsame hlba ⊢
  have hentry : ∀ x < fs.totalClusters + 2, fatEntry x { t with
      sectorBuf := putLE 4 (c * 4 % sectorSize) val t.sectorBuf, sectorBufDirty := true } =
      if x = c then val else fatEntry x t := by
    intro x hx
    have hlbax := hsame.fatLbaOf_eq x
    change leNat (if t.sectorBufLba = fatLbaOf x t then putLE 4 (c * 4 % sectorSize) val t.sectorBuf
      else t.disk (fatLbaOf x t)) 4 (x * 4 % sectorSize) &&& fatMask = _
    by_cases hxc : x = c
    · subst hxc
      have hlt : val < 256 ^ 4 := by
        simp only [fatMask] at hval
        omega
      rw [if_pos rfl, if_pos (hlba.trans hlbax.symm), leNat_putLE, Nat.mod_eq_of_lt hlt, and_fatMask hval]
    · rw [if_neg hxc, fatEntry, fatSector]
      by_cases hsector : t.sectorBufLba = fatLbaOf x t
      · have hdisjoint : x * 4 % sectorSize + 4 ≤ c * 4 % sectorSize ∨ c * 4 % sectorSize + 4 ≤ x * 4 % sectorSize := by
          rw [hlba, hlbax, fatLbaOf, fatLbaOf] at hsector
          simp only [sectorSize] at hsector ⊢
          omega
        rw [if_pos hsector, if_pos hsector, leNat_putLE_disjoint hdisjoint]
      · rw [if_neg hsector, if_neg hsector]
  refine ⟨⟨hsound.valid, hsound.sectors, hsound.size, hsound.some, hsound.few, hsound.fat, hsound.data, ?_,
    fun hdirty => Bool.noConfusion hdirty⟩, ?_⟩
  · refine .inl ⟨?_, ?_⟩
    · change t.fatLba ≤ t.sectorBufLba
      rw [hlba, hsame.fatLba]
      exact hle
    · change t.sectorBufLba < t.dataLba
      rw [hlba, hsame.dataLba]
      exact hs.fatLbaOf_lt hc'
  · have hvol := hsame.volume_eq hs
    rw [← hvol]
    refine Volume.ext rfl rfl rfl rfl ?_ rfl
    funext x
    change (if x < t.totalClusters + 2 then _ else 0) = update t.volume.fat c val x
    by_cases hx : x < t.totalClusters + 2
    · rw [if_pos hx, hentry x (by rw [← hsame.total]; exact hx)]
      by_cases hxc : x = c
      · subst hxc
        rw [if_pos rfl, update_self]
      · rw [if_neg hxc, update_of_ne hxc, volume_fat hx]
    · rw [if_neg hx, update_of_ne (by rw [hsame.total] at hx; omega)]
      exact (if_neg hx).symm

theorem flushSector_spec : Refines (flushSector fs) v := by
  obtain ⟨hs, rfl⟩ := h
  have hdisk (l : ℕ) (hl : fs.dataLba ≤ l) := hs.flush_disk hl
  rw [flushSector] at hdisk ⊢
  split_ifs with hdirty
  · rw [if_pos hdirty] at hdisk
    refine ⟨⟨hs.valid, hs.sectors, hs.size, hs.some, hs.few, hs.fat, hs.data, .inl (hs.dirty_lt hdirty),
      fun _ _ o _ => ?_⟩, SameView.volume_eq ⟨rfl, rfl, rfl, rfl, rfl, rfl, rfl, fun l _ hl o ho => ?_,
      fun l hl o _ => congrFun (hdisk l hl) o⟩ hs⟩
    · exact (congrFun (update_self _ _ _) o).symm
    · change (if fs.sectorBufLba = l then fs.sectorBuf else update fs.disk fs.sectorBufLba fs.sectorBuf l) o =
        (if fs.sectorBufLba = l then fs.sectorBuf else fs.disk l) o
      by_cases hbuf : fs.sectorBufLba = l
      · rw [if_pos hbuf, if_pos hbuf]
      · rw [if_neg hbuf, if_neg hbuf, update_of_ne (Ne.symm hbuf)]
  · exact ⟨hs, rfl⟩

theorem sync_spec : Refines (fat32Sync fs) v := by
  rw [fat32Sync, if_pos h.sound.valid]
  exact flushSector_spec h

theorem Refines.setHint (hint free : ℕ) :
    Refines { fs with nextFreeHint := hint, freeClusters := free } { v with hint := hint } := by
  obtain ⟨hs, rfl⟩ := h
  exact ⟨⟨hs.valid, hs.sectors, hs.size, hs.some, hs.few, hs.fat, hs.data, hs.buffer, hs.clean⟩, rfl⟩

theorem Refines.setFree (free : ℕ) : Refines { fs with freeClusters := free } v := by
  obtain ⟨hs, rfl⟩ := h
  exact ⟨⟨hs.valid, hs.sectors, hs.size, hs.some, hs.few, hs.fat, hs.data, hs.buffer, hs.clean⟩, rfl⟩

theorem Refines.inRange_lt (hc : v.InRange c) : c < fatEocMin := by
  obtain ⟨hs, rfl⟩ := h
  exact Nat.lt_of_lt_of_le hc.2 hs.few

theorem readCluster_spec (hc : v.InRange c) :
    ∃ buf, fat32ReadCluster c fs = some buf ∧ ∀ j < v.clusterSize, buf j = v.data c j := by
  have hlt := h.inRange_lt hc
  obtain ⟨hs, rfl⟩ := h
  obtain ⟨hlow, hhigh⟩ : 2 ≤ c ∧ c < fs.totalClusters + 2 := hc
  refine ⟨_, if_neg (by omega), fun j hj => ?_⟩
  have hj' : j < fs.bytesPerCluster := hj
  rw [hs.clusterToLba_eq hlow hhigh (hs.sector_lt hj')]
  exact (if_pos ⟨⟨hlow, hhigh⟩, hj'⟩).symm

theorem writeCluster_spec (hc : v.InRange c) (buf : ℕ → UInt8) :
    ∃ fs', fat32WriteCluster c buf fs = some fs' ∧ Refines fs' (v.setData c buf) := by
  obtain ⟨hs, rfl⟩ := h
  obtain ⟨hlow, hhigh⟩ : 2 ≤ c ∧ c < fs.totalClusters + 2 := hc
  refine ⟨_, writeCluster_eq hs hlow hhigh, ?_, ?_⟩
  · refine ⟨hs.valid, hs.sectors, hs.size, hs.some, hs.few, hs.fat, hs.data, hs.buffer, fun hclean hlba o ho => ?_⟩
    have hlba' : fs.sectorBufLba < fs.dataLba := hlba
    change fs.sectorBuf o = overlay _ _ _ _ _ o
    rw [overlay_fat hlba']
    exact hs.clean hclean hlba' o ho
  · refine Volume.ext rfl rfl rfl rfl ?_ ?_
    · funext x
      change (if x < fs.totalClusters + 2 then fatEntry x _ else 0) = if x < fs.totalClusters + 2 then fatEntry x fs else 0
      by_cases hx : x < fs.totalClusters + 2
      · rw [if_pos hx, if_pos hx]
        change leNat (if fs.sectorBufLba = fatLbaOf x fs then fs.sectorBuf
          else overlay _ _ _ fs.disk (fatLbaOf x fs)) 4 _ &&& fatMask = _
        rw [overlay_fat (hs.fatLbaOf_lt hx)]
        rfl
      · rw [if_neg hx, if_neg hx]
    · funext x j
      change (if (2 ≤ x ∧ x < fs.totalClusters + 2) ∧ j < fs.bytesPerCluster
        then overlay _ _ _ _ (dataLbaOf x j fs) (j % sectorSize) else 0) =
        update fs.volume.data c (fun j => if j < fs.bytesPerCluster then buf j else 0) x j
      by_cases hin : (2 ≤ x ∧ x < fs.totalClusters + 2) ∧ j < fs.bytesPerCluster
      · rw [if_pos hin, overlay_data hs hin.1.1 hlow hin.2]
        by_cases hxc : x = c
        · subst hxc
          rw [if_pos rfl, update_self, if_pos hin.2]
        · rw [if_neg hxc, update_of_ne hxc]
          exact (if_pos hin).symm
      · rw [if_neg hin]
        by_cases hxc : x = c
        · subst hxc
          rw [update_self, if_neg fun hj => hin ⟨⟨hlow, hhigh⟩, hj⟩]
        · rw [update_of_ne hxc]
          exact (if_neg hin).symm

theorem scanFree_spec {n : ℕ} (hn : c + n ≤ v.clusters + 2) :
    (scanFree n c fs).1 = search (fun val => val = fatFree) v.fat n c ∧ Refines (scanFree n c fs).2 v := by
  induction n generalizing c fs with
  | zero => exact ⟨rfl, h⟩
  | succ n ih =>
    obtain ⟨hval, hnext⟩ := nextCluster_spec h (show c < v.clusters + 2 by omega)
    rw [scanFree, search]
    simp only [hval, decide_eq_true_eq]
    split
    · exact ⟨rfl, hnext⟩
    · exact ih hnext (by omega)

theorem takeCluster_spec (hc : v.InRange c) (hprev : prev < v.clusters + 2) :
    Refines (takeCluster prev c fs) (v.take prev c) := by
  have hlt := h.inRange_lt hc
  have hhint : (c + 1) % uintSize = c + 1 := Nat.mod_eq_of_lt (by simp only [uintSize, fatEocMin] at *; omega)
  have hfirst := setFat_spec h hc.2 (show fatEoc ≤ fatMask by decide)
  rw [takeCluster, Volume.take, hhint]
  by_cases hzero : prev ≠ 0
  · rw [if_pos hzero, if_pos hzero]
    exact (setFat_spec hfirst hprev (by simp only [fatMask, fatEocMin] at *; omega)).setHint _ _
  · rw [if_neg hzero, if_neg hzero]
    exact hfirst.setHint _ _

theorem zeroCluster_spec (hc : v.InRange c) : Refines (zeroCluster c fs) (v.setData c fun _ => 0) := by
  obtain ⟨t, hwrite, hrefines⟩ := writeCluster_spec h hc fun _ => 0
  rw [zeroCluster, hwrite]
  exact hrefines

end

namespace Volume

theorem freeAbove_some (h : v.freeAbove = some c) :
    v.InRange c ∧ v.fat c = 0 ∧ v.hint ≤ c ∧ ∀ x, v.hint ≤ x → 2 ≤ x → x < c → v.fat x ≠ 0 := by
  obtain ⟨hle, hlt, hfree, hbefore⟩ := search_some h
  refine ⟨⟨by omega, by omega⟩, of_decide_eq_true hfree, by omega, fun x hx hx2 hxc => ?_⟩
  exact of_decide_eq_false (hbefore x (by omega) hxc)

theorem freeAbove_none (h : v.freeAbove = none) {x : ℕ} (hx : v.InRange x) (hle : v.hint ≤ x) : v.fat x ≠ 0 := by
  obtain ⟨hlow, hhigh⟩ := hx
  have hused := search_none (i := x) h (by omega) (by omega)
  exact of_decide_eq_false hused

theorem freeBelow_some (h : v.freeBelow = some c) (hhint : v.hint ≤ v.clusters + 2) :
    v.InRange c ∧ v.fat c = 0 ∧ c < v.hint ∧ ∀ x, 2 ≤ x → x < c → v.fat x ≠ 0 := by
  obtain ⟨hle, hlt, hfree, hbefore⟩ := search_some h
  exact ⟨⟨by omega, by omega⟩, of_decide_eq_true hfree, by omega, fun x hx hxc =>
    of_decide_eq_false (hbefore x hx hxc)⟩

theorem freeBelow_none (h : v.freeBelow = none) {x : ℕ} (hx : v.InRange x) (hlt : x < v.hint) : v.fat x ≠ 0 := by
  have hused := search_none (i := x) h hx.1 (by omega)
  exact of_decide_eq_false hused

end Volume

theorem allocCluster_spec (h : Refines fs v) (hhint : v.hint ≤ v.clusters + 2) (hprev : prev < v.clusters + 2) :
    (fat32AllocCluster prev fs).1 = (v.alloc prev).1 ∧
      Refines (fat32AllocCluster prev fs).2 (v.alloc prev).2 := by
  have hstart : (if 2 < fs.nextFreeHint then fs.nextFreeHint else 2) = max v.hint 2 := by
    rw [← h.volume]
    change _ = max fs.nextFreeHint 2
    split <;> omega
  have hlimit : (fs.totalClusters + 2) % uintSize = v.clusters + 2 := by
    have hfew := h.sound.few
    rw [← h.volume]
    change _ = fs.totalClusters + 2
    exact Nat.mod_eq_of_lt (by simp only [uintSize, fatEocMin] at *; omega)
  obtain ⟨habove, hrefines⟩ := scanFree_spec (c := max v.hint 2) (n := v.clusters + 2 - max v.hint 2) h (by
    have hsome := h.sound.some
    rw [← h.volume] at hhint ⊢
    change fs.nextFreeHint ≤ fs.totalClusters + 2 at hhint
    change max fs.nextFreeHint 2 + (fs.totalClusters + 2 - max fs.nextFreeHint 2) ≤ fs.totalClusters + 2
    omega)
  rw [fat32AllocCluster, hstart, hlimit, Volume.alloc]
  change _ = v.freeAbove at habove
  cases hscan : scanFree (v.clusters + 2 - max v.hint 2) (max v.hint 2) fs with
  | mk found t =>
    rw [hscan] at habove hrefines
    simp only at habove hrefines ⊢
    rw [← habove]
    cases found with
    | some c =>
      have hc := (Volume.freeAbove_some habove.symm).1
      exact ⟨rfl, zeroCluster_spec (takeCluster_spec hrefines hc hprev) (by
        rw [Volume.take]
        split <;> exact hc)⟩
    | none =>
      obtain ⟨hbelow, hrefines'⟩ := scanFree_spec (c := 2) (n := max v.hint 2 - 2) hrefines (by
        have hsome := h.sound.some
        omega)
      change _ = v.freeBelow at hbelow
      cases hscan' : scanFree (max v.hint 2 - 2) 2 t with
      | mk found u =>
        rw [hscan'] at hbelow hrefines'
        simp only [hscan'] at hbelow hrefines' ⊢
        rw [← hbelow]
        cases found with
        | some c => exact ⟨rfl, takeCluster_spec hrefines' (Volume.freeBelow_some hbelow.symm hhint).1 hprev⟩
        | none => exact ⟨rfl, hrefines'⟩

end AetherOs.Fat32
