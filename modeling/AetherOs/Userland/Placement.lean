import AetherOs.Userland.Image

/-! # Where the bytes of an executable end up -/

namespace AetherOs.Userland

open Paging Phdr

section

def Phdr.content (file : ElfFile) (ph : Phdr) (i : ℕ) : BitVec 8 :=
  if i < ph.pFilesz then file.byte (ph.pOffset + i) else 0

def Placed (file : ElfFile) (s : Machine) (r : ℕ) : Prop :=
  ∀ k < phnum file, (phdrAt file k).pType = 1 → ∀ i < (phdrAt file k).pMemsz,
    userLoad s r ((phdrAt file k).pVaddr + i) = some ((phdrAt file k).content file i)

def Spoiled (file : ElfFile) (k i : ℕ) : Prop :=
  ((phdrAt file k).pVaddr % pageSize ≠ 0 ∧
    ((phdrAt file k).pVaddr + i) / pageSize = (phdrAt file k).pVaddr / pageSize) ∨
  ∃ j < phnum file, k < j ∧ (phdrAt file j).loads ∧
    (phdrAt file j).covers (((phdrAt file k).pVaddr + i) / pageSize)

instance (file : ElfFile) (k i : ℕ) : Decidable (Spoiled file k i) := inferInstanceAs (Decidable (_ ∨ _))

def Unspoiled (file : ElfFile) : Prop :=
  ∀ k < phnum file, (phdrAt file k).loads → ∀ i < (phdrAt file k).pFilesz,
    Spoiled file k i → file.byte ((phdrAt file k).pOffset + i) = 0

instance (file : ElfFile) : Decidable (Unspoiled file) := Nat.decidableBallLT _ _

variable {file : ElfFile} {ph : Phdr} {k n w i N : ℕ}

/-! ## One segment -/

def Phdr.firstZero (file : ElfFile) (ph : Phdr) : Prop :=
  ∀ i < chunkSize ph.pVaddr ph.pFilesz, file.byte (ph.pOffset + i) = 0

theorem eq_zero_of_shift {A : Type*} [Zero A] {f : ℕ → A} {o c : ℕ} (ho : o ≠ 0)
    (hshift : ∀ i < c, f i = if o ≤ i then f (i - o) else 0) : ∀ i < c, f i = 0 := by
  intro i
  induction i using Nat.strong_induction_on with
  | _ i ih =>
    intro hi
    rw [hshift i hi]
    split
    · exact ih (i - o) (by omega) (by omega)
    · rfl

theorem Phdr.covers_of_lt (hi : i < ph.pMemsz) : ph.covers ((ph.pVaddr + i) / pageSize) := by
  simp only [covers, pageSize]
  omega

theorem segmentByte_aligned (file : ElfFile) (hcovers : ph.covers (w / pageSize))
    (hplace : ph.pVaddr % pageSize = 0 ∨ w / pageSize ≠ ph.pVaddr / pageSize) :
    ph.pVaddr ≤ w ∧ segmentByte file ph w = ph.content file (w - ph.pVaddr) := by
  have hle : ph.pVaddr ≤ w := by
    simp only [covers, pageSize] at *
    omega
  refine ⟨hle, ?_⟩
  rw [segmentByte, content]
  by_cases hfirst : w / pageSize = ph.pVaddr / pageSize
  · have haligned := hplace.resolve_right fun hne => hne hfirst
    have hoff : w % pageSize = w - ph.pVaddr := by
      simp only [pageSize] at *
      omega
    rw [if_pos hfirst, haligned, Nat.mul_zero, Nat.sub_zero, hoff]
    refine if_congr ?_ rfl rfl
    simp only [chunkSize, haligned, pageSize] at *
    omega
  · rw [if_neg hfirst]
    refine if_congr ?_ rfl rfl
    omega

theorem segmentByte_firstZero (hzero : ph.firstZero file) (hfirst : w / pageSize = ph.pVaddr / pageSize) :
    segmentByte file ph w = 0 := by
  rw [segmentByte, if_pos hfirst]
  split
  · exact hzero _ (by omega)
  · rfl

theorem segmentByte_outside (hcovers : ph.covers (w / pageSize)) (hsize : ph.pFilesz ≤ ph.pMemsz)
    (hstart : w / pageSize = ph.pVaddr / pageSize → ph.pVaddr % pageSize = 0 ∨ ph.firstZero file)
    (hout : w < ph.pVaddr ∨ ph.pVaddr + ph.pMemsz ≤ w) : segmentByte file ph w = 0 := by
  by_cases hplace : ph.pVaddr % pageSize = 0 ∨ w / pageSize ≠ ph.pVaddr / pageSize
  · obtain ⟨hle, heq⟩ := segmentByte_aligned file hcovers hplace
    rw [heq, content, if_neg (by omega)]
  · obtain ⟨hunaligned, hfirst⟩ := not_or.mp hplace
    have hfirst := not_not.mp hfirst
    exact segmentByte_firstZero ((hstart hfirst).resolve_left hunaligned) hfirst

theorem lt_chunkSize_iff : i < chunkSize ph.pVaddr ph.pFilesz ↔
    i < ph.pFilesz ∧ (ph.pVaddr + i) / pageSize = ph.pVaddr / pageSize := by
  simp only [chunkSize, pageSize]
  omega

/-! ## The last segment of a page -/

structure LastOf (file : ElfFile) (N n k : ℕ) : Prop where
  lt : k < N
  loads : (phdrAt file k).loads
  covers : (phdrAt file k).covers n
  last : ∀ j < N, k < j → (phdrAt file j).loads → ¬ (phdrAt file j).covers n

theorem exists_lastOf (hk : k < N) (hloads : (phdrAt file k).loads) (hcovers : (phdrAt file k).covers n) :
    ∃ j, k ≤ j ∧ LastOf file N n j := by
  induction N with
  | zero => omega
  | succ N ih =>
    by_cases htop : (phdrAt file N).loads ∧ (phdrAt file N).covers n
    · exact ⟨N, by omega, by omega, htop.1, htop.2, fun j hj hlt => by omega⟩
    · have hne : k ≠ N := by
        rintro rfl
        exact htop ⟨hloads, hcovers⟩
      obtain ⟨j, hkj, hlast⟩ := ih (by omega)
      refine ⟨j, hkj, by have := hlast.lt; omega, hlast.loads, hlast.covers, fun x hx hlt hxl hxc => ?_⟩
      by_cases hxN : x = N
      · exact htop ⟨hxN ▸ hxl, hxN ▸ hxc⟩
      · exact hlast.last x (by omega) hlt hxl hxc

theorem LastOf.image_eq (h : LastOf file N (w / pageSize) k) :
    image file N w = some (segmentByte file (phdrAt file k) w) := by
  induction N with
  | zero => exact absurd h.lt (by omega)
  | succ N ih =>
    have hlt := h.lt
    rw [image]
    by_cases hk : k = N
    · rw [← hk, if_pos ⟨h.loads, h.covers⟩]
    · rw [if_neg fun hc => h.last N (by omega) (by omega) hc.1 hc.2]
      exact ih ⟨by omega, h.loads, h.covers, fun j hj => h.last j (by omega)⟩

/-! ## All segments -/

def ImagePlaced (file : ElfFile) : Prop :=
  ∀ k < phnum file, (phdrAt file k).loads → ∀ i < (phdrAt file k).pMemsz,
    image file (phnum file) ((phdrAt file k).pVaddr + i) = some ((phdrAt file k).content file i)

section Image

variable (hwf : WellFormed file)

include hwf

theorem WellFormed.outside {j : ℕ} (hj : j < phnum file) (hk : k < phnum file) (hne : j ≠ k)
    (hjl : (phdrAt file j).loads) (hkl : (phdrAt file k).loads) (hi : i < (phdrAt file k).pMemsz) :
    (phdrAt file k).pVaddr + i < (phdrAt file j).pVaddr ∨
      (phdrAt file j).pVaddr + (phdrAt file j).pMemsz ≤ (phdrAt file k).pVaddr + i := by
  have happart := hwf.disjoint j hj k hk hne hjl hkl
  rw [apart] at happart
  omega

theorem imagePlaced_of_unspoiled (hun : Unspoiled file) : ImagePlaced file := by
  intro k hk hloads i hi
  have hstart (j : ℕ) (hj : j < phnum file) (hjl : (phdrAt file j).loads) :
      (phdrAt file j).pVaddr % pageSize = 0 ∨ (phdrAt file j).firstZero file := by
    refine or_iff_not_imp_left.mpr fun hunaligned x hx => ?_
    obtain ⟨hx, hpage⟩ := lt_chunkSize_iff.mp hx
    exact hun j hj hjl x hx (.inl ⟨hunaligned, hpage⟩)
  obtain ⟨j, hkj, hlast⟩ := exists_lastOf hk hloads (covers_of_lt hi)
  rw [hlast.image_eq]
  refine congrArg some ?_
  by_cases hjk : j = k
  · subst hjk
    by_cases hplace : (phdrAt file j).pVaddr % pageSize = 0 ∨
        ((phdrAt file j).pVaddr + i) / pageSize ≠ (phdrAt file j).pVaddr / pageSize
    · rw [(segmentByte_aligned _ hlast.covers hplace).2, Nat.add_sub_cancel_left]
    · obtain ⟨hunaligned, hfirst⟩ := not_or.mp hplace
      have hzero := (hstart j hk hloads).resolve_left hunaligned
      rw [segmentByte_firstZero hzero (not_not.mp hfirst), content]
      split_ifs with hfile
      · exact (hzero i (lt_chunkSize_iff.mpr ⟨hfile, not_not.mp hfirst⟩)).symm
      · rfl
  · have hcontent : (phdrAt file k).content file i = 0 := by
      rw [content]
      split_ifs with hfile
      · exact hun k hk hloads i hfile (.inr ⟨j, hlast.lt, by omega, hlast.loads, hlast.covers⟩)
      · rfl
    rw [hcontent]
    exact segmentByte_outside hlast.covers (hwf.bounded j hlast.lt hlast.loads).filesz_le
      (fun _ => hstart j hlast.lt hlast.loads) (hwf.outside hlast.lt hk hjk hlast.loads hloads hi)

theorem firstZero_of_image (hright : ImagePlaced file)
    (hlast : LastOf file (phnum file) ((phdrAt file k).pVaddr / pageSize) k) :
    (phdrAt file k).pVaddr % pageSize = 0 ∨ (phdrAt file k).firstZero file := by
  refine or_iff_not_imp_left.mpr fun hunaligned => ?_
  refine eq_zero_of_shift (f := fun i => file.byte ((phdrAt file k).pOffset + i)) hunaligned fun i hi => ?_
  obtain ⟨hfile, hpage⟩ := lt_chunkSize_iff.mp hi
  have hmem := (hwf.bounded k hlast.lt hlast.loads).filesz_le
  have hread := hright k hlast.lt hlast.loads i (by omega)
  rw [← hpage] at hlast
  rw [hlast.image_eq, content, if_pos hfile, segmentByte, if_pos hpage] at hread
  rw [← Option.some.inj hread]
  have hoff : ((phdrAt file k).pVaddr + i) % pageSize = (phdrAt file k).pVaddr % pageSize + i := by
    simp only [pageSize] at *
    omega
  rw [hoff]
  by_cases hle : (phdrAt file k).pVaddr % pageSize ≤ i
  · rw [if_pos (by omega), if_pos hle]
    exact congrArg file.byte (by omega)
  · rw [if_neg (by omega), if_neg hle]

theorem unspoiled_of_image (hright : ImagePlaced file) : Unspoiled file := by
  intro k hk hloads i hfile hspoiled
  have hi : i < (phdrAt file k).pMemsz := hfile.trans_le (hwf.bounded k hk hloads).filesz_le
  obtain ⟨j, hkj, hlast⟩ := exists_lastOf hk hloads (covers_of_lt hi)
  have hread := hright k hk hloads i hi
  rw [hlast.image_eq, content, if_pos hfile] at hread
  have hread := Option.some.inj hread
  have hstart (hfirst : ((phdrAt file k).pVaddr + i) / pageSize = (phdrAt file j).pVaddr / pageSize) :
      (phdrAt file j).pVaddr % pageSize = 0 ∨ (phdrAt file j).firstZero file :=
    firstZero_of_image hwf hright (hfirst ▸ hlast)
  by_cases hjk : j = k
  · subst hjk
    rcases hspoiled with ⟨hunaligned, hfirst⟩ | ⟨x, hx, hlt, hxl, hxc⟩
    · exact (hstart hfirst).resolve_left hunaligned i (lt_chunkSize_iff.mpr ⟨hfile, hfirst⟩)
    · exact absurd hxc (hlast.last x hx hlt hxl)
  · rw [← hread]
    exact segmentByte_outside hlast.covers (hwf.bounded j hlast.lt hlast.loads).filesz_le hstart
      (hwf.outside hlast.lt hk hjk hlast.loads hloads hi)

end Image

theorem userLoad_elfLoad_new {s s' : Machine} {live : Finset ℕ} {kernel : Set ℕ} {p : Process}
    (h : UserState s live kernel) (hcreate : vmmCreateAddressSpace s = (some p.addressSpace, s'))
    (hsize : file.size < wordSize)
    (hbounded : ∀ k < phnum file, (phdrAt file k).loads → (phdrAt file k).Bounded file)
    (hfits : ∀ k < phnum file, (phdrAt file k).loads → (phdrAt file k).fits)
    (hok : (elfLoad file p s').code = 0) (w : ℕ) :
    userLoad (elfLoad file p s').machine p.addressSpace w = image file (phnum file) w := by
  have hroot := h.spaces.tables.shared_kept _ h.spaces.kernelHalf.root
  have hempty : EmptySpace s' p.addressSpace := by
    obtain ⟨hz, -, rfl⟩ := vmmCreateAddressSpace_eq hroot hcreate
    refine emptySpace_newSpace fun heq => hroot ?_
    rwa [heq]
  exact userLoad_elfLoad (h.create hcreate).1 (Finset.mem_insert_self _ _) hempty.frameOf_eq_none hsize hbounded hfits
    hok w

def loadHeader (offset vaddr filesz memsz : ℕ) : List (BitVec 8) :=
  leBytes 1 4 ++ leBytes 6 4 ++ leBytes offset 8 ++ leBytes vaddr 8 ++ leBytes 0 8 ++ leBytes filesz 8 ++
    leBytes memsz 8 ++ leBytes pageSize 8

def segmentsFile (phdrs : List (List (BitVec 8))) (data : List (BitVec 8)) : ElfFile :=
  let header := leBytes 0x464C457F 4 ++ leBytes 0x102 12 ++ leBytes 2 2 ++ leBytes 62 2 ++ leBytes 1 4 ++
    leBytes 0x400000 8 ++ leBytes 64 8 ++ leBytes 0 12 ++ leBytes 64 2 ++ leBytes 56 2 ++ leBytes phdrs.length 2 ++
    leBytes 0 6
  let bytes := header ++ phdrs.flatten ++ data
  ⟨bytes.length, fun i => bytes.getD i 0⟩

def apartFile : ElfFile :=
  segmentsFile [loadHeader 176 0x400000 4 16, loadHeader 180 0x401010 0 8] (leBytes 0x04030201 4)

def shiftedFile : ElfFile := segmentsFile [loadHeader 120 0x400010 4 4] (leBytes 0x04030201 4)

def sharedFile : ElfFile :=
  segmentsFile [loadHeader 176 0x400000 4 4, loadHeader 180 0x400800 0 8] (leBytes 0x04030201 4)

def loadBare (file : ElfFile) : LoadResult := elfLoad file ⟨2, 0, 0⟩ (vmmCreateAddressSpace bareMachine).2

end

/-! ## Files with parts outside their bytes -/

section

structure Contained (file : ElfFile) : Prop where
  table : readLe file 32 8 + phnum file * readLe file 54 2 ≤ file.size
  in_file : ∀ k < phnum file, (phdrAt file k).loads → (phdrAt file k).pOffset + (phdrAt file k).pFilesz ≤ file.size
  filesz_le : ∀ k < phnum file, (phdrAt file k).loads → (phdrAt file k).pFilesz ≤ (phdrAt file k).pMemsz
  no_wrap : ∀ k < phnum file, (phdrAt file k).loads → (phdrAt file k).pVaddr + (phdrAt file k).pMemsz < wordSize

def phdrBase (file : ElfFile) (k : ℕ) : ℕ := addWord (readLe file 32 8) (intProduct k (readLe file 54 2))

structure Sane (file : ElfFile) : Prop where
  contained : Contained file
  headers : ∀ k < phnum file, phdrBase file k + 56 ≤ file.size
  user : ∀ k < phnum file, (phdrAt file k).loads →
    (phdrAt file k).pVaddr + (phdrAt file k).pMemsz ≤ userPages * pageSize
  fits : ∀ k < phnum file, (phdrAt file k).loads → (phdrAt file k).fits

structure SameFile (file other : ElfFile) : Prop where
  size : other.size = file.size
  byte : ∀ i < file.size, other.byte i = file.byte i

def LoadsTo (file : ElfFile) (content : ℕ → Option (BitVec 8)) : Prop :=
  ∃ (s s' : Machine) (live : Finset ℕ) (kernel : Set ℕ) (p : Process), UserState s live kernel ∧
    vmmCreateAddressSpace s = (some p.addressSpace, s') ∧ (elfLoad file p s').code = 0 ∧
    content = userLoad (elfLoad file p s').machine p.addressSpace

theorem phdrAt_fields (file : ElfFile) (k : ℕ) : phdrAt file k =
    { pType := readLe file (phdrBase file k) 4
      pFlags := BitVec.ofNat 32 (readLe file (addWord (phdrBase file k) 4) 4)
      pOffset := readLe file (addWord (phdrBase file k) 8) 8
      pVaddr := readLe file (addWord (phdrBase file k) 16) 8
      pFilesz := readLe file (addWord (phdrBase file k) 32) 8
      pMemsz := readLe file (addWord (phdrBase file k) 40) 8 } := rfl

variable {file other : ElfFile} {k w : ℕ} {ph : Phdr}

/-! ## The same bytes -/

section Same

variable (hsame : SameFile file other) (hsize : file.size < wordSize)

include hsame hsize

theorem SameFile.readLe_eq (off bytes : ℕ) (hin : off + bytes ≤ file.size) : readLe other off bytes = readLe file off bytes := by
  induction bytes generalizing off with
  | zero => rfl
  | succ bytes ih =>
    rw [readLe, readLe, hsame.byte off (by omega)]
    by_cases hlast : bytes = 0
    · subst hlast
      rfl
    · rw [addWord_eq (by omega), ih _ (by omega)]

theorem SameFile.phdrBase_eq (hlong : 64 ≤ file.size) : phdrBase other k = phdrBase file k ∧ phnum other = phnum file := by
  rw [phdrBase, phdrBase, phnum, phnum, hsame.readLe_eq hsize 32 _ (by omega),
    hsame.readLe_eq hsize 54 _ (by omega), hsame.readLe_eq hsize 56 _ (by omega)]
  exact ⟨rfl, rfl⟩

theorem SameFile.phdrAt_eq (hlong : 64 ≤ file.size) (hin : phdrBase file k + 56 ≤ file.size) :
    phdrAt other k = phdrAt file k := by
  obtain ⟨hbase, -⟩ := hsame.phdrBase_eq hsize hlong (k := k)
  have hfield (d bytes : ℕ) (hd : d + bytes ≤ 56) :
      readLe other (addWord (phdrBase other k) d) bytes = readLe file (addWord (phdrBase file k) d) bytes := by
    rw [hbase, addWord_eq (by omega)]
    exact hsame.readLe_eq hsize _ _ (by omega)
  have htype : readLe other (phdrBase other k) 4 = readLe file (phdrBase file k) 4 := by
    rw [hbase]
    exact hsame.readLe_eq hsize _ _ (by omega)
  rw [phdrAt_fields, phdrAt_fields, htype, hfield 4 4 (by omega), hfield 8 8 (by omega), hfield 16 8 (by omega),
    hfield 32 8 (by omega), hfield 40 8 (by omega)]

omit hsize in
theorem SameFile.segmentByte_eq (hin : ph.pOffset + ph.pFilesz ≤ file.size) (hcovers : ph.covers (w / pageSize)) :
    segmentByte other ph w = segmentByte file ph w := by
  rw [segmentByte, segmentByte]
  refine ite_congr rfl (fun hfirst => ite_congr rfl (fun hpiece => hsame.byte _ ?_) fun _ => rfl) fun hlater =>
    ite_congr rfl (fun hpiece => hsame.byte _ ?_) fun _ => rfl
  · have hle : chunkSize ph.pVaddr ph.pFilesz ≤ ph.pFilesz := min_le_left _ _
    omega
  · have hle := covers_later hcovers hlater
    omega

theorem SameFile.image_eq (hsane : Sane file) (hlong : 64 ≤ file.size) (hk : k ≤ phnum file) :
    image other k w = image file k w := by
  induction k with
  | zero => rfl
  | succ k ih =>
    rw [image, image, hsame.phdrAt_eq hsize hlong (hsane.headers k hk), ih (by omega)]
    refine ite_congr rfl (fun hloads => congrArg some ?_) fun _ => rfl
    exact hsame.segmentByte_eq (hsane.contained.in_file k hk hloads.1) hloads.2

end Same

theorem SameFile.userLoad_eq (hsame : SameFile file other) (hsize : file.size < wordSize) (hlong : 64 ≤ file.size)
    (hsane : Sane file) {s s' : Machine} {live : Finset ℕ} {kernel : Set ℕ} {p : Process}
    (h : UserState s live kernel) (hcreate : vmmCreateAddressSpace s = (some p.addressSpace, s'))
    (hok : (elfLoad other p s').code = 0) :
    userLoad (elfLoad other p s').machine p.addressSpace = image file (phnum file) := by
  have hnum := (hsame.phdrBase_eq hsize hlong (k := 0)).2
  have hphdr (k : ℕ) (hk : k < phnum file) : phdrAt other k = phdrAt file k :=
    hsame.phdrAt_eq hsize hlong (hsane.headers k hk)
  have hbounded (k : ℕ) (hk : k < phnum other) (hloads : (phdrAt other k).loads) :
      (phdrAt other k).Bounded other := by
    rw [hnum] at hk
    rw [hphdr k hk] at hloads ⊢
    exact ⟨hsane.contained.filesz_le k hk hloads, hsame.size ▸ hsane.contained.in_file k hk hloads,
      hsane.user k hk hloads⟩
  have hfits (k : ℕ) (hk : k < phnum other) (hloads : (phdrAt other k).loads) : (phdrAt other k).fits := by
    rw [hnum] at hk
    rw [hphdr k hk] at hloads ⊢
    exact hsane.fits k hk hloads
  funext w
  rw [userLoad_elfLoad_new h hcreate (hsame.size ▸ hsize) hbounded hfits hok, hnum]
  exact hsame.image_eq hsize hsane hlong le_rfl

theorem elfValidate_of_code {p : Process} {s : Machine} (hok : (elfLoad file p s).code = 0) :
    elfValidate file ∧ 64 ≤ file.size := by
  have hvalid : elfValidate file := by
    rw [elfLoad] at hok
    split_ifs at hok with hvalid
    · exact hvalid
    · exact absurd hok (by decide : -einval ≠ 0)
  refine ⟨hvalid, ?_⟩
  simp only [elfValidate, Bool.and_eq_true, decide_eq_true_eq] at hvalid
  exact hvalid.1.1.1.1.1

def plainFile : ElfFile := segmentsFile [loadHeader 120 0x400000 4 16] (leBytes 0x04030201 4)

theorem loadsTo_bare (hok : (loadBare file).code = 0) : LoadsTo file (userLoad (loadBare file).machine 2) :=
  ⟨bareMachine, (vmmCreateAddressSpace bareMachine).2, _, _, ⟨2, 0, 0⟩, userState_none_bareMachine,
    Prod.ext (by decide +kernel) rfl, hok, rfl⟩

def truncatedFile (data : ℕ) : ElfFile :=
  { segmentsFile [loadHeader 120 0x400000 4 16] (leBytes data 4) with size := 120 }

end

end AetherOs.Userland
