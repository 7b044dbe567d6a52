import AetherOs.Userland.KernelHalf

/-! # The memory image of an executable -/

namespace AetherOs.Userland

open Base Paging Function Phdr Except

def Phdr.covers (ph : Phdr) (n : ℕ) : Prop :=
  ph.pVaddr / pageSize ≤ n ∧ n * pageSize < ph.pVaddr + ph.pMemsz

instance (ph : Phdr) (n : ℕ) : Decidable (ph.covers n) := inferInstanceAs (Decidable (_ ∧ _))

def segmentByte (file : ElfFile) (ph : Phdr) (w : ℕ) : BitVec 8 :=
  if w / pageSize = ph.pVaddr / pageSize then
    if 2 * (ph.pVaddr % pageSize) ≤ w % pageSize ∧
        w % pageSize < 2 * (ph.pVaddr % pageSize) + chunkSize ph.pVaddr ph.pFilesz then
      file.byte (ph.pOffset + (w % pageSize - 2 * (ph.pVaddr % pageSize)))
    else 0
  else if w < ph.pVaddr + ph.pFilesz then file.byte (ph.pOffset + (w - ph.pVaddr)) else 0

def image (file : ElfFile) : ℕ → ℕ → Option (BitVec 8)
  | 0, _ => none
  | k + 1, w =>
    if (phdrAt file k).loads ∧ (phdrAt file k).covers (w / pageSize) then some (segmentByte file (phdrAt file k) w)
    else image file k w

variable {s s' s₀ : Machine} {live : Finset ℕ} {kernel : Set ℕ} {r v w d off src count : ℕ} {flags : BitVec 64}
variable {file : ElfFile} {ph : Phdr}

/-! ## Pages and pieces -/

theorem userPage_of_lt (hv : v < userPages * pageSize) : userPage v = v / pageSize := by
  simp only [userPage, userPages, pageSize] at *
  omega

theorem byteAt_zero (off : ℕ) : byteAt (fun _ => 0) off = 0 := by
  simp [byteAt]

theorem userLoad_copyBytes (file : ElfFile) (src : ℕ) (h : UserState s live kernel) (hr : r ∈ live)
    (hd : frameOf s r (v / pageSize) = some d)
    (hfits : off + count ≤ pageSize) :
    Keeps live kernel s (copyBytes file src (d * pageSize + off) count s) ∧
      ∀ w, userLoad (copyBytes file src (d * pageSize + off) count s) r w =
        if w / pageSize = v / pageSize ∧ off ≤ w % pageSize ∧ w % pageSize < off + count
        then some (file.byte (addWord src (w % pageSize - off))) else userLoad s r w := by
  obtain ⟨page, heq, hpage⟩ := copyBytes_bytes (s := s) file src d hfits
  rw [heq]
  refine ⟨(h.storeFrame hr hd page).1, fun w => ?_⟩
  rw [userLoad, h.pageOf_storeFrame hr hd]
  by_cases hw : w / pageSize = v / pageSize
  · have hold : userLoad s r w = some (byteAt (s.mem d) (w % pageSize)) := by
      rw [userLoad, pageOf, hw, hd]
      rfl
    rw [if_pos hw, Option.map_some, hpage, hold]
    simp only [hw, true_and]
    split <;> rfl
  · rw [if_neg hw, if_neg fun hc => hw hc.1]
    rfl

/-! ## One segment -/

structure Phdr.Bounded (file : ElfFile) (ph : Phdr) : Prop where
  filesz_le : ph.pFilesz ≤ ph.pMemsz
  in_file : ph.pOffset + ph.pFilesz ≤ file.size
  in_user : ph.pVaddr + ph.pMemsz ≤ userPages * pageSize

instance : Decidable (ph.Bounded file) :=
  decidable_of_iff (_ ∧ _ ∧ _) ⟨fun h => ⟨h.1, h.2.1, h.2.2⟩, fun h => ⟨h.1, h.2, h.3⟩⟩

theorem Phdr.Bounded.covers_iff (hb : ph.Bounded file) (hloads : ph.loads) {n : ℕ} :
    ph.covers n ↔ ph.pVaddr / pageSize ≤ n ∧ n < ph.pVaddr / pageSize + ph.pages := by
  have huser := hb.in_user
  have hpos := Nat.pos_of_ne_zero hloads.2
  simp only [covers, pages, vendAligned, vaddrAligned, alignUp, alignDown, addWord, subWord,
    wordSize, userPages, pageSize] at *
  omega

theorem Phdr.Bounded.page_addr (hb : ph.Bounded file) (hloads : ph.loads) {i : ℕ} (hi : i < ph.pages) :
    addWord ph.vaddrAligned (i * pageSize) = (ph.pVaddr / pageSize + i) * pageSize ∧
      (ph.pVaddr / pageSize + i) * pageSize < userPages * pageSize := by
  have hcovers := (hb.covers_iff hloads (n := ph.pVaddr / pageSize + i)).mpr (by omega)
  have huser := hb.in_user
  simp only [covers, vaddrAligned, alignDown, addWord, wordSize, userPages, pageSize] at *
  omega

theorem Phdr.covers_later (hcovers : ph.covers (w / pageSize)) (hfirst : w / pageSize ≠ ph.pVaddr / pageSize) :
    ph.pVaddr + chunkSize ph.pVaddr ph.pFilesz ≤ w := by
  simp only [covers, chunkSize, pageSize] at *
  omega

theorem segmentByte_eq (hb : ph.Bounded file) (hloads : ph.loads) (o : Option (BitVec 8)) :
    (if ph.pVaddr + chunkSize ph.pVaddr ph.pFilesz ≤ w ∧ w < ph.pVaddr + ph.pFilesz then
      some (file.byte (ph.pOffset + (w - ph.pVaddr)))
    else if w / pageSize = ph.pVaddr / pageSize ∧ 2 * (ph.pVaddr % pageSize) ≤ w % pageSize ∧
        w % pageSize < 2 * (ph.pVaddr % pageSize) + chunkSize ph.pVaddr ph.pFilesz then
      some (file.byte (ph.pOffset + (w % pageSize - 2 * (ph.pVaddr % pageSize))))
    else if ph.covers (w / pageSize) then some 0 else o) =
      if ph.covers (w / pageSize) then some (segmentByte file ph w) else o := by
  have hsize := hb.filesz_le
  have hmem := Nat.pos_of_ne_zero hloads.2
  rw [segmentByte]
  by_cases hfirst : w / pageSize = ph.pVaddr / pageSize
  · have hcovers : ph.covers (w / pageSize) := by
      simp only [covers, pageSize] at hfirst ⊢
      omega
    have hrest : ¬ (ph.pVaddr + chunkSize ph.pVaddr ph.pFilesz ≤ w ∧ w < ph.pVaddr + ph.pFilesz) := by
      simp only [chunkSize, pageSize] at *
      omega
    simp only [hrest, hfirst, hfirst ▸ hcovers, if_true, if_false, true_and]
    split <;> rfl
  · simp only [hfirst, false_and, if_false]
    by_cases hcovers : ph.covers (w / pageSize)
    · have hlater := covers_later hcovers hfirst
      simp only [hlater, hcovers, true_and, if_true]
      split <;> rfl
    · have hout : ¬ (ph.pVaddr + chunkSize ph.pVaddr ph.pFilesz ≤ w ∧ w < ph.pVaddr + ph.pFilesz) := by
        simp only [covers, chunkSize, pageSize] at *
        omega
      simp only [hout, hcovers, if_false]

section

variable (h : UserState s live kernel) (hr : r ∈ live)
include h hr

theorem userLoad_loadPage (hv : v < userPages * pageSize)
    (hflags : SmallFlags flags) (hok : loadPage r v flags s = .ok s') :
    userLoad s' r w = if w / pageSize = v / pageSize then some 0 else userLoad s r w := by
  obtain ⟨hkeeps, hspare⟩ := h.alloc
  rw [loadPage] at hok
  split at hok
  · cases hok
  · rename_i hne
    obtain ⟨z, heq, hz⟩ := hspare hne
    obtain ⟨hclear, hz'⟩ := hkeeps.state.storeSpare hz fun _ => 0
    rw [heq, clearFrame, frame_div] at hok
    dsimp only at hok
    split at hok
    · rename_i hcode
      obtain rfl := ok.inj hok
      have hpage := hclear.state.pageOf_map (m := w / pageSize) hr (userIndex_of_lt hv) hz' hflags hcode
      rw [userPage_of_lt hv] at hpage
      refine (congrArg (Option.map _) hpage).trans ?_
      split
      · exact congrArg some ((congrArg (byteAt · _) (update_self z _ _)).trans (byteAt_zero _))
      · exact congrArg (Option.map _) (hz.pageOf_store hr _)
    · cases hok

theorem userLoad_loadPages (hb : ph.Bounded file) (hloads : ph.loads)
    (hok : (List.range ph.pages).foldlM
      (fun s i => loadPage r (addWord ph.vaddrAligned (i * pageSize)) ph.pteFlags s) s = .ok s') :
    Keeps live kernel s s' ∧
      ∀ w, userLoad s' r w = if ph.covers (w / pageSize) then some 0 else userLoad s r w := by
  have hloop := foldlM_range_invariant (fun k t => Keeps live kernel s t ∧ ∀ w, userLoad t r w =
    if ph.pVaddr / pageSize ≤ w / pageSize ∧ w / pageSize < ph.pVaddr / pageSize + k then some 0 else userLoad s r w)
    ⟨.refl h, fun w => by rw [if_neg (by omega)]⟩ ?_ hok
  · refine ⟨hloop.1, fun w => ?_⟩
    rw [hloop.2 w]
    exact if_congr (hb.covers_iff hloads).symm rfl rfl
  · rintro k hk t t' ⟨hkeeps, hload⟩ hpage
    obtain ⟨haddr, hlt⟩ := hb.page_addr hloads hk
    rw [haddr] at hpage
    have hstep := loadPage_ends hkeeps hr (userIndex_of_lt hlt) (smallFlags_pteFlags ph)
    rw [hpage] at hstep
    refine ⟨hstep, fun w => ?_⟩
    rw [userLoad_loadPage hkeeps.state hr hlt (smallFlags_pteFlags ph) hpage, hload, Nat.mul_div_cancel _ (by decide)]
    by_cases hw : w / pageSize = ph.pVaddr / pageSize + k
    · rw [if_pos hw, if_pos (by omega)]
    · rw [if_neg hw]
      refine if_congr ?_ rfl rfl
      omega

theorem copyFile_round {rounds dst toCopy : ℕ} (hdst : dst < userPages * pageSize) (hne : toCopy ≠ 0)
    (hfits : 2 * (dst % pageSize) + chunkSize dst toCopy ≤ pageSize)
    (hok : copyFile file r (rounds + 1) src dst toCopy s = .ok s') :
    ∃ t, Keeps live kernel s t ∧ (∀ w, userLoad t r w =
        if w / pageSize = dst / pageSize ∧ 2 * (dst % pageSize) ≤ w % pageSize ∧
          w % pageSize < 2 * (dst % pageSize) + chunkSize dst toCopy
        then some (file.byte (addWord src (w % pageSize - 2 * (dst % pageSize)))) else userLoad s r w) ∧
      copyFile file r rounds (addWord src (chunkSize dst toCopy)) (addWord dst (chunkSize dst toCopy))
        (toCopy - chunkSize dst toCopy) t = .ok s' := by
  rw [copyFile, if_neg hne] at hok
  dsimp only at hok
  split at hok
  · cases hok
  · rename_i hphys
    obtain ⟨d, hd, heq⟩ := h.spaces.vmmGetPhysical_user hr (userIndex_of_lt hdst) hphys
    rw [userPage_of_lt hdst] at hd
    rw [heq, Nat.add_assoc, ← Nat.two_mul] at hok
    obtain ⟨hkeeps, hload⟩ := userLoad_copyBytes file src h hr hd hfits
    exact ⟨_, hkeeps, hload, hok⟩

omit h hr in
theorem userLoad_copyFile {rounds dst toCopy : ℕ} (hr : r ∈ live) (h : Keeps live kernel s₀ s)
    (hrounds : toCopy ≤ rounds) (hdst : dst + toCopy ≤ userPages * pageSize) (hsrc : src + toCopy < wordSize)
    (haligned : toCopy = 0 ∨ dst % pageSize = 0) (hok : copyFile file r rounds src dst toCopy s = .ok s') :
    Keeps live kernel s₀ s' ∧ ∀ w, userLoad s' r w =
      if dst ≤ w ∧ w < dst + toCopy then some (file.byte (src + (w - dst))) else userLoad s r w := by
  induction rounds generalizing src dst toCopy s with
  | zero =>
    obtain rfl := ok.inj hok
    exact ⟨h, fun w => by rw [if_neg (by omega)]⟩
  | succ rounds ih =>
    by_cases hzero : toCopy = 0
    · rw [copyFile, if_pos hzero] at hok
      obtain rfl := ok.inj hok
      exact ⟨h, fun w => by rw [if_neg (by omega)]⟩
    · have hdst0 := haligned.resolve_left hzero
      have hchunk : chunkSize dst toCopy = min toCopy pageSize := by rw [chunkSize, hdst0, Nat.sub_zero]
      have hpos : 1 ≤ chunkSize dst toCopy := by
        rw [hchunk, pageSize]
        omega
      obtain ⟨t, hkeeps, hload, hrest⟩ := copyFile_round h.state hr (by omega) hzero
        (by rw [hdst0, hchunk]; omega) hok
      have hword : userPages * pageSize < wordSize := by decide
      rw [addWord_eq (by omega), addWord_eq (by omega)] at hrest
      obtain ⟨hkeeps', hload'⟩ := ih (h.trans hkeeps) (by omega) (by omega) (by omega)
        (by simp only [hchunk, pageSize] at *; omega) hrest
      refine ⟨hkeeps', fun w => ?_⟩
      rw [hload', hload, hdst0]
      -- An address is in a later piece, in this one, or in none.
      by_cases hlate : dst + chunkSize dst toCopy ≤ w ∧ w < dst + toCopy
      · rw [if_pos (by omega), if_pos (by omega)]
        exact congrArg (fun i => some (file.byte i)) (by omega)
      · rw [if_neg (by omega)]
        by_cases hfirst : dst ≤ w ∧ w < dst + chunkSize dst toCopy
        · have hpage : w / pageSize = dst / pageSize ∧ w % pageSize = w - dst := by
            simp only [hchunk, pageSize] at *
            omega
          rw [if_pos (by omega), if_pos (by omega), addWord_eq (by omega)]
          exact congrArg (fun i => some (file.byte i)) (by omega)
        · have hout : ¬ (w / pageSize = dst / pageSize ∧ 2 * 0 ≤ w % pageSize ∧
              w % pageSize < 2 * 0 + chunkSize dst toCopy) := by
            simp only [hchunk, pageSize] at *
            omega
          rw [if_neg hout, if_neg (by omega)]

theorem userLoad_loadSegment (hb : ph.Bounded file) (hloads : ph.loads)
    (hsize : file.size < wordSize) (hfits : ph.fits) (hok : loadSegment file ph r s = .ok s') :
    Keeps live kernel s s' ∧ ∀ w, userLoad s' r w =
      if ph.covers (w / pageSize) then some (segmentByte file ph w) else userLoad s r w := by
  rw [loadSegment] at hok
  rcases hpages : (List.range ph.pages).foldlM
    (fun s i => loadPage r (addWord ph.vaddrAligned (i * pageSize)) ph.pteFlags s) s with e | t
  · rw [hpages] at hok
    cases hok
  obtain ⟨hkeeps, hclear⟩ := userLoad_loadPages h hr hb hloads hpages
  rw [hpages] at hok
  rcases hcopy : copyFile file r ph.pFilesz ph.pOffset ph.pVaddr ph.pFilesz t with e | t'
  · rw [outcome, hcopy] at hok
    cases hok
  rw [outcome, hcopy] at hok
  obtain rfl : t' = s' := ok.inj hok
  have hmem := hb.filesz_le
  have huser := hb.in_user
  have hfile := hb.in_file
  have hword : userPages * pageSize < wordSize := by decide
  cases hcount : ph.pFilesz with
  | zero =>
    rw [hcount] at hcopy
    obtain rfl := ok.inj hcopy
    refine ⟨hkeeps, fun w => ?_⟩
    have hnone : chunkSize ph.pVaddr 0 = 0 := Nat.zero_min _
    rw [← segmentByte_eq hb hloads, hclear, hcount, hnone, if_neg (c := _ ≤ w ∧ _) (by omega), if_neg (c := _ ∧ _ ∧ _) (by omega)]
  | succ n =>
    rw [hcount] at hcopy
    have hfits := hfits.resolve_left (by omega)
    rw [hcount] at hfits
    obtain ⟨t₁, hround, hload, hrest⟩ := copyFile_round hkeeps.state hr (by omega) (by omega) hfits hcopy
    have hchunk : chunkSize ph.pVaddr (n + 1) ≤ n + 1 := Nat.min_le_left _ _
    rw [addWord_eq (by omega), addWord_eq (by omega)] at hrest
    obtain ⟨hdone, hload'⟩ := userLoad_copyFile hr (hkeeps.trans hround) (by simp only [chunkSize, pageSize]; omega)
      (by omega) (by omega) (by simp only [chunkSize, pageSize]; omega) hrest
    refine ⟨hdone, fun w => ?_⟩
    rw [← segmentByte_eq hb hloads, hload', hload, hclear, hcount]
    refine ite_congr (propext (by omega)) (fun hc => ?_) fun _ => ite_congr rfl (fun hc => ?_) fun _ => rfl
    · exact congrArg (fun i => some (file.byte i)) (by omega)
    · rw [addWord_eq (by omega)]

end

/-! ## The whole file -/

def Phdr.apart (a b : Phdr) : Prop := a.pVaddr + a.pMemsz ≤ b.pVaddr ∨ b.pVaddr + b.pMemsz ≤ a.pVaddr

instance (a b : Phdr) : Decidable (a.apart b) := inferInstanceAs (Decidable (_ ∨ _))

structure WellFormed (file : ElfFile) : Prop where
  size_lt : file.size < wordSize
  bounded : ∀ k < phnum file, (phdrAt file k).loads → (phdrAt file k).Bounded file
  disjoint : ∀ j < phnum file, ∀ k < phnum file, j ≠ k → (phdrAt file j).loads → (phdrAt file k).loads →
    (phdrAt file j).apart (phdrAt file k)

instance : Decidable (WellFormed file) :=
  decidable_of_iff (_ ∧ _ ∧ _) ⟨fun h => ⟨h.1, h.2.1, h.2.2⟩, fun h => ⟨h.1, h.2, h.3⟩⟩

theorem loadSegment_code : Ends (fun _ => True) (fun e => e.1 ≠ 0) (loadSegment file ph r s) := by
  have htrue {ε σ : Type} (x : Except ε σ) : Ends (fun _ => True) (fun _ => True) x := by cases x <;> trivial
  rw [loadSegment]
  refine (htrue _).outcome (fun t _ => (htrue _).outcome (fun _ _ => trivial) fun _ _ => ?_) fun _ _ => ?_
  · exact (by decide : -efault ≠ 0)
  · exact (by decide : -enomem ≠ 0)

section Load

variable {p : Process} (h : UserState s live kernel) (hp : p.addressSpace ∈ live)
  (hempty : ∀ n, frameOf s p.addressSpace n = none) (hsize : file.size < wordSize)
  (hbounded : ∀ k < phnum file, (phdrAt file k).loads → (phdrAt file k).Bounded file)
  (hfits : ∀ k < phnum file, (phdrAt file k).loads → (phdrAt file k).fits)

include h hp hempty hsize hbounded hfits

theorem userLoad_loadPhdrs {st : Process × Machine}
    (hok : (List.range (phnum file)).foldlM (fun st i => loadPhdr file i st) (p, s) = .ok st) (w : ℕ) :
    userLoad st.2 p.addressSpace w = image file (phnum file) w := by
  have hloop := foldlM_range_invariant (fun k st => st.1.addressSpace = p.addressSpace ∧
    Keeps live kernel s st.2 ∧ ∀ w, userLoad st.2 p.addressSpace w = image file k w)
    ⟨rfl, .refl h, fun w => by rw [userLoad, pageOf, hempty]; rfl⟩ ?_ hok
  · exact hloop.2.2 w
  · rintro k hk st st' ⟨hspace, hkeeps, hload⟩ hphdr
    simp only [loadPhdr] at hphdr
    split_ifs at hphdr with hloads
    · rcases hseg : loadSegment file (phdrAt file k) st.1.addressSpace st.2 with e | t
      · rw [hseg] at hphdr
        cases hphdr
      · rw [hseg] at hphdr
        obtain rfl := ok.inj hphdr
        rw [hspace] at hseg
        obtain ⟨hstep, hread⟩ := userLoad_loadSegment hkeeps.state hp (hbounded k hk hloads) hloads hsize
          (hfits k hk hloads) hseg
        refine ⟨(addressSpace_raiseHeap _).trans hspace, hkeeps.trans hstep, fun w => ?_⟩
        rw [hread, hload, image]
        simp only [hloads, true_and]
    · obtain rfl := ok.inj hphdr
      refine ⟨hspace, hkeeps, fun w => ?_⟩
      rw [hload, image, if_neg fun hc => hloads hc.1]

theorem userLoad_elfLoad (hok : (elfLoad file p s).code = 0) (w : ℕ) :
    userLoad (elfLoad file p s).machine p.addressSpace w = image file (phnum file) w := by
  have hcode : Ends (fun _ => True) (fun e => e.1 ≠ 0)
      ((List.range (phnum file)).foldlM (fun st i => loadPhdr file i st) (p, s)) := by
    refine foldlM_range_ends trivial fun k _ st _ => ?_
    rw [loadPhdr]
    split
    · exact loadSegment_code.outcome (fun _ _ => trivial) fun _ he => he
    · trivial
  rw [elfLoad] at hok ⊢
  split_ifs at hok with hvalid
  · rw [if_pos hvalid]
    rcases hloop : (List.range (phnum file)).foldlM (fun st i => loadPhdr file i st) (p, s) with e | st
    · rw [hloop] at hok hcode
      exact absurd hok hcode
    · exact userLoad_loadPhdrs h hp hempty hsize hbounded hfits hloop w
  · exact absurd hok (by decide : -einval ≠ 0)

end Load

end AetherOs.Userland
