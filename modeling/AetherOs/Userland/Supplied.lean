import AetherOs.Userland.Image
import AetherOs.Userland.PageRounds

/-! # Images that can be loaded -/

namespace AetherOs.Userland

open Base Base.Radix Paging Function List

def Phdr.pageAddrs (ph : Phdr) : List ℕ :=
  (List.range ph.pages).map fun i => addWord ph.vaddrAligned (i * pageSize)

def stackAddrs : List ℕ :=
  (List.range (userStackSize / pageSize)).map fun i => userStackTop - userStackSize + i * pageSize

def Placeable : List ℕ → List Phdr → Prop
  | _, [] => True
  | mapped, ph :: rest =>
    (∀ v ∈ ph.pageAddrs, v < userPages * pageSize) ∧ ph.fits ∧
      (∀ i < ph.pFilesz, addWord ph.pVaddr i < userPages * pageSize ∧
        addWord ph.pVaddr i / pageSize ∈ ph.pageAddrs.map (· / pageSize) ++ mapped) ∧
      Placeable (ph.pageAddrs.map (· / pageSize) ++ mapped) rest

instance Placeable.decidable : ∀ (mapped : List ℕ) (segs : List Phdr), Decidable (Placeable mapped segs)
  | _, [] => inferInstanceAs (Decidable True)
  | mapped, ph :: rest =>
    have := Placeable.decidable (ph.pageAddrs.map (· / pageSize) ++ mapped) rest
    inferInstanceAs (Decidable (_ ∧ _ ∧ _ ∧ Placeable (ph.pageAddrs.map (· / pageSize) ++ mapped) rest))

structure Ready (kernel : Set ℕ) (r : ℕ) (mapped rest : List ℕ) (s : Machine) : Prop where
  accounted : Accounted kernel r ∅ s
  pages : ∀ n ∈ mapped, frameOf s r n ≠ none
  serves : Supplies (requests (hasTable s r) rest) s.pmm

variable {kernel taken : Set ℕ} {r v n d : ℕ} {s : Machine} {mapped rest us vs : List ℕ} {flags : BitVec 64}
variable {file : ElfFile} {ph : Phdr}

theorem Accounted.forget (h : Accounted kernel r taken s) : Accounted kernel r ∅ s :=
  { h with sole := fun _ hf => hf.elim, kept := fun _ hf => hf.elim }

namespace Ready

theorem subset (h : Ready kernel r mapped rest s) {mapped' : List ℕ} (hsub : ∀ n ∈ mapped', n ∈ mapped) :
    Ready kernel r mapped' rest s :=
  { h with pages := fun n hn => h.pages n (hsub n hn) }

section

variable (h : Ready kernel r mapped (v :: rest) s) (hv : v < userPages * pageSize)

include h hv

theorem map (hflags : SmallFlags flags): ∃ z, z ≠ 0 ∧ Free s.pmm z ∧
      pmmAllocFrame s.pmm = (z * pageSize, takeFrame z s.pmm) ∧ ∀ s₁, Fetched s z s₁ →
        ∃ s', vmmMapPage r v (z * pageSize) flags s₁ = (0, s') ∧ Ready kernel r (v / pageSize :: mapped) rest s' := by
  obtain ⟨z, hz, -, halloc, -, hleft⟩ := h.serves.head
  refine ⟨z, fun hzero => h.accounted.zero (hzero ▸ hz), hz, halloc, fun s₁ hf => ?_⟩
  obtain ⟨s', hmap, hm, hserve, htables⟩ := h.accounted.mapsPage hf hv hflags (hf.pmm ▸ hleft)
  refine ⟨s', hmap, (h.accounted.mapped hm fun _ _ => Set.notMem_empty _).forget, fun n hn => ?_, ?_⟩
  · rw [hm.pages]
    split_ifs with hne
    · exact Option.some_ne_none _
    · exact h.pages n ((mem_cons.mp hn).resolve_left hne)
  · rwa [requests_congr htables]

theorem loadPage (hflags : SmallFlags flags):
    ∃ s', loadPage r v flags s = .ok s' ∧ Ready kernel r (v / pageSize :: mapped) rest s' := by
  obtain ⟨z, hne, hz, halloc, hmap⟩ := h.map hv hflags
  obtain ⟨s', heq, hready⟩ := hmap (clearFrame (z * pageSize) { s with pmm := takeFrame z s.pmm })
    ⟨hz, rfl, fun f hf => by rw [clearFrame, frame_div]; exact fill_of_ne hf, rfl⟩
  refine ⟨s', ?_, hready⟩
  rw [Userland.loadPage, halloc, if_neg (Nat.mul_ne_zero hne (by decide))]
  simp only [heq, if_true]

theorem brkPage :
    ∃ s', brkPage r v s = .ok s' ∧ Ready kernel r (v / pageSize :: mapped) rest s' := by
  obtain ⟨z, hne, hz, halloc, hmap⟩ := h.map hv smallFlags_userFlags
  obtain ⟨s', heq, hready⟩ := hmap { s with pmm := takeFrame z s.pmm } ⟨hz, rfl, fun _ _ => rfl, rfl⟩
  refine ⟨s', ?_, hready⟩
  rw [Userland.brkPage, halloc, if_neg (Nat.mul_ne_zero hne (by decide)), heq]

end

theorem pagesLoop (round : ℕ → Machine → Except Machine Machine) (h : Ready kernel r mapped (us ++ vs) s)
    (hround : ∀ u ∈ us, ∀ {mapped rest s}, Ready kernel r mapped (u :: rest) s →
      ∃ s', round u s = .ok s' ∧ Ready kernel r (u / pageSize :: mapped) rest s') :
    ∃ s', us.foldlM (fun s u => round u s) s = .ok s' ∧ Ready kernel r (us.map (· / pageSize) ++ mapped) vs s' := by
  induction us generalizing mapped s with
  | nil => exact ⟨s, rfl, h⟩
  | cons u us ih =>
    obtain ⟨s₁, hok, hready⟩ := hround u mem_cons_self h
    obtain ⟨s', hrun, hready'⟩ := ih hready fun w hw => hround w (mem_cons_of_mem _ hw)
    refine ⟨s', ?_, hready'.subset fun n hn => ?_⟩
    · rw [foldlM_cons, hok]
      exact hrun
    · simp only [map_cons, cons_append, mem_cons, mem_append] at hn ⊢
      tauto

theorem storeFrame (h : Ready kernel r mapped rest s) (hd : frameOf s r n = some d) (page : ℕ → BitVec 64) :
    Ready kernel r mapped rest { s with mem := update s.mem d page } := by
  obtain ⟨hn, hpresent, rfl⟩ := frameOf_eq_some.mp hd
  obtain ⟨hnot, hkernel⟩ := h.accounted.spaces.data r rfl n hn hpresent
  have hmem (f : ℕ) (hf : IsTable s {r} f ∨ f ∈ kernel) :
      update s.mem (tableOf (leaf s r n)) page f = s.mem f := by
    refine update_of_ne ?_ _ _
    rintro rfl
    exact hf.elim hnot hkernel
  let s' : Machine := { s with mem := update s.mem (tableOf (leaf s r n)) page }
  have htables (f : ℕ) (hf : IsTable s {r} f) : s'.mem f = s.mem f := hmem f (.inl hf)
  have hwalk {p : List ℕ} (hp : TablePath p) : tableAt s' r p = tableAt s r p := tableAt_of_frames htables rfl hp
  have hframe (k : ℕ) : frameOf s' r k = frameOf s r k := frameOf_of_leaf fun _ => leaf_of_frames htables rfl
  have h' := h.accounted
  refine ⟨⟨?_, ?_, h'.zero, fun k f hk => h'.held k f (hframe k ▸ hk), fun k l f hk hl => ?_, fun _ hf => hf.elim,
    fun _ hf => hf.elim⟩, fun k hk => (hframe k).symm ▸ h.pages k hk, ?_⟩
  · exact h'.spaces.of_frames htables (fun f hf => hmem f (.inr hf)) rfl fun f hf =>
      h'.spaces.tables.used hf
  · rintro t ⟨_, rfl, p, hp, hown, ht⟩
    exact h'.pointers t ⟨_, rfl, p, hp, hown, (hwalk hp).symm.trans ht⟩
  · exact h'.apart k l f (hframe k ▸ hk) (hframe l ▸ hl)
  · rw [requests_congr fun _ hp => show hasTable s' r _ = hasTable s r _ by rw [hasTable, hwalk hp, hasTable]]
    exact h.serves

theorem copyFile (file : ElfFile) (rounds src : ℕ) {dst toCopy : ℕ} (h : Ready kernel r mapped rest s)
    (hpage : ∀ i < toCopy, addWord dst i < userPages * pageSize ∧ addWord dst i / pageSize ∈ mapped)
    (hdst : dst < wordSize)
    (hfits : toCopy = 0 ∨ 2 * (dst % pageSize) + chunkSize dst toCopy ≤ pageSize) :
    ∃ s', copyFile file r rounds src dst toCopy s = .ok s' ∧ Ready kernel r mapped rest s' := by
  induction rounds generalizing src dst toCopy s with
  | zero => exact ⟨s, rfl, h⟩
  | succ rounds ih =>
    by_cases hzero : toCopy = 0
    · exact ⟨s, by rw [Userland.copyFile, if_pos hzero], h⟩
    · obtain ⟨huser, hmem⟩ := hpage 0 (by omega)
      rw [addWord, Nat.add_zero, Nat.mod_eq_of_lt hdst] at huser hmem
      obtain ⟨d, hd⟩ := Option.ne_none_iff_exists'.mp (h.pages _ hmem)
      have hphys : vmmGetPhysical s r dst = d * pageSize + dst % pageSize :=
        h.accounted.spaces.vmmGetPhysical_frameOf rfl (by rwa [userPage_of_lt huser])
      have hne : vmmGetPhysical s r dst ≠ 0 := by
        have := (h.accounted.held _ d hd).1
        simp only [hphys, pageSize]
        omega
      obtain ⟨page, hcopy, -⟩ := copyBytes_bytes (s := s) file src d (hfits.resolve_left hzero)
      have hchunk : chunkSize dst toCopy ≤ toCopy := Nat.min_le_left _ _
      have hnext (i : ℕ) (hi : i < toCopy - chunkSize dst toCopy) :
          addWord (addWord dst (chunkSize dst toCopy)) i < userPages * pageSize ∧
            addWord (addWord dst (chunkSize dst toCopy)) i / pageSize ∈ mapped := by
        rw [addWord_addWord]
        exact hpage _ (by omega)
      obtain ⟨s', hrun, hready⟩ := ih (addWord src (chunkSize dst toCopy)) (h.storeFrame hd page) hnext
        (Nat.mod_lt _ (by decide)) (fits_next dst toCopy)
      refine ⟨s', ?_, hready⟩
      rw [Userland.copyFile, if_neg hzero]
      simp only [hne, if_false]
      rw [hphys, Nat.add_assoc, ← Nat.two_mul, hcopy]
      exact hrun

theorem loadSegment (file : ElfFile) (h : Ready kernel r mapped (ph.pageAddrs ++ rest) s)
    (huser : ∀ v ∈ ph.pageAddrs, v < userPages * pageSize) (hfits : ph.fits) (hvaddr : ph.pVaddr < wordSize)
    (hpage : ∀ i < ph.pFilesz, addWord ph.pVaddr i < userPages * pageSize ∧
      addWord ph.pVaddr i / pageSize ∈ ph.pageAddrs.map (· / pageSize) ++ mapped) :
    ∃ s', loadSegment file ph r s = .ok s' ∧
      Ready kernel r (ph.pageAddrs.map (· / pageSize) ++ mapped) rest s' := by
  obtain ⟨s₁, hloop, hready⟩ := h.pagesLoop (fun u s => Userland.loadPage r u ph.pteFlags s)
    fun u hu {_ _ _} hr => hr.loadPage (huser u hu) (smallFlags_pteFlags ph)
  obtain ⟨s', hcopy, hready'⟩ := hready.copyFile file ph.pFilesz ph.pOffset hpage hvaddr hfits
  rw [Phdr.pageAddrs, foldlM_map] at hloop
  refine ⟨s', ?_, hready'⟩
  rw [Userland.loadSegment, hloop]
  exact congrArg (outcome _ _) hcopy

theorem loadPhdrs {is : List ℕ} {p : Process}
    (h : Ready kernel p.addressSpace mapped ((segmentsOf file is).flatMap Phdr.pageAddrs ++ rest) s)
    (hplace : Placeable mapped (segmentsOf file is)) :
    ∃ mapped' s', is.foldlM (fun st i => loadPhdr file i st) (p, s) = .ok (raiseAll (segmentsOf file is) p, s') ∧
      Ready kernel p.addressSpace mapped' rest s' := by
  induction is generalizing mapped p s with
  | nil => exact ⟨mapped, s, rfl, h⟩
  | cons i is ih =>
    rw [segmentsOf_cons] at h hplace ⊢
    rw [foldlM_cons, loadPhdr]
    by_cases hloads : (phdrAt file i).loads
    · simp only [hloads, if_true] at h hplace ⊢
      obtain ⟨huser, hfits, hpage, hplace⟩ := hplace
      rw [flatMap_cons, append_assoc] at h
      obtain ⟨s₁, hsegment, hready⟩ := h.loadSegment file huser hfits (readLe_lt file _ 8) hpage
      rw [← addressSpace_raiseHeap (p := p) (phdrAt file i).vendAligned] at hready
      obtain ⟨mapped', s', hrun, hready'⟩ := ih hready hplace
      rw [addressSpace_raiseHeap] at hready'
      refine ⟨mapped', s', ?_, hready'⟩
      rw [hsegment]
      exact hrun
    · simp only [hloads, if_false] at h hplace ⊢
      exact ih h hplace

end Ready

end AetherOs.Userland
