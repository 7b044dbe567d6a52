import AetherOs.Shm.Sound

/-! # The calls on regions -/

namespace AetherOs.Shm

open Base Base.Radix Paging Function List

variable {k : ShmKernel} {kernel : Set ℕ} {a b i d n : ℕ} {r : Region} {s : Machine}

/-! ## Another region in a slot -/

theorem regionFrame_setRegion : RegionFrame ((k.setRegion b r).withMachine s) a i d ↔
    if a = b then b < shmMaxRegions ∧ r.valid ∧ i < r.numPages ∧ r.frame i = d else RegionFrame k a i d := by
  by_cases hab : a = b
  · subst hab
    simp [RegionFrame, ShmKernel.setRegion, ShmKernel.withMachine]
  · simp [RegionFrame, ShmKernel.setRegion, ShmKernel.withMachine, hab]

theorem mem_reserved_setRegion : d ∈ reserved ((k.setRegion b r).withMachine s) ↔
    (b < shmMaxRegions ∧ r.valid ∧ ∃ i < r.numPages, r.frame i = d) ∨
      (∃ a i, a ≠ b ∧ RegionFrame k a i d) ∨ ∃ p j, StackFrame k p j d := by
  rw [← or_assoc]
  refine or_congr ⟨?_, ?_⟩ Iff.rfl
  · rintro ⟨a, i, hd⟩
    rw [regionFrame_setRegion] at hd
    split_ifs at hd with hab
    · exact .inl ⟨hd.1, hd.2.1, i, hd.2.2⟩
    · exact .inr ⟨a, i, hab, hd⟩
  · rintro (⟨hb, hvalid, i, hd⟩ | ⟨a, i, hab, hd⟩)
    · exact ⟨b, i, regionFrame_setRegion.mpr (by rw [if_pos rfl]; exact ⟨hb, hvalid, hd⟩)⟩
    · exact ⟨a, i, regionFrame_setRegion.mpr (by rw [if_neg hab]; exact hd)⟩

theorem home_setRegion (hd : RegionFrame k a i d) (hab : a ≠ b) :
    home ((k.setRegion b r).withMachine s) d (shmPage + i) :=
  ⟨a, i, regionFrame_setRegion.mpr (by rw [if_neg hab]; exact hd), rfl⟩

structure Fits (k : ShmKernel) (b : ℕ) (r : Region) : Prop where
  pos : 0 < r.numPages
  le : r.numPages ≤ shmMaxPages
  aligned : ∀ i < r.numPages, r.physPages i = r.frame i * pageSize
  distinct : ∀ i < r.numPages, ∀ j < r.numPages, r.frame i = r.frame j → i = j
  fresh : ∀ i < r.numPages, ∀ c j, c ≠ b → ¬ RegionFrame k c j (r.frame i)
  no_stack : ∀ i < r.numPages, ∀ p j, ¬ StackFrame k p j (r.frame i)

/-! ## Destroying a region -/

theorem freePages_eq {pages : ℕ → ℕ} {count : ℕ} {m : Pmm} (haligned : ∀ i < count, pages i = pages i / pageSize * pageSize) :
    freePages pages count m = freeAll ((List.range count).map fun i => pages i / pageSize) m := by
  rw [freePages, freeAll, foldl_map]
  refine foldl_ext _ _ _ fun m' i hi => ?_
  rw [← haligned i (mem_range.mp hi)]

theorem nodup_frames {pages : ℕ → ℕ} {count : ℕ}
    (hdistinct : ∀ i < count, ∀ j < count, pages i / pageSize = pages j / pageSize → i = j) :
    ((List.range count).map fun i => pages i / pageSize).Nodup :=
  nodup_range.map_on fun i hi j hj => hdistinct i (mem_range.mp hi) j (mem_range.mp hj)

def mappers (k : ShmKernel) (a i : ℕ) : Finset ℕ :=
  holders (liveSpaces k) (frameOf k.machine) (shmPage + i) ((k.shmTable a).frame i)

def Releasable (k : ShmKernel) (a : ℕ) : Prop :=
  ∀ i < (k.shmTable a).numPages, (mappers k a i).card < refs k.machine ((k.shmTable a).frame i)

instance (k : ShmKernel) (a : ℕ) : Decidable (Releasable k a) := inferInstanceAs (Decidable (∀ _ < _, _))

/-! ## Creating a region -/

structure Allocating (kernel : Set ℕ) (k : ShmKernel) (i : ℕ) (st : Pmm × (ℕ → ℕ)) : Prop where
  state : ReservedState { k.machine with pmm := st.1 } k.machine.kernelPml4 (liveSpaces k) kernel
    (reserved k ∪ {d | ∃ j < i, st.2 j / pageSize = d}) (home k)
  aligned : ∀ j < i, st.2 j = st.2 j / pageSize * pageSize
  distinct : ∀ j < i, ∀ l < i, st.2 j / pageSize = st.2 l / pageSize → j = l
  fresh : ∀ j < i, st.2 j / pageSize ∉ reserved k
  unmapped : ∀ j < i, ∀ r ∈ liveSpaces k, ∀ n, frameOf k.machine r n ≠ some (st.2 j / pageSize)

theorem Allocating.allocPage {st : Pmm × (ℕ → ℕ)} (h : Allocating kernel k i st) :
    Ends (Allocating kernel k (i + 1)) (fun e => Allocating kernel k e.1 e.2) (allocPage st i) := by
  obtain ⟨m, pages⟩ := st
  rw [Shm.allocPage]
  rcases pmmAllocFrame_cases m with hnone | ⟨f, hf, hsome⟩
  · rw [hnone]
    exact h
  · have htake : ReservedState { k.machine with pmm := takeFrame f m } k.machine.kernelPml4 (liveSpaces k) kernel
        (reserved k ∪ {d | ∃ j < i, pages j / pageSize = d}) (home k) :=
      (h.state.of_frames { k.machine with pmm := takeFrame f m } (fun _ _ => rfl) rfl (fun g hg => not_free_takeFrame hg)
        fun g hg => refcounts_takeFrame hf hg).1
    rw [hsome]
    dsimp only
    split
    · change Allocating kernel k i (takeFrame f m, pages)
      exact ⟨htake, h.aligned, h.distinct, h.fresh, h.unmapped⟩
    · set pages' := update pages i (f * pageSize)
      have hself : pages' i = f * pageSize := update_self _ _ _
      have hall {P : ℕ → ℕ → Prop} (hold : ∀ j < i, P j (pages j)) (hnew : P i (f * pageSize)) (j : ℕ) (hj : j < i + 1) :
          P j (pages' j) := by
        by_cases hji : j = i
        · rw [hji, hself]
          exact hnew
        · rw [show pages' j = pages j from update_of_ne hji _ _]
          exact hold j (by omega)
      have hold {j : ℕ} (hj : j < i) : pages j / pageSize ≠ f := fun heq =>
        (h.state.kept _ (.inr ⟨j, hj, rfl⟩)).2.1 (heq ▸ hf)
      have hspaces := h.state.spaces.tables
      have hunmapped (r : ℕ) (hr : r ∈ liveSpaces k) (n : ℕ) : frameOf k.machine r n ≠ some f := fun hd =>
        (h.state.held r hr n f hd).2 hf
      have hreserve := htake.reserve {f}
        (by
          rintro d rfl
          have hone : (takeFrame d m).refcounts d = 1 := update_self _ _ _
          exact ⟨hf.1, not_free_takeFrame_self, (congrArg BitVec.toNat hone).ge⟩)
        (by
          rintro d rfl
          exact ⟨fun ht => hspaces.kept d ht hf, fun hmem => hspaces.shared_kept d hmem hf⟩)
        (by
          rintro d rfl
          exact hunmapped)
      have hset : (reserved k ∪ {d | ∃ j < i + 1, pages' j / pageSize = d}) =
          reserved k ∪ {d | ∃ j < i, pages j / pageSize = d} ∪ {f} := by
        rw [Set.union_assoc]
        congr 1
        ext d
        refine Nat.exists_lt_succ_right.trans (or_congr (exists_congr fun j => and_congr_right fun hj => ?_) ?_)
        · rw [show pages' j = pages j from update_of_ne hj.ne _ _]
        · rw [hself, frame_div]
          exact eq_comm
      refine ⟨hset ▸ hreserve, hall (P := fun _ a => a = a / pageSize * pageSize) h.aligned (by rw [frame_div]), ?_,
        hall (P := fun _ a => a / pageSize ∉ reserved k) h.fresh fun hmem => ?_,
        hall (P := fun _ a => ∀ r ∈ liveSpaces k, ∀ n, frameOf k.machine r n ≠ some (a / pageSize)) h.unmapped ?_⟩
      · refine hall (P := fun j a => ∀ l < i + 1, a / pageSize = pages' l / pageSize → j = l) (fun j hj => ?_) ?_
        · refine hall (P := fun l b => pages j / pageSize = b / pageSize → j = l) (h.distinct j hj) fun heq => ?_
          exact absurd (heq.trans (frame_div f)) (hold hj)
        · refine hall (P := fun l b => f * pageSize / pageSize = b / pageSize → i = l) (fun l hl heq => ?_) fun _ => rfl
          exact absurd (heq.symm.trans (frame_div f)) (hold hl)
      · rw [frame_div] at hmem
        exact (h.state.kept f (.inl hmem)).2.1 hf
      · rw [frame_div]
        exact hunmapped

/-! ## Mapping and unmapping -/

theorem smallFlags_mapFlags (flags : BitVec 32) : SmallFlags (mapFlags flags) := by
  have hflags : mapFlags flags = ptePresent ||| pteUser ||| (if decide (flags &&& shmWrite ≠ 0) then pteWritable else 0) |||
      (if decide (flags &&& shmExec ≠ 0) then 0 else pteNx) := by simp [mapFlags]
  rw [hflags]
  exact smallFlags_userBits _ _

theorem vmmUnmapPage_pmm (pml4 v : ℕ) (s : Machine) : (vmmUnmapPage pml4 v s).2.pmm = s.pmm := by
  simp only [vmmUnmapPage]
  split_ifs <;> rfl

def InPages (v count n : ℕ) : Prop :=
  ∃ i < count, userIndex (pml4Index (addWord v (i * pageSize))) ∧ n = userPage (addWord v (i * pageSize))

theorem unmapPages_state {pml4 : ℕ} (hpml4 : pml4 ∈ liveSpaces k)
    (hs : ReservedState s k.machine.kernelPml4 (liveSpaces k) kernel (reserved k) (home k)) (v count : ℕ) :
    ReservedState (unmapPages pml4 v count s) k.machine.kernelPml4 (liveSpaces k) kernel (reserved k) (home k) ∧
      (unmapPages pml4 v count s).pmm = s.pmm ∧ ∀ x ∈ liveSpaces k, ∀ n < userPages,
        (x = pml4 ∧ InPages v count n → hasFlag (leaf (unmapPages pml4 v count s) x n) ptePresent = false) ∧
        (¬ (x = pml4 ∧ InPages v count n) → leaf (unmapPages pml4 v count s) x n = leaf s x n) := by
  refine foldl_range_invariant (fun c t =>
    ReservedState t k.machine.kernelPml4 (liveSpaces k) kernel (reserved k) (home k) ∧ t.pmm = s.pmm ∧
      ∀ x ∈ liveSpaces k, ∀ n < userPages,
        (x = pml4 ∧ InPages v c n → hasFlag (leaf t x n) ptePresent = false) ∧
        (¬ (x = pml4 ∧ InPages v c n) → leaf t x n = leaf s x n))
    ⟨hs, rfl, fun x _ n _ => ⟨?_, fun _ => rfl⟩⟩ ?_
  · rintro ⟨-, i, hi, -⟩
    exact absurd hi (Nat.not_lt_zero i)
  rintro c - t ⟨ht, hpmm, hleaf⟩
  obtain ⟨hstate, hmap⟩ := ht.unmap hpml4 (addWord v (c * pageSize))
  refine ⟨hstate, (vmmUnmapPage_pmm _ _ _).trans hpmm, fun x hx n hn => ?_⟩
  obtain ⟨hin, hout⟩ := hleaf x hx n hn
  have hpage := hmap x hx n hn
  split_ifs at hpage with htarget
  · refine ⟨fun _ => hpage, fun hnot => absurd ⟨htarget.2.1, c, Nat.lt_succ_self c, htarget.1, htarget.2.2⟩ hnot⟩
  · rw [hpage]
    have hsucc : (x = pml4 ∧ InPages v (c + 1) n) → x = pml4 ∧ InPages v c n := by
      rintro ⟨hxp, i, hi, huser, hni⟩
      rcases Nat.lt_succ_iff_lt_or_eq.mp hi with hi | rfl
      · exact ⟨hxp, i, hi, huser, hni⟩
      · exact absurd ⟨huser, hxp, hni⟩ htarget
    refine ⟨fun h => hin (hsucc h), fun hnot => hout ?_⟩
    rintro ⟨hxp, i, hi, h⟩
    exact hnot ⟨hxp, i, by omega, h⟩

def otherMappers (k : ShmKernel) (a i pml4 v : ℕ) : Finset ℕ :=
  (mappers k a i).filter fun x => ¬ (userIndex (pml4Index v) ∧ x = pml4)

def ReleasableBy (k : ShmKernel) (a pml4 v : ℕ) : Prop :=
  ∀ i < (k.shmTable a).numPages, (otherMappers k a i pml4 v).card < refs k.machine ((k.shmTable a).frame i)

instance (k : ShmKernel) (a pml4 v : ℕ) : Decidable (ReleasableBy k a pml4 v) :=
  inferInstanceAs (Decidable (∀ _ < _, _))

theorem userPage_addWord {v : ℕ} (hv : userPage v = shmPage) (hi : i < shmMaxPages) :
    userIndex (pml4Index (addWord v (i * pageSize))) ∧ userPage (addWord v (i * pageSize)) = shmPage + i := by
  simp only [userPage, shmPage, shmBase, userIndex, pml4Index, addWord, wordSize, pageSize, shmMaxPages] at *
  omega

section

variable (h : Sound kernel k)
include h

theorem Sound.setRegion (hfits : r.valid → Fits k b r)
    (hstate : ReservedState s k.machine.kernelPml4 (liveSpaces k) kernel
      (reserved ((k.setRegion b r).withMachine s)) (home ((k.setRegion b r).withMachine s))) :
    Sound kernel ((k.setRegion b r).withMachine s) := by
  set k' := (k.setRegion b r).withMachine s
  have hroot : s.kernelPml4 = k.machine.kernelPml4 := hstate.root_eq
  have hlive : liveSpaces k' = liveSpaces k := liveSpaces_of_root hroot
  have hslot {c : ℕ} (hc : c ≠ b) : k'.shmTable c = k.shmTable c :=
    update_of_ne hc _ _
  have hself : k'.shmTable b = r := update_self _ _ _
  refine ⟨?_, fun a ha => ?_, fun a ha => ?_, fun a i d hd => ?_, fun a i c j d hd hd' => ?_, h.stack_eq, h.stacks_apart,
    fun a i p j d hd => ?_, (h.roots hroot).1, h.idle_lt, (h.roots hroot).2⟩
  · rw [hlive]
    exact hroot.symm ▸ hstate
  · by_cases hab : a = b
    · rw [hab, hself]
      exact fun hvalid => (hfits hvalid).pos
    · rw [hslot hab]
      exact h.pages_pos a ha
  · by_cases hab : a = b
    · rw [hab, hself]
      exact fun hvalid => (hfits hvalid).le
    · rw [hslot hab]
      exact h.pages_le a ha
  · rw [regionFrame_setRegion] at hd
    split_ifs at hd with hab
    · obtain ⟨-, hvalid, hi, rfl⟩ := hd
      rw [hab, hself]
      exact (hfits hvalid).aligned i hi
    · rw [hslot hab]
      exact h.aligned a i d hd
  · rw [regionFrame_setRegion] at hd hd'
    split at hd <;> split at hd'
    · rename_i hab hcb
      obtain ⟨-, hvalid, hi, rfl⟩ := hd
      obtain ⟨-, -, hj, heq⟩ := hd'
      exact ⟨hab.trans hcb.symm, (hfits hvalid).distinct i hi j hj heq.symm⟩
    · rename_i hcb
      obtain ⟨-, hvalid, hi, rfl⟩ := hd
      exact absurd hd' ((hfits hvalid).fresh i hi c j hcb)
    · rename_i hab hcb
      obtain ⟨-, hvalid, hj, rfl⟩ := hd'
      exact absurd hd ((hfits hvalid).fresh j hj a i hab)
    · exact h.regions_apart a i c j d hd hd'
  · rw [regionFrame_setRegion] at hd
    split at hd
    · obtain ⟨-, hvalid, hi, rfl⟩ := hd
      exact (hfits hvalid).no_stack i hi p j
    · exact h.apart a i p j d hd

theorem Sound.fits (ha : a < shmMaxRegions) (hvalid : (k.shmTable a).valid) :
    Fits k a (k.shmTable a) := by
  have hframe {i : ℕ} (hi : i < (k.shmTable a).numPages) : RegionFrame k a i ((k.shmTable a).frame i) :=
    ⟨ha, hvalid, hi, rfl⟩
  refine ⟨h.pages_pos a ha hvalid, h.pages_le a ha hvalid, fun i hi => h.aligned a i _ (hframe hi),
    fun i hi j hj heq => ?_, fun i hi c j hc hd => ?_, fun i hi p j => h.apart a i p j _ (hframe hi)⟩
  · exact (h.regions_apart a i a j _ (hframe hi) (heq ▸ hframe hj)).2
  · exact hc (h.regions_apart c j a i _ hd (hframe hi)).1

theorem Sound.setRefcount (ha : a < shmMaxRegions) (hvalid : (k.shmTable a).valid) (c : ℤ)
    (hstate : ReservedState s k.machine.kernelPml4 (liveSpaces k) kernel (reserved k) (home k)) :
    Sound kernel ((k.setRegion a { k.shmTable a with refcount := c }).withMachine s) := by
  have hframe (b i d : ℕ) : RegionFrame ((k.setRegion a { k.shmTable a with refcount := c }).withMachine s) b i d ↔
      RegionFrame k b i d := by
    rw [regionFrame_setRegion]
    split_ifs with hba
    · subst hba
      rfl
    · rfl
  refine h.setRegion (fun _ => ?_) ?_
  · have hfits := h.fits ha hvalid
    exact ⟨hfits.pos, hfits.le, hfits.aligned, hfits.distinct, hfits.fresh, hfits.no_stack⟩
  · have hset : reserved ((k.setRegion a { k.shmTable a with refcount := c }).withMachine s) = reserved k := by
      ext d
      exact or_congr (exists_congr fun b => exists_congr fun i => hframe b i d) Iff.rfl
    rw [hset]
    refine hstate.rehome fun d _ n hn => ?_
    obtain ⟨b, i, hd, rfl⟩ := hn
    exact ⟨b, i, (hframe b i d).mpr hd, rfl⟩

theorem Sound.shmDestroy (ha : a < shmMaxRegions) (hfree : (k.shmTable a).valid → Releasable k a) :
    Sound kernel (shmDestroy a k) := by
  rw [Shm.shmDestroy]
  cases hvalid : (k.shmTable a).valid with
  | false => exact h
  | true =>
    have hfits := h.fits ha hvalid
    set frames := (List.range (k.shmTable a).numPages).map (k.shmTable a).frame
    have hown {d : ℕ} : d ∈ frames ↔ ∃ i, RegionFrame k a i d := by
      simp [frames, RegionFrame, ha, hvalid]
    have hreleased := h.state.release (nodup_frames hfits.distinct : frames.Nodup) (fun d hd => .inl ⟨a, hown.mp hd⟩)
      fun d hd r hr n hn => by
        obtain ⟨i, hi⟩ := hown.mp hd
        obtain rfl := (h.home_eq hi).mp (h.state.placed r hr n d hn (.inl ⟨a, i, hi⟩))
        exact hi.2.2.2 ▸ hfree hvalid i hi.2.2.1
    refine h.setRegion (fun hzero => nomatch hzero) ?_
    have hset : reserved ((k.setRegion a Region.zero).withMachine
        { k.machine with pmm := freePages (k.shmTable a).physPages (k.shmTable a).numPages k.machine.pmm }) =
        reserved k \ {d | d ∈ frames} := by
      ext d
      rw [mem_reserved_setRegion, Set.mem_sdiff, Set.mem_ofPred_eq, hown]
      constructor
      · rintro (⟨-, hzero, -⟩ | ⟨b, i, hba, hd⟩ | ⟨p, j, hd⟩)
        · cases hzero
        · exact ⟨.inl ⟨b, i, hd⟩, fun ⟨j, hj⟩ => hba (h.regions_apart b i a j d hd hj).1⟩
        · exact ⟨.inr ⟨p, j, hd⟩, fun ⟨i, hi⟩ => h.apart a i p j d hi hd⟩
      · rintro ⟨⟨b, i, hd⟩ | hd, hout⟩
        · exact .inr (.inl ⟨b, i, fun heq => hout ⟨i, heq ▸ hd⟩, hd⟩)
        · exact .inr (.inr hd)
    rw [hset, freePages_eq hfits.aligned]
    refine hreleased.rehome fun d hd n hn => ?_
    obtain ⟨b, i, hb, rfl⟩ := hn
    exact home_setRegion hb fun heq => hd.2 (hown.mpr ⟨i, heq ▸ hb⟩)

omit h in
theorem reserved_setRegion (hslot : (k.shmTable b).valid = false) :
    reserved ((k.setRegion b r).withMachine s) =
      reserved k ∪ {d | b < shmMaxRegions ∧ r.valid ∧ ∃ i < r.numPages, r.frame i = d} := by
  ext d
  rw [mem_reserved_setRegion]
  constructor
  · rintro (hd | ⟨a, i, -, hd⟩ | hd)
    · exact .inr hd
    · exact .inl (.inl ⟨a, i, hd⟩)
    · exact .inl (.inr hd)
  · rintro ((⟨a, i, hd⟩ | hd) | hd)
    · refine .inr (.inl ⟨a, i, ?_, hd⟩)
      rintro rfl
      exact absurd hd.2.1 (by rw [hslot]; decide)
    · exact .inr (.inr hd)
    · exact .inl hd

omit h in
theorem home_setRegion_empty (hslot : (k.shmTable b).valid = false) (hd : home k d n) :
    home ((k.setRegion b r).withMachine s) d n := by
  obtain ⟨a, i, hd, rfl⟩ := hd
  refine home_setRegion hd ?_
  rintro rfl
  exact absurd hd.2.1 (by rw [hslot]; decide)

theorem Sound.shmCreate_failed (hslot : (k.shmTable b).valid = false) {m : Pmm} {pages : ℕ → ℕ}
    (halloc : Allocating kernel k i (m, pages)) :
    Sound kernel ((k.setRegion b { k.shmTable b with physPages := pages }).withMachine
      { k.machine with pmm := freePages pages i m }) := by
  have hmem {d : ℕ} (hd : d ∈ (List.range i).map fun j => pages j / pageSize) : ∃ j < i, pages j / pageSize = d := by
    obtain ⟨j, hj, heq⟩ := mem_map.mp hd
    exact ⟨j, mem_range.mp hj, heq⟩
  have hreleased := halloc.state.release (nodup_frames halloc.distinct) (fun d hd => .inr (hmem hd))
    (fun d hd r hr n hn => by
      obtain ⟨j, hj, rfl⟩ := hmem hd
      exact absurd hn (halloc.unmapped j hj r hr n))
  have hset : ((reserved k ∪ {d | ∃ j < i, pages j / pageSize = d}) \
      {d | d ∈ (List.range i).map fun j => pages j / pageSize}) = reserved k := by
    ext d
    constructor
    · rintro ⟨hd | ⟨j, hj, hd⟩, hout⟩
      · exact hd
      · exact absurd (mem_map.mpr ⟨j, mem_range.mpr hj, hd⟩) hout
    · refine fun hd => ⟨.inl hd, fun hin => ?_⟩
      obtain ⟨j, hj, rfl⟩ := hmem hin
      exact halloc.fresh j hj hd
  refine h.setRegion (fun hvalid => ?_) ?_
  · exact absurd (hslot.symm.trans hvalid) (by decide)
  · have hsame {s : Machine} : reserved ((k.setRegion b { k.shmTable b with physPages := pages }).withMachine s) =
        reserved k := by simp [reserved_setRegion hslot, hslot]
    rw [hsame, freePages_eq halloc.aligned]
    rw [hset] at hreleased
    exact hreleased.rehome fun d _ n hn => home_setRegion_empty hslot hn

theorem Sound.shmCreate_done (hb : b < shmMaxRegions) (hslot : (k.shmTable b).valid = false)
    (hpos : 0 < n) (hle : n ≤ shmMaxPages) {m : Pmm} {pages : ℕ → ℕ} (halloc : Allocating kernel k n (m, pages))
    (name : List UInt8) :
    Sound kernel ((k.setRegion b ⟨name, true, 0, n, pages⟩).withMachine
      { k.machine with pmm := m, mem := zeroPages pages n k.machine.mem }) := by
  have hzero (f : ℕ) (hf : ∀ j < n, pages j / pageSize ≠ f) : zeroPages pages n k.machine.mem f = k.machine.mem f :=
    foldl_range_invariant (fun _ (mem : ℕ → ℕ → BitVec 64) => mem f = k.machine.mem f) rfl fun j hj mem hmem =>
      (fill_of_ne (hf j hj).symm).trans hmem
  have hcleared := (halloc.state.of_frames { k.machine with pmm := m, mem := zeroPages pages n k.machine.mem }
    (fun f hf => hzero f fun j hj heq => ?_) rfl (fun _ hf => hf) fun _ _ => rfl).1
  · refine h.setRegion (fun _ => ?_) ?_
    · refine ⟨hpos, hle, halloc.aligned, halloc.distinct, fun i hi c j _ hd => ?_, fun i hi p j hd => ?_⟩
      · exact halloc.fresh i hi (.inl ⟨c, j, hd⟩)
      · exact halloc.fresh i hi (.inr ⟨p, j, hd⟩)
    · have hset {s : Machine} : reserved ((k.setRegion b ⟨name, true, 0, n, pages⟩).withMachine s) =
          reserved k ∪ {d | ∃ j < n, pages j / pageSize = d} := by simp [reserved_setRegion hslot, hb, Region.frame]
      rw [hset]
      exact hcleared.rehome fun d _ n hn => home_setRegion_empty hslot hn
  · obtain ⟨htable, hkernel⟩ := halloc.state.apart f (.inr ⟨j, hj, heq⟩)
    exact hf.elim htable hkernel

theorem Sound.shmCreate (name : List UInt8) (size : ℕ) : Sound kernel (shmCreate name size k).2 := by
  rw [Shm.shmCreate]
  split
  · exact h
  rename_i hsize
  split
  · exact h
  cases hslot : shmAllocSlot k with
  | none => exact h
  | some b =>
    obtain ⟨-, hb, hempty, -⟩ := search_some hslot
    have hempty : (k.shmTable b).valid = false := by simpa using hempty
    have hpages : 0 < alignUp size pageSize / pageSize ∧ alignUp size pageSize / pageSize ≤ shmMaxPages := by
      simp only [alignUp, addWord, wordSize, shmMaxPages, pageSize] at *
      omega
    have hinit : Allocating kernel k 0 (k.machine.pmm, (k.shmTable b).physPages) := by
      have hset : (reserved k ∪ {d | ∃ j < 0, (k.shmTable b).physPages j / pageSize = d}) = reserved k := by simp
      refine ⟨hset.symm ▸ h.state, ?_, ?_, ?_, ?_⟩ <;> intro j hj <;> cases hj
    have hloop := foldlM_range_outcomes (Allocating kernel k) hinit (fun i _ st hst => hst.allocPage)
      (rfl : (List.range (alignUp size pageSize / pageSize)).foldlM allocPage _ = _)
    dsimp only
    cases hres : (List.range (alignUp size pageSize / pageSize)).foldlM allocPage
      (k.machine.pmm, (k.shmTable b).physPages) with
    | error e =>
      rw [hres] at hloop
      exact h.shmCreate_failed hempty hloop
    | ok st =>
      rw [hres] at hloop
      exact h.shmCreate_done (by omega) hempty hpages.1 hpages.2 hloop _

theorem Sound.sysShmOpen (name : Option (List UInt8)) (size : ℕ) : Sound kernel (sysShmOpen name size k).2 := by
  cases name with
  | none => exact h
  | some name =>
    simp only [Shm.sysShmOpen]
    cases shmFindByName name k with
    | some a => exact h
    | none =>
      dsimp only
      split
      · exact h
      · have hcreate := h.shmCreate name size
        generalize Shm.shmCreate name size k = res at hcreate ⊢
        obtain ⟨_ | a, k'⟩ := res <;> exact hcreate

theorem Sound.mapPages {pml4 : ℕ} (hspace : pml4 ∈ liveSpaces k) (ha : a < shmMaxRegions)
    (hvalid : (k.shmTable a).valid) (flags : BitVec 32) :
    Ends (fun s => ReservedState s k.machine.kernelPml4 (liveSpaces k) kernel (reserved k) (home k) ∧
        ∀ i < (k.shmTable a).numPages, leaf s pml4 (shmPage + i) = smallEntry ((k.shmTable a).physPages i) (mapFlags flags))
      (fun e => ReservedState e.2 k.machine.kernelPml4 (liveSpaces k) kernel (reserved k) (home k))
      ((List.range (k.shmTable a).numPages).foldlM
        (shmMapPage (k.shmTable a).physPages pml4 (mapFlags flags)) k.machine) := by
  refine foldlM_range_outcomes (fun c s =>
    ReservedState s k.machine.kernelPml4 (liveSpaces k) kernel (reserved k) (home k) ∧
      ∀ i < c, leaf s pml4 (shmPage + i) = smallEntry ((k.shmTable a).physPages i) (mapFlags flags))
    ⟨h.state, fun i hi => absurd hi (Nat.not_lt_zero i)⟩ ?_ rfl
  rintro c hc s ⟨hs, hleaf⟩
  have hframe : RegionFrame k a c ((k.shmTable a).frame c) := ⟨ha, hvalid, hc, rfl⟩
  have hle := h.pages_le a ha hvalid
  have haddr : shmBase + c * pageSize = (shmPage + c) * pageSize := by
    simp only [shmPage, shmBase, pageSize]
    omega
  have hlt {i : ℕ} (hi : i ≤ c) : shmPage + i < userPages := by
    simp only [shmPage, shmBase, userPages, pageSize, shmMaxPages] at *
    omega
  have halign := h.aligned a c _ hframe
  obtain ⟨hmap, hother, hnew⟩ := hs.map hspace (hlt le_rfl) (.inl ⟨a, c, hframe⟩) ((h.home_eq hframe).mpr rfl)
    (fun m => (h.home_eq hframe).mp) (smallFlags_mapFlags flags)
  rw [← halign, ← haddr] at hmap hother hnew
  rw [shmMapPage]
  split
  · exact hmap
  · rename_i hzero
    refine ⟨hmap, fun i hi => ?_⟩
    rcases Nat.lt_succ_iff_lt_or_eq.mp hi with hi | rfl
    · rw [hother pml4 hspace _ (hlt hi.le) (by omega)]
      exact hleaf i hi
    · exact hnew (not_not.mp hzero)

theorem Sound.sysShmMap {task : Task} (hspace : task.addressSpace ∈ liveSpaces k) (shmId : ℕ)
    (flags : BitVec 64) : Sound kernel (sysShmMap (some task) shmId flags k).2 := by
  rw [Shm.sysShmMap]
  split
  · exact h
  rename_i hvalid
  obtain ⟨hid, hvalid⟩ := not_or.mp hvalid
  have hid : shmId < shmMaxRegions := by omega
  have hvalid : (k.shmTable shmId).valid := by simpa using hvalid
  have hloop := h.mapPages hspace hid hvalid (flags.setWidth 32)
  simp only [shmMap]
  cases hres : (List.range (k.shmTable shmId).numPages).foldlM
    (shmMapPage (k.shmTable shmId).physPages task.addressSpace (mapFlags (flags.setWidth 32))) k.machine with
  | error e =>
    rw [hres] at hloop
    exact h.withMachine (unmapPages_state hspace hloop _ _).1
  | ok s =>
    rw [hres] at hloop
    exact h.setRefcount hid hvalid _ hloop.1

theorem Sound.sysShmClose {shmId : ℕ}
    (hlast : shmId < shmMaxRegions → (k.shmTable shmId).valid → (k.shmTable shmId).refcount ≤ 1 →
      Releasable k shmId) : Sound kernel (sysShmClose shmId k).2 := by
  rw [Shm.sysShmClose]
  split
  · exact h
  rename_i hvalid
  obtain ⟨hid, hvalid⟩ := not_or.mp hvalid
  have hid : shmId < shmMaxRegions := by omega
  have hvalid : (k.shmTable shmId).valid := by simpa using hvalid
  split_ifs with hcount
  · exact h.shmDestroy hid fun _ => hlast hid hvalid hcount
  · exact h.setRefcount hid hvalid _ h.state

theorem Sound.regionAt_spec {pml4 v : ℕ} (hpml4 : pml4 ∈ liveSpaces k)
    (hat : regionAt pml4 v k = some a) : a < shmMaxRegions ∧ (k.shmTable a).valid ∧
      (userIndex (pml4Index v) → userPage v = shmPage ∧
        frameOf k.machine pml4 (userPage v) = some ((k.shmTable a).frame 0)) := by
  obtain ⟨-, ha, hfound, -⟩ := search_some hat
  simp only [Bool.and_eq_true, decide_eq_true_eq] at hfound
  obtain ⟨hvalid, hphys, heq⟩ := hfound
  have ha : a < shmMaxRegions := by omega
  refine ⟨ha, hvalid, fun hv => ?_⟩
  obtain ⟨d, hd, hphys'⟩ := h.state.spaces.vmmGetPhysical_user hpml4 hv (by simpa using hphys)
  have hframe : RegionFrame k a 0 ((k.shmTable a).frame 0) := ⟨ha, hvalid, h.pages_pos a ha hvalid, rfl⟩
  have haligned := h.aligned a 0 _ hframe
  have hdframe : (k.shmTable a).frame 0 = d := by
    rw [haligned, hphys'] at heq
    simp only [pageSize] at heq
    omega
  rw [hdframe] at hframe ⊢
  exact ⟨(h.home_eq hframe).mp (h.state.placed pml4 hpml4 _ d hd (.inl ⟨a, 0, hframe⟩)), hd⟩

theorem Sound.sysShmUnmap {task : Task} {v : ℕ} (hspace : task.addressSpace ∈ liveSpaces k)
    (hlast : ∀ a, regionAt task.addressSpace v k = some a →
      (k.shmTable a).refcount = 0 ∨ (k.shmTable a).refcount = 1 → ReleasableBy k a task.addressSpace v) :
    Sound kernel (sysShmUnmap (some task) v k).2 := by
  simp only [Shm.sysShmUnmap]
  cases hat : regionAt task.addressSpace v k with
  | none => exact h
  | some a =>
    obtain ⟨ha, hvalid, hpage⟩ := h.regionAt_spec hspace hat
    obtain ⟨hstate, hpmm, hleaf⟩ := unmapPages_state hspace h.state v (k.shmTable a).numPages
    simp only [shmUnmap]
    have hcount : (if 0 < (k.shmTable a).refcount then (k.shmTable a).refcount - 1 else (k.shmTable a).refcount) = 0 →
        (k.shmTable a).refcount = 0 ∨ (k.shmTable a).refcount = 1 := by
      split <;> omega
    generalize (if 0 < (k.shmTable a).refcount then (k.shmTable a).refcount - 1 else (k.shmTable a).refcount) = c
      at hcount ⊢
    have hunmapped := h.setRefcount ha hvalid c hstate
    split_ifs with hzero
    · refine hunmapped.shmDestroy ha fun _ i hi => ?_
      have hself : update k.shmTable a { k.shmTable a with refcount := c } a =
          { k.shmTable a with refcount := c } := update_self _ _ _
      simp only [mappers, ShmKernel.withMachine, ShmKernel.setRegion, hself] at hi ⊢
      rw [liveSpaces_of_root hstate.root_eq]
      change _ < refs (unmapPages task.addressSpace v (k.shmTable a).numPages k.machine) ((k.shmTable a).frame i)
      rw [refs, hpmm]
      refine lt_of_le_of_lt (Finset.card_le_card fun x hx => ?_) (hlast a hat (hcount hzero) i hi)
      obtain ⟨hx, hd⟩ := Finset.mem_filter.mp hx
      obtain ⟨hn, hpresent, hd⟩ := frameOf_eq_some.mp hd
      obtain ⟨hin, hout⟩ := hleaf x hx _ hn
      have hkept := fun hbad => Bool.false_ne_true ((hin hbad).symm.trans hpresent)
      rw [hout hkept] at hpresent hd
      refine Finset.mem_filter.mpr ⟨Finset.mem_filter.mpr ⟨hx, frameOf_eq_some.mpr ⟨hn, hpresent, hd⟩⟩, ?_⟩
      rintro ⟨hv, rfl⟩
      obtain ⟨huser, hpage⟩ := userPage_addWord (hpage hv).1 (lt_of_lt_of_le hi (h.pages_le a ha hvalid))
      exact hkept ⟨rfl, i, hi, huser, hpage.symm⟩
    · exact hunmapped

end

end AetherOs.Shm
