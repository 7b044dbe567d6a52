import AetherOs.Paging.FailedClone
import AetherOs.Paging.UserAccess
import AetherOs.Paging.Teardown

/-! # What a failed fork leaves behind -/

namespace AetherOs.Paging

open Base.Radix Function Finset

/-! ## Unwinding a clone -/

section

variable {s s' e : Machine} {m : Pmm} {kernel : Set ℕ} {src dst n f d k : ℕ}

/-! ## The child is destroyed -/

def Dropped (k c : ℕ) (m : Pmm) (f : ℕ) : Prop :=
  (c = 0 ∨ c < k → ¬ Free m f ∧ (m.refcounts f).toNat = k - c) ∧ (c ≠ 0 → k ≤ c → Free m f)

theorem Dropped.succ {c : ℕ} (h : Dropped k c m f) (hlt : f < maxFrames) :
    Dropped k (c + 1) (pmmFreeFrame (f * pageSize) m) f := by
  have hfree (hf : Free m f) : Free (pmmFreeFrame (f * pageSize) m) f := free_pmmFreeFrame.mpr (.inl hf)
  refine ⟨fun hc => ?_, fun _ hle => ?_⟩
  · have hck : c + 1 < k := by omega
    obtain ⟨hused, hcount⟩ := h.1 (.inr (by omega))
    obtain ⟨hused', hcount'⟩ := pmmFreeFrame_shared hlt hused (by omega)
    exact ⟨hused', by omega⟩
  · by_cases hc : c = 0 ∨ c < k
    · obtain ⟨-, hcount⟩ := h.1 hc
      exact free_pmmFreeFrame.mpr (.inr ⟨rfl, hlt, by omega⟩)
    · exact hfree (h.2 (by omega) (by omega))

theorem Dropped.of_ne {c : ℕ} (h : Dropped k c m f) (hne : f ≠ d) : Dropped k c (pmmFreeFrame (d * pageSize) m) f := by
  have hfree : Free (pmmFreeFrame (d * pageSize) m) f ↔ Free m f := by
    rw [free_pmmFreeFrame]
    exact ⟨fun hf => hf.resolve_right fun hf => hne hf.1, .inl⟩
  rw [Dropped, hfree, refcounts_pmmFreeFrame hne]
  exact h

theorem refcounts_pmmFreeFrame_beyond (hf : maxFrames ≤ f) :
    (pmmFreeFrame (d * pageSize) m).refcounts f = m.refcounts f := by
  by_cases hfd : f = d
  · subst hfd
    simp only [pmmFreeFrame, frame_div, if_pos hf]
  · exact refcounts_pmmFreeFrame hfd

theorem freeAll_of_free (frames : List ℕ) (hf : Free m f) :
    Free (freeAll frames m) f ∧ (freeAll frames m).refcounts f = m.refcounts f := by
  induction frames generalizing m with
  | nil => exact ⟨hf, rfl⟩
  | cons g frames ih =>
    have hkeep : Free (pmmFreeFrame (g * pageSize) m) f ∧
        (pmmFreeFrame (g * pageSize) m).refcounts f = m.refcounts f := by
      refine ⟨free_pmmFreeFrame.mpr (.inl hf), ?_⟩
      by_cases hfg : f = g
      · subst hfg
        simp only [pmmFreeFrame, frame_div, hf.2, if_neg (Nat.not_le.mpr hf.1), Bool.not_false, if_true]
      · exact refcounts_pmmFreeFrame hfg
    obtain ⟨hfree, hcount⟩ := ih hkeep.1
    exact ⟨hfree, hcount.trans hkeep.2⟩

theorem freeAll_of_mem {frames : List ℕ} (hmem : f ∈ frames) (hlt : f < maxFrames) (hused : ¬ Free m f)
    (hone : (m.refcounts f).toNat = 1) : Free (freeAll frames m) f ∧ (freeAll frames m).refcounts f = 0 := by
  induction frames generalizing m with
  | nil => cases hmem
  | cons g frames ih =>
    by_cases hfg : f = g
    · subst hfg
      have hfree : Free (pmmFreeFrame (f * pageSize) m) f := free_pmmFreeFrame.mpr (.inr ⟨rfl, hlt, hone.le⟩)
      have hbit : pmmTestBit m f := by
        by_contra hbit
        exact hused ⟨hlt, Bool.eq_false_iff.mpr hbit⟩
      have hfew : ¬ 1 < m.refcounts f := by
        rw [BitVec.lt_def, hone]
        decide
      have hcount : (pmmFreeFrame (f * pageSize) m).refcounts f = 0 := by
        simp only [pmmFreeFrame, frame_div, hbit, if_neg (Nat.not_le.mpr hlt), if_neg hfew, Bool.not_true,
          Bool.false_eq_true, if_false, update_self]
      obtain ⟨hend, hsame⟩ := freeAll_of_free frames hfree
      exact ⟨hend, hsame.trans hcount⟩
    · have hcount := refcounts_pmmFreeFrame (m := m) hfg
      exact ih ((List.mem_cons.mp hmem).resolve_left hfg) (not_free_pmmFreeFrame hfg hused) (hcount ▸ hone)

structure Unwound (s : Machine) (kernel : Set ℕ) (src n : ℕ) (s' : Machine) : Prop where
  spaces : UserSpaces s' {src} kernel
  pages : ∀ i < userPages, leaf s' src i = demoted s src n i
  idle : ∀ f, Free s.pmm f → (Free s'.pmm f ↔ f ≠ nullFrame) ∧ (f ≠ nullFrame → refs s' f = refs s f ∨ refs s' f = 0)
  used : ∀ f, ¬ Free s.pmm f → f < maxFrames → Dropped (sharedRefs s src n f) (shares s src n f) s'.pmm f
  beyond : ∀ f, maxFrames ≤ f → refs s' f = refs s f
  reach : ∀ i < userPages, isMapped s src i = true →
    (i < n ↔ Supplies (List.replicate (tablesFor (isMapped s src) (i + 1)) true) s.pmm)

namespace HalfBuilt

variable (h : HalfBuilt s kernel src dst n e)

include h

theorem shares_child {b : ℕ} (hn : n ≤ b) : shares e dst b f = shares s src n f := by
  refine congrArg Finset.card (Finset.ext fun i => ?_)
  simp only [mem_filter, mem_range, h.child]
  by_cases hin : i < n
  · simp [hin, hin.trans_le hn]
  · simp [hin]

theorem dropped :
    (∀ f, ¬ Free s.pmm f → f < maxFrames →
      Dropped (refs e f) (shares e dst userPages f) (vmmDestroyAddressSpace dst e).pmm f) ∧
    ∀ f, maxFrames ≤ f → (vmmDestroyAddressSpace dst e).pmm.refcounts f = e.pmm.refcounts f := by
  refine destroy_induction (D := fun b m => (∀ f, ¬ Free s.pmm f → f < maxFrames →
    Dropped (refs e f) (shares e dst b f) m f) ∧ ∀ f, maxFrames ≤ f → m.refcounts f = e.pmm.refcounts f)
    h.spaces (.inl rfl) ⟨fun b m hm hb habsent => ?_, fun b m hm hb hpresent => ?_, fun b m t hm ht => ?_⟩
    ⟨fun f hf hlt => ?_, fun f hf => rfl⟩
  · have hnone : frameOf e dst b = none := frameOf_eq_none fun _ => habsent
    simpa only [shares_succ, hnone, reduceCtorEq, if_false, Nat.add_zero] using hm
  · have hd : frameOf e dst b = some (tableOf (leaf e dst b)) := frameOf_eq_some.mpr ⟨hb, hpresent, rfl⟩
    refine ⟨fun f hf hlt => ?_, fun f hf => (refcounts_pmmFreeFrame_beyond hf).trans (hm.2 f hf)⟩
    rw [shares_succ, hd]
    by_cases hfd : f = tableOf (leaf e dst b)
    · subst hfd
      rw [if_pos rfl]
      exact (hm.1 _ hf hlt).succ hlt
    · rw [if_neg fun heq => hfd (Option.some.inj heq).symm]
      exact (hm.1 f hf hlt).of_ne hfd
  · refine ⟨fun f hf hlt => (hm.1 f hf hlt).of_ne ?_, fun f hf => (refcounts_pmmFreeFrame_beyond hf).trans (hm.2 f hf)⟩
    rintro rfl
    exact hf ((h.supply f).mpr (.inl (.inr ht)))
  · refine ⟨fun _ => ⟨fun hfree => hf ((h.supply f).mpr (.inl (.inl hfree))), ?_⟩, fun hne => absurd ?_ hne⟩
    · simp [shares, refs]
    · simp [shares]

theorem unwound (hne : src ≠ dst) (hheld : Held s {src}) (hn : n < userPages) :
    Unwound s kernel src n (vmmDestroyAddressSpace dst e) := by
  have hdst : dst ∈ insert dst ({src} : Set ℕ) := .inl rfl
  obtain ⟨hdropped, hbeyond⟩ := h.dropped
  have hpmm := vmmDestroyAddressSpace_eq h.spaces hdst
  have hmem (f : ℕ) := mem_releasedFrames (f := f) h.spaces hdst
  refine ⟨(h.spaces.destroy hdst).subset ?_, h.pages, fun f hf => ?_, fun f hf hlt => ?_, fun f hf => ?_, fun i hi hmapped => ?_⟩
  · rintro _ rfl
    exact ⟨.inr rfl, hne⟩
  · rw [refs, hpmm]
    by_cases hnull : f = nullFrame
    · have hnot : f ∉ releasedFrames e dst := by
        rw [hmem]
        rintro (ht | ⟨i, hi⟩)
        · exact h.gone (hnull ▸ hf) (hnull ▸ .inr ht)
        · rw [h.child] at hi
          split at hi
          · obtain ⟨hlt, hpresent, rfl⟩ := frameOf_eq_some.mp hi
            exact hheld src rfl i hlt hpresent hf
          · cases hi
      rw [(freeAll_of_notMem hnot).1]
      exact ⟨iff_of_false (fun hfree => h.gone (hnull ▸ hf) (hnull ▸ .inl hfree)) (not_not.mpr hnull),
        fun hne => absurd hnull hne⟩
    · rcases ((h.supply f).mp hf).resolve_right fun hlost => hnull hlost.2 with hfree | ht
      · obtain ⟨hend, hcount⟩ := freeAll_of_free (releasedFrames e dst) hfree
        exact ⟨iff_of_true hend hnull, fun _ => .inl ((congrArg BitVec.toNat hcount).trans (h.refs_free f hfree))⟩
      · have hkept := h.spaces.tables.kept f (ht.isTable.mono (Set.singleton_subset_iff.mpr hdst))
        obtain ⟨hend, hcount⟩ := freeAll_of_mem ((hmem f).mpr (.inl ht)) hf.1 hkept (h.counts f ht)
        exact ⟨iff_of_true hend hnull, fun _ => .inr (congrArg BitVec.toNat hcount)⟩
  · rw [← h.shares_child hn.le, ← h.refs_used f hf]
    exact hdropped f hf hlt
  · have hused : ¬ Free s.pmm f := fun hfree => absurd hfree.1 (Nat.not_lt.mpr hf)
    refine (congrArg BitVec.toNat (hbeyond f hf)).trans ((h.refs_used f hused).trans ?_)
    rw [sharedRefs, if_neg (Nat.not_lt.mpr hf)]
  · constructor
    · exact fun hlt => h.reached.mono (tablesFor_mono _ hlt)
    · intro hserve
      by_contra hge
      exact h.stopped (hserve.mono (tablesFor_mono _ (by omega)))

end HalfBuilt

/-! ## The call -/

theorem vmmCreateAddressSpace_lowest (hzero : ¬ Free s.pmm 0) (hroot : ¬ Free s.pmm s.kernelPml4) :
    (∃ z, Free s.pmm z ∧ (∀ g, Free s.pmm g → z ≤ g) ∧ z ≠ nullFrame ∧
      vmmCreateAddressSpace s = (some z, newSpace s z)) ∨
    (vmmCreateAddressSpace s = (none, s) ∧ ∀ g, ¬ Free s.pmm g) ∨
    (Free s.pmm nullFrame ∧ (∀ g, Free s.pmm g → nullFrame ≤ g) ∧ vmmCreateAddressSpace s =
      (none, { s with pmm := takeFrame nullFrame s.pmm, mem := fill s.mem nullFrame 0 })) := by
  rcases pmmAllocFrame_lowest s.pmm with ⟨halloc, hnone⟩ | ⟨z, hz, hlowest, halloc⟩
  · refine .inr (.inl ⟨?_, hnone⟩)
    simp [vmmCreateAddressSpace, allocPageTable, halloc]
  · have hz0 := hz.address_ne_zero hzero
    by_cases hnull : z = nullFrame
    · subst hnull
      have hptr : tablePointer (nullFrame * pageSize) = none := by
        rw [tablePointer, if_pos ((physToVirt_eq_zero hz.1).mpr rfl)]
      refine .inr (.inr ⟨hz, hlowest, ?_⟩)
      simp only [vmmCreateAddressSpace, allocPageTable, halloc, hz0, if_false, hptr, frame_div]
    · have hptr : tablePointer (z * pageSize) = some z := by
        rw [tablePointer, if_neg ((physToVirt_eq_zero hz.1).not.mpr hnull), frame_div]
      have hcreate : (vmmCreateAddressSpace s).1 = some z := by
        simp only [vmmCreateAddressSpace, allocPageTable, halloc, hz0, if_false, hptr]
      refine .inl ⟨z, hz, hlowest, hnull, Prod.ext hcreate ?_⟩
      exact (vmmCreateAddressSpace_eq hroot (Prod.ext hcreate rfl)).2.2

theorem unwound_create (h : UserSpaces s' {src} kernel) (hleaf : ∀ i, leaf s' src i = leaf s src i)
    (hfree : ∀ f, Free s'.pmm f ↔ Free s.pmm f ∧ f ≠ nullFrame)
    (hrefs : ∀ f, f ≠ nullFrame ∨ ¬ Free s.pmm f → refs s' f = refs s f)
    (hfail : ¬ Supplies [true] s.pmm) : Unwound s kernel src 0 s' := by
  have hlimit (f : ℕ) : refs s f < 256 := (s.pmm.refcounts f).isLt
  have hnone (f : ℕ) : shares s src 0 f = 0 := by simp [shares]
  refine ⟨h, fun i _ => ?_, fun f hf => ⟨?_, fun hne => .inl (hrefs f (.inl hne))⟩, fun f hf hlt => ?_, fun f hf => ?_,
    fun i _ _ => ?_⟩
  · rw [hleaf, demoted, if_neg (by omega)]
  · rw [hfree]
    exact and_iff_right hf
  · rw [sharedRefs, if_pos hlt, hnone]
    refine ⟨fun _ => ⟨fun hf' => hf ((hfree f).mp hf').1, ?_⟩, fun hne => absurd rfl hne⟩
    have hsame := hrefs f (.inr hf)
    have := hlimit f
    rw [refs] at hsame
    omega
  · exact hrefs f (.inr fun hfree => absurd hfree.1 (Nat.not_lt.mpr hf))
  · refine iff_of_false (by omega) fun hserve => hfail ?_
    have hpos : 1 ≤ tablesFor (isMapped s src) (i + 1) := tablesFor_mono _ (Nat.zero_le _)
    exact hserve.mono (k := 1) hpos

theorem vmmCloneAddressSpace_outcome (h : UserSpaces s {src} kernel) (hheld : Held s {src}) (hzero : ¬ Free s.pmm 0) :
    (∃ dst t, vmmCloneAddressSpace src s = (some dst, t) ∧ Forking s kernel src dst userPages t) ∨
      ∃ s' n, vmmCloneAddressSpace src s = (none, s') ∧ Unwound s kernel src n s' := by
  have hroot := h.tables.shared_kept _ h.kernelHalf.root
  rw [vmmCloneAddressSpace]
  rcases vmmCreateAddressSpace_lowest hzero hroot with ⟨dst, hdst, hlowest, hnull, hcreate⟩ | ⟨hcreate, hnone⟩ |
    ⟨hfree, hlowest, hcreate⟩
  · have hstart := Forking.start h hheld hdst hlowest hzero hnull
    have hrounds : CloneRounds (insert dst {src}) kernel src dst (Forking s kernel src dst) _ :=
      forking_rounds hheld hzero
    have hends := hrounds.loop_ends (.inr rfl) hstart rfl
    rw [hcreate]
    dsimp only
    cases hloop : (List.range 256).foldlM (clonePointers dst src) (newSpace s dst) with
    | ok t =>
      rw [hloop] at hends
      exact .inl ⟨dst, t, rfl, hends⟩
    | error e =>
      rw [hloop] at hends
      obtain ⟨n, hn, -, hhalf⟩ := hends
      refine .inr ⟨_, n, rfl, hhalf.unwound ?_ hheld hn⟩
      rintro rfl
      exact h.tables.kept src ⟨src, rfl, [], .nil, rfl⟩ hdst
  · rw [hcreate]
    refine .inr ⟨s, 0, rfl, unwound_create h (fun _ => rfl) (fun f => ?_) (fun _ _ => rfl) fun hserve => ?_⟩
    · simp [hnone f]
    · obtain ⟨z, hz, -⟩ := supplies_cons.mp hserve
      exact hnone z hz
  · rw [hcreate]
    have hmem {f : ℕ} (hf : ¬ Free s.pmm f) : fill s.mem nullFrame 0 f = s.mem f :=
      fill_of_ne (hfree.ne hf)
    have htables (f : ℕ) (hf : IsTable s {src} f) := hmem (h.tables.kept f hf)
    refine .inr ⟨_, 0, rfl, unwound_create ?_ (fun i => leaf_of_frames htables rfl) (fun f => free_takeFrame)
      (fun f hf => ?_) fun hserve => ?_⟩
    · exact h.of_frames htables (fun f hf => hmem (h.tables.shared_kept f hf)) rfl fun f hf =>
        not_free_takeFrame (h.tables.used hf)
    · rcases hf with hne | hused
      · exact congrArg BitVec.toNat (update_of_ne hne _ _)
      · exact congrArg BitVec.toNat (refcounts_takeFrame hfree hused)
    · obtain ⟨z, hz, hlowest', -, hne, -⟩ := supplies_cons.mp hserve
      exact hne rfl (le_antisymm (hlowest' _ hfree) (hlowest z hz))

theorem exists_unwound_of_not_supplies (h : UserSpaces s {src} kernel) (hheld : Held s {src})
    (hzero : ¬ Free s.pmm 0) (hk : k ≤ userPages)
    (hfew : ¬ Supplies (List.replicate (tablesFor (isMapped s src) k) true) s.pmm) :
    ∃ s' n, vmmCloneAddressSpace src s = (none, s') ∧ Unwound s kernel src n s' := by
  refine (vmmCloneAddressSpace_outcome h hheld hzero).resolve_left ?_
  rintro ⟨dst, t, -, hfork⟩
  exact hfew (hfork.supplied.mono (tablesFor_mono _ hk))

end

/-! ## What a failed fork leaves behind -/

section

def Reached (s : Machine) (r n : ℕ) : Prop :=
  isMapped s r n = true ∧ Supplies (List.replicate (tablesFor (isMapped s r) (n + 1)) true) s.pmm

instance (s : Machine) (r n : ℕ) : Decidable (Reached s r n) := inferInstanceAs (Decidable (_ ∧ _))

def reachedShares (s : Machine) (r f : ℕ) : ℕ :=
  ((Finset.range userPages).filter fun i => frameOf s r i = some f ∧ Reached s r i).card

structure Untouched (s : Machine) (r : ℕ) (s' : Machine) : Prop where
  free : ∀ f, Free s'.pmm f ↔ Free s.pmm f
  counts : ∀ f, refs s' f = refs s f
  frames : ∀ i, frameOf s' r i = frameOf s r i
  writes : ∀ v b, v < userPages * pageSize → ((userWrite s' r v b).isSome = true ↔ (userWrite s r v b).isSome = true)

structure Restorable (s : Machine) (r : ℕ) : Prop where
  zero : ¬ Free s.pmm 0
  null : ¬ Free s.pmm nullFrame
  counts : ∀ f < maxFrames, reachedShares s r f = 0 ∨ (1 ≤ refs s f ∧ refs s f + reachedShares s r f ≤ 255)
  writable : ∀ i < userPages, Reached s r i →
    hasFlag (leaf s r i) pteWritable = true ∨ hasFlag (leaf s r i) pteCow = true

variable {s s' : Machine} {m : Pmm} {kernel : Set ℕ} {src n f : ℕ}

theorem pmmAllocFrame_ne_zero (hzero : ¬ Free m 0) : (pmmAllocFrame m).1 ≠ 0 ↔ ∃ f, Free m f := by
  rcases pmmAllocFrame_lowest m with ⟨halloc, hnone⟩ | ⟨z, hz, -, halloc⟩
  · rw [halloc]
    exact iff_of_false (fun hne => hne rfl) fun ⟨f, hf⟩ => hnone f hf
  · rw [halloc]
    exact iff_of_true (hz.address_ne_zero hzero) ⟨z, hz⟩

theorem Reached.exists_free {i : ℕ} (h : Reached s src i) : ∃ f, Free s.pmm f ∧ f ≠ nullFrame := by
  have hpos : 1 ≤ tablesFor (isMapped s src) (i + 1) := tablesFor_mono _ (Nat.zero_le _)
  obtain ⟨z, hz, -, -, hne, -⟩ := supplies_cons.mp (h.2.mono (k := 1) hpos)
  exact ⟨z, hz, hne rfl⟩

theorem Reached.alloc_ne_zero {i : ℕ} (h : Reached s src i) (hzero : ¬ Free s.pmm 0) :
    (pmmAllocFrame s.pmm).1 ≠ 0 := by
  obtain ⟨z, hz, -⟩ := h.exists_free
  exact (pmmAllocFrame_ne_zero hzero).mpr ⟨z, hz⟩

namespace Unwound

variable (hu : Unwound s kernel src n s')

include hu

theorem reached_iff {i : ℕ} (hi : i < userPages) : Reached s src i ↔ i < n ∧ isMapped s src i := by
  rw [Reached]
  by_cases hmapped : isMapped s src i
  · simp only [hmapped, true_and, and_true]
    exact (hu.reach i hi hmapped).symm
  · simp [hmapped]

theorem reachedShares_eq : reachedShares s src f = shares s src n f := by
  refine congrArg Finset.card (Finset.ext fun i => ?_)
  simp only [mem_filter, mem_range]
  constructor
  · rintro ⟨hi, hf, hreached⟩
    exact ⟨((hu.reached_iff hi).mp hreached).1, hf⟩
  · rintro ⟨hi, hf⟩
    have hlt := (frameOf_eq_some.mp hf)
    exact ⟨hlt.1, hf, (hu.reached_iff hlt.1).mpr ⟨hi, hlt.2.1⟩⟩

theorem restored_iff (hf : ¬ Free s.pmm f) (hlt : f < maxFrames) :
    (¬ Free s'.pmm f ∧ refs s' f = refs s f) ↔
      reachedShares s src f = 0 ∨ (1 ≤ refs s f ∧ refs s f + reachedShares s src f ≤ 255) := by
  obtain ⟨hkeep, hfree⟩ := hu.used f hf hlt
  have hlimit : refs s f < 256 := (s.pmm.refcounts f).isLt
  rw [hu.reachedShares_eq]
  rw [sharedRefs, if_pos hlt] at hkeep hfree
  change _ → _ ∧ refs s' f = _ at hkeep
  generalize shares s src n f = c at *
  generalize refs s f = k at *
  constructor
  · rintro ⟨hused, hsame⟩
    by_contra hbad
    by_cases hle : min 255 (k + c) ≤ c
    · exact hused (hfree (by omega) hle)
    · have := (hkeep (by omega)).2
      omega
  · intro hgood
    obtain ⟨hused, hcount⟩ := hkeep (by omega)
    exact ⟨hused, by omega⟩

theorem reachedShares_of_free (hheld : Held s {src}) (hf : Free s.pmm f) : reachedShares s src f = 0 := by
  rw [hu.reachedShares_eq, shares, card_eq_zero, filter_eq_empty_iff]
  intro i _ hi
  obtain ⟨hlt, hpresent, rfl⟩ := frameOf_eq_some.mp hi
  exact hheld src rfl i hlt hpresent hf

theorem frameOf_src (i : ℕ) : frameOf s' src i = frameOf s src i :=
  frameOf_congr fun hi => by rw [hu.pages i hi]; exact samePage_demoted _ _ _ _

theorem userWrite_of_reached {i : ℕ} {b : BitVec 8} (hi : i < userPages) (hreached : Reached s src i)
    (hzero : ¬ Free s'.pmm 0) (hptr : physToVirt (src * pageSize) ≠ 0) :
    (userWrite s' src (i * pageSize) b).isSome := by
  obtain ⟨hin, hmapped⟩ := (hu.reached_iff hi).mp hreached
  obtain ⟨z, hz, hne⟩ := hreached.exists_free
  have hv : i * pageSize < userPages * pageSize := Nat.mul_lt_mul_of_pos_right hi (by decide)
  have hleaf : leaf s' src i = cowEntry (leaf s src i) := by rw [hu.pages i hi, demoted, if_pos ⟨hin, hmapped⟩]
  rw [hu.spaces.userWrite_isSome rfl hptr hv, frame_div, hleaf]
  refine ⟨(samePage_cowEntry _).present.trans hmapped, .inr ⟨hasFlag_cowEntry_cow _, .inr ?_⟩⟩
  exact (pmmAllocFrame_ne_zero hzero).mpr ⟨z, (hu.idle z hz).1.mpr hne⟩

section

variable (h : UserSpaces s {src} kernel) (hheld : Held s {src}) (hidle : ∀ f, Free s.pmm f → refs s f = 0)
  (hzero : ¬ Free s.pmm 0) (hptr : physToVirt (src * pageSize) ≠ 0)

include h hzero hptr

include hheld in
theorem restorable (hun : Untouched s src s') : Restorable s src := by
  have hnull : ¬ Free s.pmm nullFrame := fun hnull =>
    ((hu.idle _ hnull).1.mp ((hun.free _).mpr hnull)) rfl
  refine ⟨hzero, hnull, fun f hlt => ?_, fun i hi hreached => ?_⟩
  · by_cases hf : Free s.pmm f
    · exact .inl (hu.reachedShares_of_free hheld hf)
    · exact (hu.restored_iff hf hlt).mp ⟨(hun.free f).not.mpr hf, hun.counts f⟩
  · have hv : i * pageSize < userPages * pageSize := Nat.mul_lt_mul_of_pos_right hi (by decide)
    have hafter := hu.userWrite_of_reached (b := 0) hi hreached ((hun.free 0).not.mpr hzero) hptr
    have hbefore := (hun.writes _ 0 hv).mp hafter
    rw [h.userWrite_isSome rfl hptr hv, frame_div] at hbefore
    exact hbefore.2.imp id And.left

include hidle

theorem untouched (hres : Restorable s src) : Untouched s src s' := by
  have hused {f : ℕ} (hf : ¬ Free s.pmm f) : ¬ Free s'.pmm f ∧ refs s' f = refs s f := by
    by_cases hlt : f < maxFrames
    · exact (hu.restored_iff hf hlt).mpr (hres.counts f hlt)
    · exact ⟨fun hfree => hlt hfree.1, hu.beyond f (Nat.not_lt.mp hlt)⟩
  have hfree (f : ℕ) : Free s'.pmm f ↔ Free s.pmm f := by
    by_cases hf : Free s.pmm f
    · refine iff_of_true ((hu.idle f hf).1.mpr ?_) hf
      rintro rfl
      exact hres.null hf
    · exact iff_of_false (hused hf).1 hf
  have hcounts (f : ℕ) : refs s' f = refs s f := by
    by_cases hf : Free s.pmm f
    · rw [hidle f hf]
      refine ((hu.idle f hf).2 ?_).elim (fun heq => heq.trans (hidle f hf)) id
      rintro rfl
      exact hres.null hf
    · exact (hused hf).2
  have halloc : (pmmAllocFrame s'.pmm).1 ≠ 0 ↔ (pmmAllocFrame s.pmm).1 ≠ 0 := by
    rw [pmmAllocFrame_ne_zero hzero, pmmAllocFrame_ne_zero ((hfree 0).not.mpr hzero)]
    exact exists_congr hfree
  have hrefcount (p : ℕ) : pmmGetRefcount s'.pmm p = pmmGetRefcount s.pmm p := by
    rw [pmmGetRefcount, pmmGetRefcount, BitVec.eq_of_toNat_eq (hcounts (p / pageSize))]
  refine ⟨hfree, hcounts, hu.frameOf_src, fun v b hv => ?_⟩
  have hn := page_lt hv
  rw [hu.spaces.userWrite_isSome rfl hptr hv, h.userWrite_isSome rfl hptr hv, hrefcount, halloc, hu.pages _ hn]
  by_cases hshared : v / pageSize < n ∧ isMapped s src (v / pageSize)
  · have hreached := (hu.reached_iff hn).mpr hshared
    have hsome := hreached.alloc_ne_zero hzero
    rw [demoted, if_pos hshared]
    refine iff_of_true ⟨(samePage_cowEntry _).present.trans hshared.2, .inr ⟨hasFlag_cowEntry_cow _, .inr hsome⟩⟩ ?_
    exact ⟨hshared.2, (hres.writable _ hn hreached).imp id fun hcow => ⟨hcow, .inr hsome⟩⟩
  · rw [demoted, if_neg hshared]

end

end Unwound

theorem not_free_zero_clone (src : ℕ) (hzero : Free s.pmm 0) : ¬ Free (vmmCloneAddressSpace src s).2.pmm 0 := by
  rcases pmmAllocFrame_lowest s.pmm with ⟨-, hnone⟩ | ⟨z, -, hlowest, halloc⟩
  · exact absurd hzero (hnone 0)
  · obtain rfl : z = 0 := Nat.le_zero.mp (hlowest 0 hzero)
    simp only [vmmCloneAddressSpace, vmmCreateAddressSpace, allocPageTable, halloc, Nat.zero_mul, if_true]
    exact not_free_takeFrame_self

def forkFlags (writable : Bool) : BitVec 64 := ptePresent ||| pteUser ||| (if writable then pteWritable else 0)

def forkPage (writable : Bool) (vaddr : ℕ) (user : vaddr < userPages * pageSize) : UserMapping where
  vaddr := vaddr
  flags := forkFlags writable
  user := user
  flagsOnly := by
    have hbits : ∀ i < 52, 12 ≤ i → ∀ w, (forkFlags w).getLsbD i = false := by decide
    exact fun i hge hlt => hbits i hlt hge writable
  small := by cases writable <;> decide

def tightMachine : Machine where
  mem := fun _ _ => 0
  pmm := { bitmap := fun byte => if byte = 0 then 0x03 else if byte = 1 then 0xE0 else 0xFF
           refcounts := fun f => if f = 1 then 1 else 0
           usedFrameCount := maxFrames - 11 }
  kernelPml4 := 1

def tightParent (writable : Bool) : Machine :=
  mapFresh 2 (mapFresh 2 (vmmCreateAddressSpace tightMachine).2 (forkPage writable 0x1000 (by decide)))
    (forkPage writable 0x200000 (by decide))

theorem building_tightParent (writable : Bool) :
    ∃ lost, Building tightMachine {1} 2 {512, 1} lost (tightParent writable) := by
  have hkept : ∀ t ∈ ({1} : Set ℕ), ¬ Free tightMachine.pmm t := by
    rintro _ rfl hfree
    exact absurd hfree.2 (by decide)
  have hcreate : (vmmCreateAddressSpace tightMachine).1 = some 2 := by decide +kernel
  have hnew : Building tightMachine {1} 2 ∅ False (vmmCreateAddressSpace tightMachine).2 :=
    building_create (kernelHalf_of_empty fun _ _ => rfl) hkept (Prod.ext hcreate rfl)
  have hfirst := (hnew.mapFresh (q := forkPage writable 0x1000 (by decide)) (Set.notMem_empty _)).1
  have hlow : (forkPage writable 0x1000 (by decide)).page = 1 := show 0x1000 / pageSize = 1 by decide
  have hhigh : (forkPage writable 0x200000 (by decide)).page = 512 := show 0x200000 / pageSize = 512 by decide
  rw [hlow] at hfirst
  have hsecond := (hfirst.mapFresh (q := forkPage writable 0x200000 (by decide)) (by simp [hhigh])).1
  rw [hhigh] at hsecond
  exact ⟨_, hsecond.congr (by simp) Iff.rfl⟩

theorem free_tightParent (writable : Bool) (hf : Free (tightParent writable).pmm f) :
    f ∈ ({9, 10, 11, 12} : Finset ℕ) ∧ refs (tightParent writable) f = 0 := by
  obtain ⟨lost, h⟩ := building_tightParent writable
  have hlt : f < 16 := by
    by_contra hge
    have hold := (h.supply f).mpr (.inl (.inl hf))
    have hfull : tightMachine.pmm.bitmap (f / 8) = 0xFF := (if_neg (by omega)).trans (if_neg (by omega))
    rw [Free, pmmTestBit_of_full hfull (by omega) (by omega)] at hold
    exact absurd hold.2 (by decide)
  have hlow : ∀ w, ∀ f < 16, pmmTestBit (tightParent w).pmm f = false →
      f ∈ ({9, 10, 11, 12} : Finset ℕ) ∧ refs (tightParent w) f = 0 := by decide +kernel
  exact hlow writable f hlt hf.2

theorem Building.frames_held {s₀ : Machine} {r : ℕ} {done : Set ℕ} {lost : Prop}
    (h : Building s₀ kernel r done lost s) : Held s {r} := by
  rintro _ rfl n hn hpresent
  exact (h.fresh.taken _ (mem_singleton_self _) n _ (frameOf_eq_some.mpr ⟨hn, hpresent, rfl⟩)).2.1

theorem Building.counts_restorable {s₀ : Machine} {r : ℕ} {done : Set ℕ} {lost : Prop}
    (h : Building s₀ kernel r done lost s) (f : ℕ) :
    reachedShares s r f = 0 ∨ (1 ≤ refs s f ∧ refs s f + reachedShares s r f ≤ 255) := by
  have hr := mem_singleton_self r
  have hone : reachedShares s r f ≤ 1 := by
    refine card_le_one.mpr fun i hi i' hi' => ?_
    exact (h.fresh.apart r hr r hr i i' f (mem_filter.mp hi).2.1 (mem_filter.mp hi').2.1).2
  rcases Nat.eq_zero_or_pos (reachedShares s r f) with hnone | hpos
  · exact .inl hnone
  · obtain ⟨i, hi⟩ := card_pos.mp hpos
    have hrefs := (h.fresh.taken r hr i f (mem_filter.mp hi).2.1).2.2
    omega

theorem clone_tightParent (writable : Bool) :
    ∃ s' n, vmmCloneAddressSpace 2 (tightParent writable) = (none, s') ∧
      Unwound (tightParent writable) {1} 2 n s' := by
  obtain ⟨lost, h⟩ := building_tightParent writable
  have hcount : ∀ w, tablesFor (isMapped (tightParent w) 2) 513 = 5 := by decide +kernel
  refine exists_unwound_of_not_supplies h.spaces h.frames_held h.zero (k := 513) (by decide) fun hserve => ?_
  rw [hcount] at hserve
  exact absurd (hserve.le_card fun f hf => (free_tightParent writable hf).1) (by decide)

end

end AetherOs.Paging
