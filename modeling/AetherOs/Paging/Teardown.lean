import AetherOs.Paging.Accounts
import AetherOs.Paging.CowClone
import AetherOs.Paging.Release

/-! # Tearing down an address space -/

namespace AetherOs.Paging

open Base.Radix Finset

structure UserMapping where
  vaddr : ℕ
  flags : BitVec 64
  user : vaddr < userPages * pageSize
  flagsOnly : FlagsOnly flags
  small : hasFlag flags pteHuge = false

def UserMapping.page (q : UserMapping) : ℕ := q.vaddr / pageSize

theorem UserMapping.page_lt (q : UserMapping) : q.page < userPages :=
  Nat.div_lt_of_lt_mul (by rw [Nat.mul_comm]; exact q.user)

theorem UserMapping.path_page (q : UserMapping) :
    ptPath (q.page * pageSize) = ptPath q.vaddr ∧ ptIndex (q.page * pageSize) = ptIndex q.vaddr :=
  ptPath_page q.vaddr

def attempt (r : ℕ) (q : UserMapping) (s : Machine) : ℤ × Machine :=
  vmmMapPage r q.vaddr (pmmAllocFrame s.pmm).1 q.flags { s with pmm := (pmmAllocFrame s.pmm).2 }

def mapFresh (r : ℕ) (s : Machine) (q : UserMapping) : Machine :=
  if (pmmAllocFrame s.pmm).1 = 0 then { s with pmm := (pmmAllocFrame s.pmm).2 }
  else if (attempt r q s).1 = 0 then (attempt r q s).2
  else { (attempt r q s).2 with pmm := pmmFreeFrame (pmmAllocFrame s.pmm).1 (attempt r q s).2.pmm }

def mapAll (r : ℕ) (qs : List UserMapping) (s : Machine) : Machine := qs.foldl (mapFresh r) s

def StrandsFrame (s : Machine) (r v : ℕ) : Prop :=
  Free s.pmm nullFrame ∧ 0 < (lowFree s.pmm).card ∧ (lowFree s.pmm).card ≤ missingTables s r v

def ReturnsOwn (r : ℕ) (s : Machine) (q : UserMapping) : Prop :=
  (pmmAllocFrame s.pmm).1 ≠ 0 → (attempt r q s).1 ≠ 0 →
    ¬ Free (attempt r q s).2.pmm ((pmmAllocFrame s.pmm).1 / pageSize) ∧
      refs (attempt r q s).2 ((pmmAllocFrame s.pmm).1 / pageSize) = 1

structure Building (s₀ : Machine) (kernel : Set ℕ) (r : ℕ) (done : Set ℕ) (lost : Prop) (s : Machine) : Prop where
  fresh : FreshSpaces s {r} kernel
  pointers : Addressable s r
  counts : ∀ t, OwnTable s userIndex {r} t → refs s t = 1
  zero : ¬ Free s.pmm 0
  mapped : ∀ n d, frameOf s r n = some d → n ∈ done
  supply : ∀ f, Free s₀.pmm f ↔ Supply s r f ∨ (∃ n, frameOf s r n = some f) ∨ (lost ∧ f = nullFrame)
  gone : lost → ¬ Supply s r nullFrame ∧ ∀ n, frameOf s r n ≠ some nullFrame
  root : ∀ i, 256 ≤ i → i < 512 → s.mem r i = s₀.mem s₀.kernelPml4 i
  kept : ∀ f, ¬ Free s₀.pmm f → s.mem f = s₀.mem f ∧ s.pmm.refcounts f = s₀.pmm.refcounts f

variable {s s₀ s₁ s' : Machine} {kernel : Set ℕ} {r f z n : ℕ} {done : Set ℕ} {lost L : Prop} {q : UserMapping}

/-! ## A new address space -/

theorem ownTable_newSpace (hz : EmptySpace s z) : OwnTable s userIndex {z} f ↔ f = z := by
  constructor
  · rintro ⟨_, rfl, p, _, hown, ht⟩
    exact (hz.tableAt_user hown ht).2
  · rintro rfl
    exact ⟨_, rfl, [], .nil, by simp [Owned], rfl⟩

theorem not_free_zero_of_create (hcreate : vmmCreateAddressSpace s₀ = (some r, s₁)) : ¬ Free s₀.pmm 0 := by
  intro hfree
  rcases pmmAllocFrame_lowest s₀.pmm with ⟨-, hnone⟩ | ⟨f, -, hlowest, heq⟩
  · exact hnone 0 hfree
  · obtain rfl : f = 0 := Nat.le_zero.mp (hlowest 0 hfree)
    simp [vmmCreateAddressSpace, allocPageTable, heq] at hcreate

theorem building_create (hkernel : KernelHalf s₀ kernel) (hkept : ∀ t ∈ kernel, ¬ Free s₀.pmm t)
    (hcreate : vmmCreateAddressSpace s₀ = (some r, s₁)) : Building s₀ kernel r ∅ False s₁ := by
  have hfresh := (FreshSpaces.none hkernel hkept).create hcreate
  have hzero := not_free_zero_of_create hcreate
  obtain ⟨hz, hptr, rfl⟩ := vmmCreateAddressSpace_eq (hkept _ hkernel.root) hcreate
  have hempty : EmptySpace (newSpace s₀ r) r := emptySpace_newSpace (hz.ne (hkept _ hkernel.root))
  have hpages := hempty.frameOf_eq_none
  refine ⟨hfresh, fun t ht => ?_, fun t ht => ?_, not_free_takeFrame hzero, fun n d hd => ?_, fun f => ?_, False.elim,
    fun i hi hlt => ?_, fun f hf => ?_⟩
  · obtain rfl := (ownTable_newSpace hempty).mp ht
    exact ⟨hz.1, hptr⟩
  · obtain rfl := (ownTable_newSpace hempty).mp ht
    simp [refs, newSpace, takeFrame]
  · rw [hpages] at hd
    cases hd
  · have hfree : Free (newSpace s₀ r).pmm f ↔ Free s₀.pmm f ∧ f ≠ r := free_takeFrame
    rw [Supply, ownTable_newSpace hempty, hfree]
    by_cases hf : f = r
    · simp [hf, hz]
    · simp [hf, hpages]
  · simp [newSpace, hi, hlt]
  · exact ⟨Function.update_of_ne (hz.ne hf) _ _, refcounts_takeFrame hz hf⟩

/-! ## One mapping -/

structure Walked (kernel : Set ℕ) (r z : ℕ) (lost : Prop) (s s' : Machine) : Prop where
  spaces : UserSpaces s' {r} kernel
  pages : ∀ n, frameOf s' r n = frameOf s r n
  pointers : Addressable s' r
  counts : ∀ t, OwnTable s' userIndex {r} t → refs s' t = 1
  supply : ∀ f, Supply s r f ↔ Supply s' r f ∨ f = z ∨ (lost ∧ f = nullFrame)
  gone : lost → ¬ Supply s' r nullFrame ∧ nullFrame ≠ z
  spare : ¬ Supply s' r z
  refs_spare : refs s' z = 1
  root : ∀ i, ¬ userIndex i → s'.mem r i = s.mem r i
  used : ∀ f, ¬ Free s.pmm f → ¬ Free s'.pmm f
  kept : ∀ f, ¬ Supply s r f → s'.mem f = s.mem f ∧ s'.pmm.refcounts f = s.pmm.refcounts f

theorem strands_iff_strandsFrame {v : ℕ} (hz : Free s.pmm z) (hlowest : ∀ g, Free s.pmm g → z ≤ g) :
    Strands (takeFrame z s.pmm) (missingTables s r v) ↔ StrandsFrame s r v := by
  by_cases hne : z = nullFrame
  · subst hne
    refine iff_of_false (fun h => not_free_takeFrame_self h.1) fun ⟨_, hpos, _⟩ => ?_
    obtain ⟨g, hg⟩ := card_pos.mp hpos
    exact absurd (hlowest g (mem_lowFree.mp hg).1) (Nat.not_le.mpr (mem_lowFree.mp hg).2)
  · rw [strands_takeFrame hz hlowest hne, Strands, StrandsFrame, Nat.lt_succ_iff]
    refine and_congr_right fun hnull => (and_iff_right ?_).symm
    exact card_pos.mpr ⟨z, mem_lowFree.mpr ⟨hz, lt_of_le_of_ne (hlowest _ hnull) hne⟩⟩

section

variable (h : Building s₀ kernel r done lost s)

include h

theorem Building.spaces : UserSpaces s {r} kernel := by
  simpa using h.fresh.spaces

theorem Building.not_own (hz : Free s.pmm z) :
    ¬ OwnTable s userIndex {r} z := fun ht => h.spaces.tables.kept z ht.isTable hz

theorem Building.taken (z : ℕ) :
    UserSpaces { s with pmm := takeFrame z s.pmm } {r} kernel ∧ Held { s with pmm := takeFrame z s.pmm } {r} := by
  have htables := h.spaces.tables
  constructor
  · exact h.spaces.of_frames (fun _ _ => rfl) (fun _ _ => rfl) rfl fun f hf =>
      not_free_takeFrame (htables.used hf)
  · rintro _ rfl n hn hpresent
    have hd := frameOf_eq_some.mpr ⟨hn, hpresent, rfl⟩
    exact not_free_takeFrame (h.fresh.taken _ (mem_singleton_self _) n _ hd).2.1

theorem Building.walked (hz : Free s.pmm z) (hlowest : ∀ g, Free s.pmm g → z ≤ g) (q : UserMapping):
    ∃ s', Walked kernel r z (StrandsFrame s r q.vaddr) s s' ∧
      Extends userIndex {r} kernel { s with pmm := takeFrame z s.pmm } s' ∧
      (vmmMapPage r q.vaddr (z * pageSize) q.flags { s with pmm := takeFrame z s.pmm } = (-1, s') ∨
        ∃ pt, tableAt s' r (ptPath q.vaddr) = some pt ∧
          vmmMapPage r q.vaddr (z * pageSize) q.flags { s with pmm := takeFrame z s.pmm } =
            (0, setEntry pt (ptIndex q.vaddr) (smallEntry (z * pageSize) q.flags) s')) := by
  obtain ⟨hspaces, hheld⟩ := h.taken z
  obtain ⟨haccounts, hres⟩ := (vmmMapPage_requests (z * pageSize) hspaces q.user q.small (not_free_takeFrame h.zero)
    h.pointers).accounts
  have haccounts := haccounts.congr (strands_iff_strandsFrame hz hlowest)
  have hnot := h.not_own hz
  have hsupply (f : ℕ) : Supply { s with pmm := takeFrame z s.pmm } r f ↔ Supply s r f ∧ f ≠ z := by
    have hfree : Free (takeFrame z s.pmm) f ↔ Free s.pmm f ∧ f ≠ z := free_takeFrame
    have hown : OwnTable { s with pmm := takeFrame z s.pmm } userIndex {r} f ↔ OwnTable s userIndex {r} f := Iff.rfl
    rw [Supply, Supply, hown, hfree]
    by_cases hfz : f = z
    · simp [hfz, hnot]
    · simp [hfz]
  have hext := haccounts.toExtends
  refine ⟨_, ⟨hspaces.extends hheld hext, fun n => ?_, h.pointers.extends (s := { s with pmm := takeFrame z s.pmm }) hext,
    fun t ht => ?_, fun f => ?_, fun hl => ?_, fun hs => ?_, ?_, hext.root r rfl,
    fun f hf => hext.kept f (not_free_takeFrame hf), fun f hf => ?_⟩, hext, hres⟩
  · exact frameOf_of_leaf (s := { s with pmm := takeFrame z s.pmm }) fun _ => leaf_of_extends hext rfl
  · rcases haccounts.counts t ht with hold | hone
    · have hused : ¬ Free s.pmm t := h.spaces.tables.kept t hold.isTable
      refine (congrArg BitVec.toNat (hext.refcounts t (not_free_takeFrame hused))).trans ?_
      exact (congrArg BitVec.toNat (refcounts_takeFrame hz hused)).trans (h.counts t hold)
    · exact hone
  · have hboth := (hsupply f).symm.trans (haccounts.supply f)
    by_cases hfz : f = z
    · exact iff_of_true (hfz ▸ .inl hz) (.inr (.inl hfz))
    · simpa [hfz] using hboth
  · exact ⟨haccounts.gone hl, ((hsupply _).mp ((haccounts.supply _).mpr (.inr ⟨hl, rfl⟩))).2⟩
  · exact ((hsupply z).mp ((haccounts.supply z).mpr (.inl hs))).2 rfl
  · exact (congrArg BitVec.toNat (hext.refcounts z not_free_takeFrame_self)).trans (by simp [takeFrame])
  · obtain ⟨hused, hnot⟩ := not_or.mp hf
    refine ⟨hext.memory f (not_free_takeFrame hused) hnot, ?_⟩
    exact (hext.refcounts f (not_free_takeFrame hused)).trans (refcounts_takeFrame hz hused)

theorem Building.page_not_supply (hd : frameOf s r n = some f) :
    ¬ Supply s r f := by
  obtain ⟨hn, hpresent, rfl⟩ := frameOf_eq_some.mp hd
  rintro (hfree | hown)
  · exact (h.fresh.taken r (mem_singleton_self _) n _ hd).2.1 hfree
  · exact (h.spaces.data r rfl n hn hpresent).1 hown.isTable

theorem Building.congr {done' : Set ℕ} {lost' : Prop} (hsub : done ⊆ done') (hiff : lost ↔ lost'): Building s₀ kernel r done' lost' s := by
  obtain rfl := propext hiff
  exact { h with mapped := fun n d hd => hsub (h.mapped n d hd) }

end

section Outcome

variable (h : Building s₀ kernel r done lost s) (hw : Walked kernel r z L s s')

include h hw

theorem Building.gone_walked (hl : lost ∨ L) :
    ¬ Supply s' r nullFrame ∧ nullFrame ≠ z ∧ ∀ n, frameOf s r n ≠ some nullFrame := by
  rcases hl with hl | hl
  · obtain ⟨hnot, hpages⟩ := h.gone hl
    rw [hw.supply] at hnot
    grind
  · obtain ⟨hnot, hne⟩ := hw.gone hl
    exact ⟨hnot, hne, fun n hn => h.page_not_supply hn ((hw.supply _).mpr (.inr (.inr ⟨hl, rfl⟩)))⟩

theorem Building.not_supply (hf : ¬ Free s₀.pmm f) : ¬ Supply s r f ∧ ¬ Supply s' r f ∧ f ≠ z := by
  have hnot : ¬ Supply s r f := fun hs => hf ((h.supply f).mpr (.inl hs))
  refine ⟨hnot, ?_⟩
  rw [hw.supply] at hnot
  grind

theorem Building.failed (hz : Free s.pmm z) :
    Building s₀ kernel r done (lost ∨ L) { s' with pmm := pmmFreeFrame (z * pageSize) s'.pmm } := by
  set t := { s' with pmm := pmmFreeFrame (z * pageSize) s'.pmm }
  have hfree (f : ℕ) : Free (pmmFreeFrame (z * pageSize) s'.pmm) f ↔ Free s'.pmm f ∨ f = z := by
    rw [free_pmmFreeFrame]
    exact or_congr_right ⟨fun h => h.1, fun h => ⟨h, hz.1, hw.refs_spare.le⟩⟩
  have hsupply (f : ℕ) : Supply t r f ↔
      Supply s' r f ∨ f = z := by
    have hown : OwnTable t userIndex {r} f ↔
        OwnTable s' userIndex {r} f := Iff.rfl
    rw [Supply, Supply, hfree, hown]
    grind
  have hne (f : ℕ) (hf : ¬ Supply s r f) : f ≠ z := by
    rintro rfl
    exact hf (.inl hz)
  have hspaces : UserSpaces t {r} kernel := by
    refine hw.spaces.of_frames (fun _ _ => rfl) (fun _ _ => rfl) rfl fun f hf => ?_
    refine not_free_pmmFreeFrame ?_ (hw.spaces.tables.used hf)
    rintro rfl
    have hkernel : f ∉ kernel := fun hf => h.spaces.tables.shared_kept f hf hz
    have hown := (hf.resolve_right hkernel)
    exact hw.spare (.inr ((hw.spaces.tables.own_or_shared hown).resolve_right hkernel))
  have hpages (n : ℕ) : frameOf t r n = frameOf s r n :=
    hw.pages n
  refine ⟨⟨by simpa using hspaces, fun x hx n d hd => ?_, fun x hx y hy n n' d hd hd' => ?_⟩, hw.pointers,
    fun t ht => ?_, ?_, fun n d hd => h.mapped n d ((hpages n).symm.trans hd), fun f => ?_, fun hl => ?_,
    fun i hi hlt => ?_, fun f hf => ?_⟩
  · obtain rfl := mem_singleton.mp hx
    rw [hpages] at hd
    obtain ⟨hlt, hused, hone⟩ := h.fresh.taken x hx n d hd
    have hnot := h.page_not_supply hd
    refine ⟨hlt, not_free_pmmFreeFrame (hne d hnot) (hw.used d hused), ?_⟩
    refine (congrArg BitVec.toNat (refcounts_pmmFreeFrame (hne d hnot))).trans ?_
    exact (congrArg BitVec.toNat (hw.kept d hnot).2).trans hone
  · obtain rfl := mem_singleton.mp hx
    obtain rfl := mem_singleton.mp hy
    rw [hpages] at hd hd'
    exact h.fresh.apart _ hx _ hy n n' d hd hd'
  · have htz : t ≠ z := by
      rintro rfl
      exact hw.spare (.inr ht)
    exact (congrArg BitVec.toNat (refcounts_pmmFreeFrame htz)).trans (hw.counts t ht)
  · rw [hfree]
    rintro (hfree | rfl)
    · exact hw.used 0 h.zero hfree
    · exact h.zero hz
  · rw [h.supply, hw.supply, hsupply]
    simp only [hpages]
    grind
  · obtain ⟨hnot, hne, hnone⟩ := h.gone_walked hw hl
    rw [hsupply]
    exact ⟨not_or.mpr ⟨hnot, hne⟩, fun n => (hpages n).symm ▸ hnone n⟩
  · exact (hw.root i (by simpa [userIndex] using hi)).trans (h.root i hi hlt)
  · obtain ⟨hnot, -, hfz⟩ := h.not_supply hw hf
    obtain ⟨hmem, hcount⟩ := h.kept f hf
    refine ⟨(hw.kept f hnot).1.trans hmem, ?_⟩
    exact (refcounts_pmmFreeFrame hfz).trans ((hw.kept f hnot).2.trans hcount)

theorem Building.succeeded {pt : ℕ} (hz : Free s.pmm z) (hpage : q.page ∉ done)
    (hext : Extends userIndex {r} kernel { s with pmm := takeFrame z s.pmm } s')
    (ht : tableAt s' r (ptPath q.vaddr) = some pt)
    (hmap : vmmMapPage r q.vaddr (z * pageSize) q.flags { s with pmm := takeFrame z s.pmm } =
      (0, setEntry pt (ptIndex q.vaddr) (smallEntry (z * pageSize) q.flags) s')) :
    Building s₀ kernel r (insert q.page done) (lost ∨ L)
      (setEntry pt (ptIndex q.vaddr) (smallEntry (z * pageSize) q.flags) s') := by
  have hfresh := h.fresh.map (mem_singleton_self _) q.user hz ⟨q.flagsOnly, q.small⟩ hmap
  have hn := q.page_lt
  have howned : Owned userIndex (ptPath (q.page * pageSize)) := by simpa using owned_ptPath (p := []) hn
  obtain ⟨hpath, hidx⟩ := q.path_page
  rw [← hpath] at ht
  rw [← hidx] at hfresh ⊢
  set u := setEntry pt (ptIndex (q.page * pageSize)) (smallEntry (z * pageSize) q.flags) s'
  have hown (t : ℕ) : OwnTable u userIndex {r} t ↔ OwnTable s' userIndex {r} t :=
    hw.spaces.ownTable_setLeaf rfl hn ht
  have hsupply (f : ℕ) : Supply u r f ↔ Supply s' r f := or_congr_right (hown f)
  have hpages (m : ℕ) : frameOf u r m = if m = q.page then some z else frameOf s r m := by
    refine ((h.taken z).1.frameOf_mapped (h.taken z).2 hext rfl hn ht hz.1 q.flagsOnly rfl).trans ?_
    simp only [true_and]
    rfl
  have hptOwn : OwnTable s' userIndex {r} pt :=
    ⟨r, rfl, _, tablePath_ptPath _, howned, ht⟩
  have hnew : frameOf s r q.page = none := by
    cases hd : frameOf s r q.page with
    | none => rfl
    | some d => exact absurd (h.mapped _ d hd) hpage
  refine ⟨hfresh, fun t ht => hw.pointers t ((hown t).mp ht), fun t ht => hw.counts t ((hown t).mp ht),
    hw.used 0 h.zero, fun n d hd => ?_, fun f => ?_, fun hl => ?_, fun i hi hlt => ?_, fun f hf => ?_⟩
  · rw [hpages] at hd
    split_ifs at hd with heq
    · exact .inl heq
    · exact .inr (h.mapped n d hd)
  · have hframes : (∃ n, frameOf u r n = some f) ↔ f = z ∨ ∃ n, frameOf s r n = some f := by
      simp only [hpages]
      constructor
      · rintro ⟨n, hn⟩
        split at hn
        · exact .inl (Option.some.inj hn).symm
        · exact .inr ⟨n, hn⟩
      · rintro (rfl | ⟨n, hn⟩)
        · exact ⟨q.page, if_pos rfl⟩
        · refine ⟨n, (if_neg ?_).trans hn⟩
          rintro rfl
          rw [hnew] at hn
          cases hn
    rw [h.supply, hw.supply, hsupply, hframes]
    grind
  · obtain ⟨hnot, hne, hnone⟩ := h.gone_walked hw hl
    refine ⟨(hsupply _).not.mpr hnot, fun n hn => ?_⟩
    rw [hpages] at hn
    split at hn
    · exact hne (Option.some.inj hn).symm
    · exact hnone n hn
  · have hpt : r ≠ pt := by
      rintro rfl
      have hroot := hw.spaces.tables.forest.unique r rfl r rfl (ptPath (q.page * pageSize)) [] r
        (tablePath_ptPath _) .nil howned (by simp [Owned]) ht rfl
      simp [ptPath] at hroot
    refine (store_of_ne fun heq => hpt heq.1).trans ?_
    exact (hw.root i (by simpa [userIndex] using hi)).trans (h.root i hi hlt)
  · obtain ⟨hnot, hnot', -⟩ := h.not_supply hw hf
    obtain ⟨hmem, hcount⟩ := h.kept f hf
    have hfpt : f ≠ pt := by
      rintro rfl
      exact hnot' (.inr hptOwn)
    refine ⟨?_, (hw.kept f hnot).2.trans hcount⟩
    funext i
    exact (store_of_ne fun heq => hfpt heq.1).trans (congrFun ((hw.kept f hnot).1.trans hmem) i)

end Outcome

theorem Building.mapFresh (h : Building s₀ kernel r done lost s) (hpage : q.page ∉ done) :
    Building s₀ kernel r (insert q.page done) (lost ∨ StrandsFrame s r q.vaddr) (mapFresh r s q) ∧
      ReturnsOwn r s q := by
  rw [Paging.mapFresh, ReturnsOwn, attempt]
  rcases pmmAllocFrame_lowest s.pmm with ⟨heq, hnone⟩ | ⟨z, hz, hlowest, heq⟩
  · rw [heq]
    refine ⟨h.congr (Set.subset_insert _ _) ?_, fun hne => absurd rfl hne⟩
    exact ⟨.inl, fun hl => hl.elim id fun hs => absurd hs.1 (hnone _)⟩
  · rw [heq]
    simp only [if_neg (hz.address_ne_zero h.zero), frame_div]
    obtain ⟨s', hw, hext, hfail | ⟨pt, ht, hok⟩⟩ := h.walked hz hlowest q
    · rw [hfail]
      refine ⟨(h.failed hw hz).congr (Set.subset_insert _ _) Iff.rfl, fun _ _ => ⟨?_, hw.refs_spare⟩⟩
      exact fun hfree => hw.spare (.inl hfree)
    · rw [hok]
      exact ⟨h.succeeded hw hz hpage hext ht hok, fun _ hne => absurd rfl hne⟩

/-! ## A whole life -/

def EveryStep (r : ℕ) (P : Machine → UserMapping → Prop) : List UserMapping → Machine → Prop
  | [], _ => True
  | q :: qs, s => P s q ∧ EveryStep r P qs (mapFresh r s q)

theorem Building.mapAll (h : Building s₀ kernel r done lost s) (qs : List UserMapping)
    (hnodup : (qs.map UserMapping.page).Nodup) (hnew : ∀ q ∈ qs, q.page ∉ done) :
    (∃ done', Building s₀ kernel r done'
      (lost ∨ ¬ EveryStep r (fun s q => ¬ StrandsFrame s r q.vaddr) qs s) (mapAll r qs s)) ∧
    EveryStep r (ReturnsOwn r) qs s := by
  induction qs generalizing s done lost with
  | nil => exact ⟨⟨done, h.congr subset_rfl (by simp [EveryStep])⟩, trivial⟩
  | cons q qs ih =>
    obtain ⟨hq, hrest⟩ := List.nodup_cons.mp hnodup
    obtain ⟨hstep, hreturns⟩ := h.mapFresh (hnew q List.mem_cons_self)
    have hnew' : ∀ q' ∈ qs, q'.page ∉ insert q.page done := by
      rintro q' hq' (heq | hdone)
      · exact hq (heq ▸ List.mem_map_of_mem hq')
      · exact hnew q' (List.mem_cons_of_mem _ hq') hdone
    obtain ⟨⟨done', hrun⟩, hall⟩ := ih hstep hrest hnew'
    refine ⟨⟨done', hrun.congr subset_rfl ?_⟩, hreturns, hall⟩
    rw [EveryStep]
    grind

section Destroy

variable (h : Building s₀ kernel r done lost s)

include h

theorem Building.released (hf : f ∈ releasedFrames s r) : f < maxFrames ∧ ¬ Free s.pmm f ∧ refs s f = 1 := by
  rcases (mem_releasedFrames h.spaces rfl).mp hf with hown | ⟨n, hn⟩
  · exact ⟨(h.pointers f hown).1, h.spaces.tables.kept f hown.isTable, h.counts f hown⟩
  · exact h.fresh.taken r (mem_singleton_self _) n f hn

theorem Building.nodup_released : (releasedFrames s r).Nodup :=
  nodup_releasedFrames h.spaces rfl fun n n' d hd hd' =>
    (h.fresh.apart r (mem_singleton_self _) r (mem_singleton_self _) n n' d hd hd').2

theorem Building.free_destroy : Free (vmmDestroyAddressSpace r s).pmm f ↔
    Supply s r f ∨ ∃ n, frameOf s r n = some f := by
  rw [vmmDestroyAddressSpace_eq h.spaces rfl, free_freeAll h.nodup_released, Supply, or_assoc]
  refine or_congr_right ?_
  rw [← mem_releasedFrames h.spaces rfl]
  exact ⟨fun hf => hf.1, fun hf => ⟨hf, (h.released hf).1, (h.released hf).2.2.le⟩⟩

theorem Building.restored_iff : (∀ f, Free (vmmDestroyAddressSpace r s).pmm f ↔ Free s₀.pmm f) ↔ ¬ lost := by
  constructor
  · intro hall hl
    obtain ⟨hnot, hpages⟩ := h.gone hl
    have hfree := (hall nullFrame).mpr ((h.supply _).mpr (.inr (.inr ⟨hl, rfl⟩)))
    rcases h.free_destroy.mp hfree with hs | ⟨n, hn⟩
    · exact hnot hs
    · exact hpages n hn
  · intro hl f
    rw [h.free_destroy, h.supply]
    grind

end Destroy

def lowPage : UserMapping where
  vaddr := 0x400000
  flags := ptePresent ||| pteWritable ||| pteUser
  user := by decide
  flagsOnly := by
    have hbits : ∀ i < 52, 12 ≤ i → (ptePresent ||| pteWritable ||| pteUser).getLsbD i = false := by decide
    exact fun i hge hlt => hbits i hlt hge
  small := by decide

def scarceMachine : Machine where
  mem := fun _ _ => 0
  pmm := { bitmap := fun byte => if byte = 0 then 0x9F else if byte = 0x10000 then 0xFE else 0xFF
           refcounts := fun f => if f = 1 then 1 else 0
           usedFrameCount := maxFrames - 3 }
  kernelPml4 := 1

theorem lowFree_scarceMachine : lowFree scarceMachine.pmm = {5, 6} := by
  have hfirst : ∀ f < 8, pmmTestBit scarceMachine.pmm f = false ↔ f = 5 ∨ f = 6 := by decide +kernel
  ext f
  rw [lowFree, mem_filter, mem_range, mem_insert, mem_singleton]
  by_cases hlt : f < 8
  · rw [hfirst f hlt, nullFrame, pageSize]
    omega
  · refine iff_of_false ?_ (by omega)
    rintro ⟨hnull, hbit⟩
    have hfull : scarceMachine.pmm.bitmap (f / 8) = 0xFF := by
      rw [nullFrame, pageSize] at hnull
      exact (if_neg (by omega)).trans (if_neg (by omega))
    rw [pmmTestBit_of_full hfull (by omega) (by omega)] at hbit
    cases hbit

end AetherOs.Paging
