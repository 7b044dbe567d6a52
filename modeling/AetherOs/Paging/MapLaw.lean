import AetherOs.Paging.CowState

/-! # Mapping a page and looking it up -/

namespace AetherOs.Paging

open Base Base.Radix

section

def Canonical (v : ℕ) : Prop := v < 2 ^ 47 ∨ (2 ^ 64 - 2 ^ 47 ≤ v ∧ v < 2 ^ 64)

def pteAllFlags : BitVec 64 := 0x80000000000007FF

def pageBytes (flags : BitVec 64) : ℕ := if hasFlag flags pteHuge then 2 ^ 21 else pageSize

def translate (pde pte : BitVec 64) (v : ℕ) : ℕ :=
  if !hasFlag pde ptePresent then 0
  else if hasFlag pde pteHuge then
    ((pde &&& ~~~hugeOffsetMask) ||| (BitVec.ofNat 64 v &&& hugeOffsetMask)).toNat
  else if !hasFlag pte ptePresent then 0
  else ((pte &&& pteAddrMask) ||| (BitVec.ofNat 64 v &&& 0xFFF)).toNat

variable {s s' : Machine} {own : ℕ → Prop} {roots shared : Set ℕ} {r i v vaddr paddr : ℕ}
variable {flags : BitVec 64}

theorem translate_of_not_present {pde pte : BitVec 64} (h : hasFlag pde ptePresent = false) :
    translate pde pte v = 0 := by
  simp only [translate, h, Bool.not_false, if_true]

theorem vmmGetPhysical_eq_translate (hupper : ∀ p i, p ++ [i] <+: ptPath v → p.length ≤ 1 →
      hasFlag (entryOf s r p i) ptePresent → hasFlag (entryOf s r p i) pteHuge = false) :
    vmmGetPhysical s r v = translate (entryOf s r (pdPath v) (pdIndex v))
      (entryOf s r (ptPath v) (ptIndex v)) v := by
  have hstep {p : List ℕ} {i t : ℕ} (hp : p ++ [i] <+: ptPath v) (hlen : p.length ≤ 1)
      (ht : tableAt s r p = some t) (hpresent : hasFlag (s.mem t i) ptePresent) :
      tableAt s r (p ++ [i]) = some (tableOf (s.mem t i)) := by
    have hentry : entryOf s r p i = s.mem t i := entryAt_of_walk ht
    have hhuge := hupper p i hp hlen (hentry.symm ▸ hpresent)
    exact tableAt_concat_of_entry ht hpresent (hentry ▸ hhuge)
  simp only [vmmGetPhysical]
  cases hp₄ : hasFlag (s.mem r (pml4Index v)) ptePresent with
  | false =>
    rw [entryOf_eq_zero (q := []) rfl hp₄ (p := pdPath v) ⟨[pdptIndex v], rfl⟩,
      translate_of_not_present (hasFlag_zero _)]
    rfl
  | true =>
    have ht₃ := hstep (p := []) ⟨[pdptIndex v, pdIndex v], rfl⟩ (by simp) rfl hp₄
    generalize tableOf (s.mem r (pml4Index v)) = pdpt at ht₃ ⊢
    cases hp₃ : hasFlag (s.mem pdpt (pdptIndex v)) ptePresent with
    | false =>
      rw [entryOf_eq_zero ht₃ hp₃ (p := pdPath v) ⟨[], rfl⟩, translate_of_not_present (hasFlag_zero _)]
      rfl
    | true =>
      have ht₂ := hstep (p := [pml4Index v]) ⟨[pdIndex v], rfl⟩ (by simp) ht₃ hp₃
      generalize tableOf (s.mem pdpt (pdptIndex v)) = pd at ht₂ ⊢
      have hpde : entryOf s r (pdPath v) (pdIndex v) = s.mem pd (pdIndex v) := entryAt_of_walk ht₂
      rw [hpde]
      cases hp₂ : hasFlag (s.mem pd (pdIndex v)) ptePresent with
      | false =>
        rw [translate_of_not_present hp₂]
        rfl
      | true =>
        cases hhuge : hasFlag (s.mem pd (pdIndex v)) pteHuge with
        | true => simp only [translate, hp₂, hhuge]; rfl
        | false =>
          have ht₁ : tableAt s r (ptPath v) = some (tableOf (s.mem pd (pdIndex v))) :=
            tableAt_concat_of_entry ht₂ hp₂ hhuge
          have hpte : entryOf s r (ptPath v) (ptIndex v) =
            s.mem (tableOf (s.mem pd (pdIndex v))) (ptIndex v) := entryAt_of_walk ht₁
          rw [hpte]
          simp only [translate, hp₂, hhuge]
          rfl

theorem toNat_and_pageOffset (v : ℕ) : (BitVec.ofNat 64 v &&& 0xFFF).toNat = v % pageSize := by
  have hmask : ∀ i < 64, (0xFFF : BitVec 64).getLsbD i = (decide (0 ≤ i) && decide (i < 0 + 12)) := by
    decide
  rw [toNat_and_field 0 12 _ _ hmask]
  simp only [BitVec.toNat_ofNat, pageSize]
  omega

theorem toNat_and_hugeOffset (v : ℕ) : (BitVec.ofNat 64 v &&& hugeOffsetMask).toNat = v % 2 ^ 21 := by
  have hmask : ∀ i < 64, hugeOffsetMask.getLsbD i = (decide (0 ≤ i) && decide (i < 0 + 21)) := by
    decide
  rw [toNat_and_field 0 21 _ _ hmask]
  simp only [BitVec.toNat_ofNat]
  omega

theorem getLsbD_not_hugeOffsetMask : ∀ i < 64,
    (~~~hugeOffsetMask).getLsbD i = (decide (21 ≤ i) && decide (i < 21 + 43)) := by
  decide

theorem translate_small {pde pte : BitVec 64} (hpde : hasFlag pde ptePresent)
    (hsmall : hasFlag pde pteHuge = false) (hpte : hasFlag pte ptePresent) :
    translate pde pte v = tableOf pte * pageSize + v % pageSize := by
  have haddr : (pte &&& pteAddrMask).toNat = tableOf pte * 2 ^ 12 := pteAddr_eq pte
  have hoff := toNat_and_pageOffset v
  simp only [translate, hpde, hsmall, hpte, Bool.not_true, Bool.false_eq_true, if_false]
  rw [toNat_or_of_lt _ _ haddr (hoff ▸ Nat.mod_lt _ (by decide)), haddr, hoff]
  rfl

theorem translate_huge {pde pte : BitVec 64} (hpde : hasFlag pde ptePresent)
    (hhuge : hasFlag pde pteHuge) :
    translate pde pte v = (pde &&& ~~~hugeOffsetMask).toNat + v % 2 ^ 21 := by
  have haddr := toNat_and_field 21 43 pde _ getLsbD_not_hugeOffsetMask
  have hoff := toNat_and_hugeOffset v
  simp only [translate, hpde, hhuge, Bool.not_true, Bool.false_eq_true, if_false, if_true]
  rw [toNat_or_of_lt _ _ haddr (hoff ▸ Nat.mod_lt _ (by decide)), hoff]

theorem flag_bit (hflags : flags &&& ~~~pteAllFlags = 0) (h : flags.getLsbD i) : i ≤ 10 ∨ i = 63 := by
  have hi : i < 64 := BitVec.lt_of_getLsbD h
  have hmask : ∀ i < 64, pteAllFlags.getLsbD i → i ≤ 10 ∨ i = 63 := by decide
  refine hmask i hi ?_
  have hbit := congrArg (fun x => x.getLsbD i) hflags
  simpa [h, hi] using hbit

theorem flagsOnly_of_allFlags (hflags : flags &&& ~~~pteAllFlags = 0) : FlagsOnly flags :=
  fun i hlo hhi => Bool.eq_false_iff.mpr fun h => by have := flag_bit hflags h; omega

section

variable (hlt : paddr < 2 ^ 52) (hdvd : 2 ^ 21 ∣ paddr)
include hlt hdvd

theorem aligned_bit (h : paddr.testBit i) : 21 ≤ i ∧ i < 52 := by
  refine ⟨?_, ?_⟩
  · obtain ⟨k, rfl⟩ := hdvd
    rw [Nat.mul_comm, Nat.testBit_mul_two_pow] at h
    simp only [Bool.and_eq_true, decide_eq_true_eq] at h
    exact h.1
  · by_contra hge
    rw [Nat.testBit_lt_two_pow (hlt.trans_le (Nat.pow_le_pow_right (by decide) (by omega)))] at h
    cases h

theorem hugeEntry_and (hflags : flags &&& ~~~pteAllFlags = 0) :
    hugeEntry paddr flags &&& ~~~hugeOffsetMask = (flags &&& pteNx) ||| BitVec.ofNat 64 paddr := by
  refine BitVec.eq_of_getLsbD_eq fun i hi => ?_
  have haddr := aligned_bit (i := i) hlt hdvd
  have hbit := flag_bit (i := i) hflags
  simp only [hugeEntry, ptePresent, pteNx, BitVec.getLsbD_and, BitVec.getLsbD_or,
    getLsbD_not_hugeOffsetMask i hi, BitVec.getLsbD_ofNat, BitVec.getLsbD_twoPow]
  cases hp : paddr.testBit i with
  | true =>
    obtain ⟨hlo, hhi⟩ := haddr hp
    simp [hi, hlo]
  | false =>
    cases hf : flags.getLsbD i with
    | true =>
      rcases hbit hf with hle | rfl
      · simp [show ¬ 21 ≤ i by omega, show ¬ 63 = i by omega]
      · simp
    | false =>
      by_cases hlo : 21 ≤ i
      · simp [hlo, show ¬ 0 = i by omega]
      · simp [hlo]

theorem hugeEntry_spec (hflags : flags &&& ~~~pteAllFlags = 0) (hhuge : hasFlag flags pteHuge) :
    hasFlag (hugeEntry paddr flags) ptePresent ∧ hasFlag (hugeEntry paddr flags) pteHuge ∧
      (hugeEntry paddr flags &&& ~~~hugeOffsetMask).toNat =
        (if hasFlag flags pteNx then 2 ^ 63 else 0) + paddr := by
  refine ⟨?_, ?_, ?_⟩
  · rw [hugeEntry, ptePresent, hasFlag_twoPow]
    simp
  · rw [pteHuge, hasFlag_twoPow] at hhuge ⊢
    rw [hugeEntry, BitVec.getLsbD_or, BitVec.getLsbD_or, hhuge]
    simp
  · have hword : (BitVec.ofNat 64 paddr).toNat = paddr := by
      rw [BitVec.toNat_ofNat]
      exact Nat.mod_eq_of_lt (hlt.trans (by decide))
    have hnx : (flags &&& pteNx).toNat = (if hasFlag flags pteNx then 1 else 0) * 2 ^ 63 := by
      rw [pteNx, hasFlag_twoPow, BitVec.and_twoPow]
      split <;> simp
    rw [hugeEntry_and hlt hdvd hflags, toNat_or_of_lt _ _ hnx (by rw [hword]; omega), hnx, hword]
    split <;> simp

end

theorem ptPath_eq_iff {w : ℕ} (hv : Canonical v) (hw : Canonical w) :
    (ptPath v = ptPath w ∧ ptIndex v = ptIndex w) ↔ v / pageSize = w / pageSize := by
  simp only [ptPath, pml4Index, pdptIndex, pdIndex, ptIndex, List.cons.injEq, and_true, Canonical,
    pageSize] at *
  omega

theorem pdPath_eq_iff {w : ℕ} (hv : Canonical v) (hw : Canonical w) :
    (pdPath v = pdPath w ∧ pdIndex v = pdIndex w) ↔ v / 2 ^ 21 = w / 2 ^ 21 := by
  simp only [pdPath, pml4Index, pdptIndex, pdIndex, List.cons.injEq, and_true, Canonical] at *
  omega

theorem child_entryOf_of_tableAt {pt : ℕ} (ht : tableAt s r (ptPath vaddr) = some pt) :
    child (entryOf s r (pdPath vaddr) (pdIndex vaddr)) = some pt := by
  rw [tableAt, show ptPath vaddr = pdPath vaddr ++ [pdIndex vaddr] from rfl,
    walk_concat_eq child_zero] at ht
  exact ht

section

variable (h : Tables s own roots shared)
include h

theorem Tables.vmmGetPhysical_eq (hr : r ∈ roots) (v : ℕ) :
    vmmGetPhysical s r v = translate (entryOf s r (pdPath v) (pdIndex v))
      (entryOf s r (ptPath v) (ptIndex v)) v :=
  vmmGetPhysical_eq_translate fun p i hp hlen => h.upper r hr p i ((tablePath_ptPath v).initial hp) hlen

theorem Extends.vmmGetPhysical_eq (hext : Extends own roots shared s s') (hr : r ∈ roots) (v : ℕ) :
    vmmGetPhysical s' r v = vmmGetPhysical s r v := by
  rw [h.vmmGetPhysical_eq hr, hext.tables.vmmGetPhysical_eq hr,
    hext.leaf r hr _ _ (tablePath_ptPath v) rfl]
  rcases hext.directory r hr (pdPath v) (pdIndex v) (tablePath_pdPath v) rfl with heq | ⟨habs, hnew⟩
  · rw [heq]
  · obtain ⟨t, ht⟩ := Option.ne_none_iff_exists'.mp hnew
    obtain ⟨hpresent, hhuge, _⟩ := child_eq_some.mp ht
    have hzero : entryOf s r (ptPath v) (ptIndex v) = 0 := by
      rw [entryOf, entryAt, show ptPath v = pdPath v ++ [pdIndex v] from rfl,
        walk_concat_eq child_zero]
      rw [show child (entryAt child 0 s.mem r (pdPath v) (pdIndex v)) = none from
        child_eq_none_of_not_present habs]
      rfl
    rw [translate_of_not_present habs, hzero]
    simp only [translate, hpresent, hhuge, hasFlag_zero]
    rfl

theorem vmmGetPhysical_small {pt : ℕ} (hr : r ∈ roots)
    (hown : own (pml4Index vaddr)) (ht : tableAt s r (ptPath vaddr) = some pt)
    (hlt : paddr < 2 ^ 52) (hdvd : pageSize ∣ paddr) (hflags : FlagsOnly flags)
    (hvaddr : Canonical vaddr) (hv : Canonical v) :
    vmmGetPhysical (setEntry pt (ptIndex vaddr) (smallEntry paddr flags) s) r v =
      if v / pageSize = vaddr / pageSize then paddr + v % pageSize else vmmGetPhysical s r v := by
  have hpath := tablePath_ptPath vaddr
  have howned : Owned own (ptPath vaddr ++ [ptIndex vaddr]) := by simpa [Owned, ptPath] using hown
  have hset := h.setLeaf (e := smallEntry paddr flags) hr hpath howned ht rfl
  have hpde : entryOf (setEntry pt (ptIndex vaddr) (smallEntry paddr flags) s) r (pdPath v) (pdIndex v) =
      entryOf s r (pdPath v) (pdIndex v) := by
    rw [h.entryOf_setLeaf hr hpath howned ht rfl hr (tablePath_pdPath v), if_neg]
    rintro ⟨-, heq, -⟩
    simp [pdPath, ptPath] at heq
  rw [hset.vmmGetPhysical_eq hr, h.vmmGetPhysical_eq hr, hpde,
    h.entryOf_setLeaf hr hpath howned ht rfl hr (tablePath_ptPath v)]
  by_cases hpage : v / pageSize = vaddr / pageSize
  · obtain ⟨hpt, hidx⟩ := (ptPath_eq_iff hv hvaddr).mpr hpage
    obtain ⟨hpresent, hframe⟩ := smallEntry_spec hlt hdvd hflags
    obtain ⟨hdir, hsmall, -⟩ := child_eq_some.mp (child_entryOf_of_tableAt (hpt ▸ ht))
    rw [if_pos ⟨rfl, hpt, hidx⟩, if_pos hpage, translate_small hdir hsmall hpresent, hframe,
      Nat.div_mul_cancel hdvd]
  · rw [if_neg fun heq => hpage ((ptPath_eq_iff hv hvaddr).mp heq.2), if_neg hpage]

theorem vmmGetPhysical_huge {pd : ℕ} (hr : r ∈ roots)
    (hown : own (pml4Index vaddr)) (ht : tableAt s r (pdPath vaddr) = some pd)
    (hlt : paddr < 2 ^ 52) (hdvd : 2 ^ 21 ∣ paddr) (hflags : flags &&& ~~~pteAllFlags = 0)
    (hhuge : hasFlag flags pteHuge) (hvaddr : Canonical vaddr) (hv : Canonical v) :
    vmmGetPhysical (setEntry pd (pdIndex vaddr) (hugeEntry paddr flags) s) r v =
      if v / 2 ^ 21 = vaddr / 2 ^ 21 then
        (if hasFlag flags pteNx then 2 ^ 63 else 0) + paddr + v % 2 ^ 21
      else vmmGetPhysical s r v := by
  obtain ⟨hpresent, hhuge', haddr⟩ := hugeEntry_spec hlt hdvd hflags hhuge
  have hpath := tablePath_pdPath vaddr
  have howned : Owned own (pdPath vaddr ++ [pdIndex vaddr]) := by simpa [Owned, pdPath] using hown
  have hset := h.setDirectory hr hpath howned ht rfl
    (show child (hugeEntry paddr flags) = none by simp [child, hhuge'])
  rw [hset.vmmGetPhysical_eq hr]
  by_cases hpage : v / 2 ^ 21 = vaddr / 2 ^ 21
  · obtain ⟨hpd, hidx⟩ := (pdPath_eq_iff hv hvaddr).mpr hpage
    rw [hpd, hidx, h.entryOf_setDirectory_self hr hpath howned ht, if_pos hpage,
      translate_huge hpresent hhuge', haddr]
  · have hout (i : ℕ) : ¬ (r = r ∧ pdPath vaddr ++ [pdIndex vaddr] <+: ptPath v ++ [i]) := by
      rintro ⟨-, hle⟩
      refine hpage ((pdPath_eq_iff hv hvaddr).mp ?_)
      simp [pdPath, ptPath] at hle ⊢
      tauto
    have hdir : ¬ (r = r ∧ pdPath vaddr ++ [pdIndex vaddr] <+: pdPath v ++ [pdIndex v]) := by
      rintro ⟨-, hle⟩
      exact hout (ptIndex v) ⟨rfl, hle.trans ⟨[ptIndex v], rfl⟩⟩
    rw [h.entryOf_setDirectory hr hpath howned ht hr (tablePath_ptPath v) (hout _),
      h.entryOf_setDirectory hr hpath howned ht hr (tablePath_pdPath v) hdir, if_neg hpage,
      h.vmmGetPhysical_eq hr]

end

def MapLaw (s : Machine) (pml4 vaddr paddr : ℕ) (flags : BitVec 64) : Prop :=
  let res := vmmMapPage pml4 vaddr paddr flags s
  (res.1 = 0 → ∀ v, Canonical v → vmmGetPhysical res.2 pml4 v =
    if v / pageBytes flags = vaddr / pageBytes flags then paddr + v % pageBytes flags
    else vmmGetPhysical s pml4 v) ∧
  (res.1 ≠ 0 → ∀ v, Canonical v → vmmGetPhysical res.2 pml4 v = vmmGetPhysical s pml4 v)

end

/-! ## Lookups and unmapping -/

section

variable {s : Machine} {roots kernel : Set ℕ} {r n d v pt t i : ℕ} {e : BitVec 64} {p : List ℕ}

def userPage (v : ℕ) : ℕ := v / pageSize % 2 ^ 36

theorem path_userPage (v : ℕ) : pdPath (userPage v * pageSize) = pdPath v ∧
    pdIndex (userPage v * pageSize) = pdIndex v ∧ ptPath (userPage v * pageSize) = ptPath v ∧
    ptIndex (userPage v * pageSize) = ptIndex v := by
  simp only [pdPath, ptPath, pml4Index, pdptIndex, pdIndex, ptIndex, userPage, pageSize, List.cons.injEq,
    and_true]
  omega

theorem userPage_lt (hv : userIndex (pml4Index v)) : userPage v < userPages := by
  simp only [userIndex, pml4Index, userPage, userPages, pageSize] at *
  omega

theorem physToVirt_ne_zero (hptr : ∀ t, OwnTable s userIndex roots t → physToVirt (t * pageSize) ≠ 0)
    (hr : r ∈ roots) (hp : TablePath p) (hown : Owned userIndex p) (ht : tableAt s r p = some (tableOf e)) : physToVirt (pteAddr e) ≠ 0 := by
  rw [pteAddr_eq]
  exact hptr _ ⟨r, hr, p, hp, hown, ht⟩

theorem UserSpaces.vmmUnmapPage_eq (h : UserSpaces s roots kernel)
    (hptr : ∀ t, OwnTable s userIndex roots t → physToVirt (t * pageSize) ≠ 0) (hr : r ∈ roots) (hv : userIndex (pml4Index v))
    (hd : frameOf s r (userPage v) = some d) :
    ∃ pt, tableAt s r (ptPath v) = some pt ∧ vmmUnmapPage r v s = (0, setEntry pt (ptIndex v) 0 s) := by
  obtain ⟨hpd, hpdi, hpt, hpti⟩ := path_userPage v
  obtain ⟨hn, hpresent, -⟩ := frameOf_eq_some.mp hd
  have hpath := tablePath_ptPath v
  have hown (p : List ℕ) : Owned userIndex (pml4Index v :: p) := by simpa [Owned] using hv
  have hpde := h.small r hr _ hn
  rw [directory, hpd, hpdi] at hpde
  rw [leaf, hpt, hpti] at hpresent
  -- each level above a present entry is present, so the walk of the call reaches the last table
  have hzero {q : List ℕ} {i t : ℕ} (ht : tableAt s r q = some t) (hq : q ++ [i] <+: ptPath v) :
      hasFlag (s.mem t i) ptePresent := by
    by_contra habsent
    rw [entryOf_eq_zero ht (by simpa using habsent) hq, hasFlag_zero] at hpresent
    cases hpresent
  have hp₄ := hzero (q := []) (i := pml4Index v) rfl ⟨[pdptIndex v, pdIndex v], rfl⟩
  have ht₃ := h.tables.tableAt_concat (p := []) hr (hpath.initial ⟨[pdptIndex v, pdIndex v], rfl⟩)
    (by simp) rfl hp₄
  have hp₃ := hzero ht₃ ⟨[pdIndex v], rfl⟩
  have ht₂ := h.tables.tableAt_concat (p := [pml4Index v]) hr (hpath.initial ⟨[pdIndex v], rfl⟩)
    (by simp) ht₃ hp₃
  have hp₂ := hzero ht₂ (i := pdIndex v) ⟨[], rfl⟩
  have hentry : entryOf s r (pdPath v) (pdIndex v) = _ := entryAt_of_walk ht₂
  rw [hentry] at hpde
  have ht₁ := tableAt_concat_of_entry ht₂ hp₂ (hpde hp₂)
  have hnull₃ := physToVirt_ne_zero hptr hr (hpath.initial ⟨[pdptIndex v, pdIndex v], rfl⟩) (hown _) ht₃
  have hnull₂ := physToVirt_ne_zero hptr hr (hpath.initial ⟨[pdIndex v], rfl⟩) (hown _) ht₂
  have hnull₁ := physToVirt_ne_zero hptr hr hpath (hown _) ht₁
  refine ⟨_, ht₁, ?_⟩
  simp only [vmmUnmapPage, hp₄, hp₃, hp₂, hpde hp₂, hnull₃, hnull₂, hnull₁]
  rfl

inductive UnmapOutcome (kernel : Set ℕ) (s : Machine) (r v : ℕ) : Machine → Prop
  | nothing : UnmapOutcome kernel s r v s
  | user {pt : ℕ} : userIndex (pml4Index v) → tableAt s r (ptPath v) = some pt →
      UnmapOutcome kernel s r v (setEntry pt (ptIndex v) 0 s)
  | kernel {t i : ℕ} : ¬ userIndex (pml4Index v) → t ∈ kernel → UnmapOutcome kernel s r v (setEntry t i 0 s)

section

variable (h : UserSpaces s roots kernel) (hr : r ∈ roots)
include h hr

theorem UserSpaces.frameOf_setLeaf {m : Pmm} {x i : ℕ}
    (hn : n < userPages) (ht : tableAt s r (ptPath (n * pageSize)) = some pt) (hx : x ∈ roots) :
    frameOf { s with mem := store s.mem pt (ptIndex (n * pageSize)) e, pmm := m } x i =
      if x = r ∧ i = n then (if hasFlag e ptePresent then some (tableOf e) else none)
      else frameOf s x i := by
  have hleaf (hi : i < userPages) :
      leaf { s with mem := store s.mem pt (ptIndex (n * pageSize)) e, pmm := m } x i =
        if x = r ∧ i = n then e else leaf s x i := h.leaf_setLeaf hr hn ht hx hi
  by_cases heq : x = r ∧ i = n
  · rw [if_pos heq, frameOf, hleaf (heq.2 ▸ hn), if_pos heq]
    simp [heq.2, hn]
  · rw [if_neg heq]
    exact frameOf_congr fun hi => by rw [hleaf hi, if_neg heq]; exact .refl _

theorem UserSpaces.vmmGetPhysical_user (hv : userIndex (pml4Index v))
    (hphys : vmmGetPhysical s r v ≠ 0) : ∃ d, frameOf s r (userPage v) = some d ∧
      vmmGetPhysical s r v = d * pageSize + v % pageSize := by
  obtain ⟨hpd, hpdi, hpt, hpti⟩ := path_userPage v
  have hn := userPage_lt hv
  rw [h.tables.vmmGetPhysical_eq hr v] at hphys ⊢
  have hsmall := h.small r hr _ hn
  rw [directory, hpd, hpdi] at hsmall
  have hleaf : leaf s r (userPage v) = entryOf s r (ptPath v) (ptIndex v) := by rw [leaf, hpt, hpti]
  cases hpde : hasFlag (entryOf s r (pdPath v) (pdIndex v)) ptePresent with
  | false => exact absurd (translate_of_not_present hpde) hphys
  | true =>
    cases hpte : hasFlag (entryOf s r (ptPath v) (ptIndex v)) ptePresent with
    | false =>
      refine absurd ?_ hphys
      simp only [translate, hpde, hsmall hpde, hpte]
      rfl
    | true =>
      exact ⟨_, frameOf_eq_some.mpr ⟨hn, hleaf ▸ hpte, rfl⟩, by
        rw [translate_small hpde (hsmall hpde) hpte, hleaf]⟩

theorem UserSpaces.vmmGetPhysical_frameOf (hd : frameOf s r (userPage v) = some d) : vmmGetPhysical s r v = d * pageSize + v % pageSize := by
  obtain ⟨-, -, hpt, hpti⟩ := path_userPage v
  obtain ⟨-, hpresent, rfl⟩ := frameOf_eq_some.mp hd
  have hleaf : leaf s r (userPage v) = entryOf s r (ptPath v) (ptIndex v) := by rw [leaf, hpt, hpti]
  rw [hleaf] at hpresent ⊢
  have hsplit : tableAt s r (ptPath v) = child (entryOf s r (pdPath v) (pdIndex v)) :=
    walk_concat_eq (p := pdPath v) (i := pdIndex v) child_zero
  obtain ⟨pt, htable, -⟩ := table_of_present hpresent
  obtain ⟨hpde, hsmall, -⟩ := child_eq_some.mp (hsplit.symm.trans htable)
  rw [h.tables.vmmGetPhysical_eq hr v, translate_small hpde hsmall hpresent]

theorem UserSpaces.vmmUnmapPage_cases (v : ℕ) : UnmapOutcome kernel s r v (vmmUnmapPage r v s).2 := by
  obtain ⟨hpd, hpdi, -, -⟩ := path_userPage v
  have hpath := tablePath_ptPath v
  have hshared {t : ℕ} {p : List ℕ} (hv : ¬ userIndex (pml4Index v)) (hp : TablePath (pml4Index v :: p))
      (ht : tableAt s r (pml4Index v :: p) = some t) : t ∈ kernel :=
    h.tables.forest.shared_of_walk r hr _ t hp (by simpa [Owned] using hv) ht
  simp only [vmmUnmapPage]
  split_ifs with h₄ h₃ h₂ hhuge hnull
  · exact .nothing
  · exact .nothing
  · exact .nothing
  all_goals
    obtain ⟨-, hp₄⟩ := not_or.mp h₄
    obtain ⟨-, hp₃⟩ := not_or.mp h₃
    have ht₃ := h.tables.tableAt_concat (p := []) hr (hpath.initial ⟨[pdptIndex v, pdIndex v], rfl⟩) (by simp) rfl
      (by simpa using hp₄)
    have hpath₂ := hpath.initial (q := pdPath v) ⟨[pdIndex v], rfl⟩
    have ht₂ := h.tables.tableAt_concat (p := [pml4Index v]) hr hpath₂ (by simp) ht₃ (by simpa using hp₃)
    rw [Bool.not_eq_true', Bool.not_eq_false] at h₂
  · have hentry : entryOf s r (pdPath v) (pdIndex v) = _ := entryAt_of_walk ht₂
    have hv : ¬ userIndex (pml4Index v) := fun hv => by
      have hsmall := h.small r hr _ (userPage_lt hv)
      rw [directory, hpd, hpdi, hentry, hhuge] at hsmall
      cases hsmall h₂
    exact .kernel hv (hshared hv hpath₂ ht₂)
  · exact .nothing
  · have ht₁ := tableAt_concat_of_entry ht₂ h₂ (by simpa using hhuge)
    by_cases hv : userIndex (pml4Index v)
    · exact .user hv ht₁
    · exact .kernel hv (hshared hv hpath ht₁)

end

section ClearKernel

variable (h : UserSpaces s roots kernel) (ht : t ∈ kernel)

include h ht

theorem UserSpaces.leaf_clearKernel (hr : r ∈ roots) (hn : n < userPages) :
    leaf (setEntry t i 0 s) r n = leaf s r n :=
  h.tables.forest.entryAt_store_shared ht hr (tablePath_ptPath _) (by simpa using owned_ptPath (p := []) hn)

omit h ht in
theorem tableAt_of_clear {x : ℕ} (hx : tableAt (setEntry t i 0 s) r p = some x) : tableAt s r p = some x :=
  walk_of_clear child_zero hx

omit h ht in
theorem present_of_clear {j : ℕ} (hpresent : hasFlag (entryOf (setEntry t i 0 s) r p j) ptePresent) :
    entryOf (setEntry t i 0 s) r p j = entryOf s r p j := by
  have hcases : entryOf (setEntry t i 0 s) r p j = 0 ∨ entryOf (setEntry t i 0 s) r p j = entryOf s r p j :=
    entryAt_clear child_zero
  rcases hcases with hzero | heq
  · rw [hzero, hasFlag_zero] at hpresent
    cases hpresent
  · exact heq

theorem UserSpaces.clearKernel : UserSpaces (setEntry t i 0 s) roots kernel := by
  have htable {x : ℕ} (hx : IsTable (setEntry t i 0 s) roots x) : IsTable s roots x := by
    obtain ⟨r, hr, p, hp, hpx⟩ := hx
    exact ⟨r, hr, p, hp, tableAt_of_clear hpx⟩
  refine ⟨⟨h.tables.forest.mono fun r hr p hp x hx => tableAt_of_clear hx, fun x hx => h.tables.kept x (htable hx),
    h.tables.shared_kept, fun r hr p j hp hlen hpresent => ?_⟩, ⟨h.kernelHalf.root, fun p x hp hown hx => ?_,
    fun p j hp hown hlen hpresent => ?_⟩, fun r hr n hn hpresent => ?_, fun r hr n hn hpresent => ?_,
    fun r hr n hn hpresent => ?_⟩
  · have heq := present_of_clear hpresent
    rw [heq] at hpresent ⊢
    exact h.tables.upper r hr p j hp hlen hpresent
  · exact h.kernelHalf.reach p x hp hown (tableAt_of_clear hx)
  · have heq := present_of_clear hpresent
    change hasFlag (entryOf (setEntry t i 0 s) s.kernelPml4 p j) pteHuge = false
    rw [show entryOf (setEntry t i 0 s) s.kernelPml4 p j = _ from heq]
    exact h.kernelHalf.upper p j hp hown hlen (heq ▸ hpresent)
  · have heq := present_of_clear hpresent
    rw [directory, heq] at hpresent ⊢
    exact h.small r hr n hn hpresent
  · rw [h.leaf_clearKernel ht hr hn] at hpresent ⊢
    exact h.plain r hr n hn hpresent
  · rw [h.leaf_clearKernel ht hr hn] at hpresent ⊢
    obtain ⟨hdata, hout⟩ := h.data r hr n hn hpresent
    exact ⟨fun hx => hdata (htable hx), hout⟩

end ClearKernel

end

end AetherOs.Paging
