import AetherOs.Paging.Tables

/-! # The user halves of address spaces -/

namespace AetherOs.Paging

/-! ## Entries of shared pages -/

section

variable {e : BitVec 64} {f : ℕ}

structure SamePage (e e' : BitVec 64) : Prop where
  frame : tableOf e' = tableOf e
  present : hasFlag e' ptePresent = hasFlag e ptePresent
  huge : hasFlag e' pteHuge = hasFlag e pteHuge

theorem SamePage.of_bits {e' : BitVec 64}
    (h : ∀ i < 64, i ≠ 1 → i ≠ 9 → e'.getLsbD i = e.getLsbD i) : SamePage e e' := by
  refine ⟨tableOf_congr fun i hlo hhi => h i (by omega) (by omega) (by omega), ?_, ?_⟩
  · rw [ptePresent, hasFlag_twoPow, hasFlag_twoPow, h 0 (by decide) (by decide) (by decide)]
  · rw [pteHuge, hasFlag_twoPow, hasFlag_twoPow, h 7 (by decide) (by decide) (by decide)]

theorem samePage_cowEntry (e : BitVec 64) : SamePage e (cowEntry e) := by
  refine .of_bits fun i hi h₁ h₉ => ?_
  simp [cowEntry, pteWritable, pteCow, hi, h₁, h₉]

theorem samePage_soleEntry (e : BitVec 64) : SamePage e (soleEntry e) := by
  refine .of_bits fun i hi h₁ h₉ => ?_
  simp [soleEntry, pteWritable, pteCow, hi, h₁, h₉]

theorem hasFlag_cowEntry_writable (e : BitVec 64) : hasFlag (cowEntry e) pteWritable = false := by
  rw [pteWritable, hasFlag_twoPow]
  simp [cowEntry, pteWritable, pteCow]

theorem hasFlag_cowEntry_cow (e : BitVec 64) : hasFlag (cowEntry e) pteCow := by
  rw [pteCow, hasFlag_twoPow]
  simp [cowEntry, pteCow]

theorem hasFlag_soleEntry_writable (e : BitVec 64) : hasFlag (soleEntry e) pteWritable := by
  rw [pteWritable, hasFlag_twoPow]
  simp [soleEntry, pteWritable]

theorem hasFlag_cowFlags_huge (hhuge : hasFlag e pteHuge = false) :
    hasFlag (cowFlags e) pteHuge = false := by
  rw [pteHuge, hasFlag_twoPow] at hhuge ⊢
  simp only [cowFlags, pteCow, BitVec.getLsbD_or, BitVec.getLsbD_and, BitVec.getLsbD_twoPow, hhuge]
  rfl

theorem smallEntry_cowFlags (hpresent : hasFlag e ptePresent) :
    smallEntry (pteAddr e) (cowFlags e) = cowEntry e := by
  rw [ptePresent, hasFlag_twoPow] at hpresent
  refine BitVec.eq_of_getLsbD_eq fun i hi => ?_
  rw [smallEntry, pteAddr, BitVec.ofNat_toNat, BitVec.setWidth_eq]
  simp only [cowFlags, cowEntry, pteFlagsMask, ptePresent, pteWritable, pteCow, BitVec.getLsbD_or,
    BitVec.getLsbD_and, BitVec.getLsbD_not, BitVec.getLsbD_twoPow, getLsbD_pteAddrMask]
  rcases Nat.eq_zero_or_pos i with rfl | hpos
  · simp [hpresent]
  · by_cases haddr : 12 ≤ i ∧ i < 52
    · simp [haddr, hi, show ¬ 0 = i by omega, show ¬ 1 = i by omega, show ¬ 9 = i by omega]
    · have hmask : (decide (12 ≤ i) && decide (i < 52)) = false := by simpa using haddr
      simp [hmask, hi, show ¬ 0 = i by omega]

theorem privateEntry_spec (hf : f < maxFrames) (e : BitVec 64) :
    tableOf (privateEntry (f * pageSize) e) = f ∧
      hasFlag (privateEntry (f * pageSize) e) ptePresent = hasFlag e ptePresent ∧
      hasFlag (privateEntry (f * pageSize) e) pteHuge = hasFlag e pteHuge ∧
      hasFlag (privateEntry (f * pageSize) e) pteWritable := by
  have hlt : f * pageSize < 2 ^ 52 := by simp only [maxFrames, pageSize] at hf ⊢; omega
  rw [privateEntry, ofNat_and_pteAddrMask hlt (Nat.dvd_mul_left _ _), BitVec.or_assoc]
  refine ⟨tableOf_ofNat (hf.trans (by decide)) fun i hlo hhi => ?_, ?_, ?_, ?_⟩
  · simp [pteFlagsMask, getLsbD_pteAddrMask, hlo, hhi, pteWritable, show ¬ 1 = i by omega]
  · rw [ptePresent, hasFlag_twoPow, hasFlag_twoPow]
    simp only [BitVec.getLsbD_or, BitVec.getLsbD_and, BitVec.getLsbD_not, BitVec.getLsbD_twoPow,
      getLsbD_frame f (i := 0) (by decide), pteFlagsMask, getLsbD_pteAddrMask, pteWritable, pteCow]
    simp
  · rw [pteHuge, hasFlag_twoPow, hasFlag_twoPow]
    simp only [BitVec.getLsbD_or, BitVec.getLsbD_and, BitVec.getLsbD_not, BitVec.getLsbD_twoPow,
      getLsbD_frame f (i := 7) (by decide), pteFlagsMask, getLsbD_pteAddrMask, pteWritable, pteCow]
    simp
  · rw [pteWritable, hasFlag_twoPow]
    simp

end

/-! ## The user halves of address spaces -/

section

open Base.Radix

def userPages : ℕ := 2 ^ 35

def userIndex (i : ℕ) : Prop := i < 256

instance (i : ℕ) : Decidable (userIndex i) := inferInstanceAs (Decidable (i < 256))

def leaf (s : Machine) (r n : ℕ) : BitVec 64 := entryOf s r (ptPath (n * pageSize)) (ptIndex (n * pageSize))

def directory (s : Machine) (r n : ℕ) : BitVec 64 :=
  entryOf s r (pdPath (n * pageSize)) (pdIndex (n * pageSize))

structure KernelHalf (s : Machine) (kernel : Set ℕ) : Prop where
  root : s.kernelPml4 ∈ kernel
  reach : ∀ p t, TablePath p → ¬ Owned userIndex p → tableAt s s.kernelPml4 p = some t → t ∈ kernel
  upper : ∀ p i, TablePath (p ++ [i]) → ¬ Owned userIndex (p ++ [i]) → p.length ≤ 1 →
    hasFlag (entryOf s s.kernelPml4 p i) ptePresent = true →
    hasFlag (entryOf s s.kernelPml4 p i) pteHuge = false

structure UserSpaces (s : Machine) (roots kernel : Set ℕ) : Prop where
  tables : Tables s userIndex roots kernel
  kernelHalf : KernelHalf s kernel
  small : ∀ r ∈ roots, ∀ n < userPages, hasFlag (directory s r n) ptePresent = true →
    hasFlag (directory s r n) pteHuge = false
  plain : ∀ r ∈ roots, ∀ n < userPages, hasFlag (leaf s r n) ptePresent = true →
    hasFlag (leaf s r n) pteHuge = false
  data : ∀ r ∈ roots, ∀ n < userPages, hasFlag (leaf s r n) ptePresent = true →
    ¬ IsTable s roots (tableOf (leaf s r n)) ∧ tableOf (leaf s r n) ∉ kernel

def Held (s : Machine) (roots : Set ℕ) : Prop :=
  ∀ r ∈ roots, ∀ n < userPages, hasFlag (leaf s r n) ptePresent = true → ¬ Free s.pmm (tableOf (leaf s r n))

variable {s s' : Machine} {roots kernel : Set ℕ} {r r' n m t pt : ℕ} {p : List ℕ} {e : BitVec 64}

theorem page_lt {v : ℕ} (hv : v < userPages * pageSize) : v / pageSize < userPages :=
  (Nat.div_lt_iff_lt_mul (by decide)).mpr hv

theorem owned_ptPath (hn : n < userPages) : Owned userIndex (ptPath (n * pageSize) ++ p) := by
  simp only [Owned, ptPath, pml4Index, pageSize, userPages, userIndex] at *
  simp
  omega

theorem ptPath_page_eq_iff (hn : n < userPages) (hm : m < userPages) :
    (ptPath (m * pageSize) = ptPath (n * pageSize) ∧ ptIndex (m * pageSize) = ptIndex (n * pageSize)) ↔
      m = n := by
  simp only [ptPath, pml4Index, pdptIndex, pdIndex, ptIndex, List.cons.injEq, and_true, pageSize,
    userPages] at *
  omega

theorem entryOf_congr {i : ℕ} (hwalk : tableAt s' r' p = tableAt s r p)
    (hmem : ∀ t, tableAt s r p = some t → s'.mem t i = s.mem t i) : entryOf s' r' p i = entryOf s r p i := by
  simp only [entryOf, entryAt]
  rw [show walk child s'.mem r' p = walk child s.mem r p from hwalk]
  cases ht : walk child s.mem r p with
  | none => rfl
  | some t => simp only [Option.map_some, hmem t ht]

theorem Tables.own_or_shared {own : ℕ → Prop} (h : Tables s own roots kernel) (ht : IsTable s roots t) :
    OwnTable s own roots t ∨ t ∈ kernel := by
  obtain ⟨r, hr, p, hp, hpt⟩ := ht
  by_cases hown : Owned own p
  · exact .inl ⟨r, hr, p, hp, hown, hpt⟩
  · exact .inr (h.forest.shared_of_walk r hr p t hp hown hpt)

theorem not_owned_initial {q : List ℕ} {i : ℕ} (hq : q ++ [i] <+: p) (hp : ¬ Owned userIndex p) :
    q = [] ∨ ¬ Owned userIndex q := by
  obtain ⟨rest, rfl⟩ := hq
  cases q with
  | nil => exact .inl rfl
  | cons a q => exact .inr (by simpa [Owned] using hp)

theorem KernelHalf.table_mem (h : KernelHalf s kernel) (hp : TablePath p)
    (hown : p = [] ∨ ¬ Owned userIndex p) (ht : tableAt s s.kernelPml4 p = some t) : t ∈ kernel := by
  rcases hown with rfl | hown
  · obtain rfl := Option.some.inj ht
    exact h.root
  · exact h.reach p t hp hown ht

theorem KernelHalf.of_mem (h : KernelHalf s kernel) (hroot : s'.kernelPml4 = s.kernelPml4)
    (hmem : ∀ f ∈ kernel, s'.mem f = s.mem f) : KernelHalf s' kernel := by
  have hwalk {p : List ℕ} (hp : TablePath p) (hown : p = [] ∨ ¬ Owned userIndex p) :
      tableAt s' s'.kernelPml4 p = tableAt s s.kernelPml4 p := by
    rw [tableAt, hroot]
    refine walk_congr fun q i t hq ht => ?_
    have hqown : q = [] ∨ ¬ Owned userIndex q := by
      rcases hown with rfl | hown
      · simp at hq
      · exact not_owned_initial hq hown
    have hqp := hp.initial ((List.prefix_append q [i]).trans hq)
    rw [hmem t (h.table_mem hqp hqown ht)]
  refine ⟨hroot ▸ h.root, fun p t hp hown ht => ?_, fun p i hp hown hlen hpresent => ?_⟩
  · exact h.reach p t hp hown ((hwalk hp (.inr hown)).symm.trans ht)
  · have hpp := hp.initial (List.prefix_append p [i])
    have hpown := not_owned_initial List.prefix_rfl hown
    have hentry : entryOf s' s'.kernelPml4 p i = entryOf s s.kernelPml4 p i :=
      entryOf_congr (hwalk hpp hpown) fun t ht => by rw [hmem t (h.table_mem hpp hpown ht)]
    rw [hentry] at hpresent ⊢
    exact h.upper p i hp hown hlen hpresent

section Frames

variable (hmem : ∀ f, IsTable s roots f → s'.mem f = s.mem f)

include hmem

theorem tableAt_of_frames (hr : r ∈ roots) (hp : TablePath p) :
    tableAt s' r p = tableAt s r p :=
  walk_eq_of_not_node hmem hr hp

theorem entryOf_of_frames (hr : r ∈ roots) (hp : TablePath p) (i : ℕ) :
    entryOf s' r p i = entryOf s r p i :=
  entryAt_eq_of_not_node hmem hr hp

theorem leaf_of_frames (hr : r ∈ roots) : leaf s' r n = leaf s r n :=
  entryOf_of_frames hmem hr (tablePath_ptPath _) _

theorem isTable_of_frames : IsTable s' roots t ↔ IsTable s roots t :=
  isTable_congr fun _ hr _ hp => tableAt_of_frames hmem hr hp

theorem ownTable_of_frames {own : ℕ → Prop} : OwnTable s' own roots t ↔ OwnTable s own roots t :=
  ownTable_congr fun _ hr _ hp => tableAt_of_frames hmem hr hp

end Frames

theorem UserSpaces.of_frames (h : UserSpaces s roots kernel)
    (hmem : ∀ f, IsTable s roots f → s'.mem f = s.mem f) (hkernel : ∀ f ∈ kernel, s'.mem f = s.mem f)
    (hroot : s'.kernelPml4 = s.kernelPml4)
    (hkept : ∀ f, IsTable s roots f ∨ f ∈ kernel → ¬ Free s'.pmm f) : UserSpaces s' roots kernel := by
  have hwalk {r : ℕ} {p : List ℕ} (hr : r ∈ roots) (hp : TablePath p) := tableAt_of_frames hmem hr hp
  have hleaf {r : ℕ} (n : ℕ) (hr : r ∈ roots) := leaf_of_frames (n := n) hmem hr
  refine ⟨⟨h.tables.forest.mono fun r hr p hp t ht => (hwalk hr hp).symm.trans ht, ?_, ?_, ?_⟩,
    h.kernelHalf.of_mem hroot hkernel, ?_, ?_, ?_⟩
  · exact fun t ht => hkept t (.inl ((isTable_of_frames hmem).mp ht))
  · exact fun t ht => hkept t (.inr ht)
  · intro r hr p i hp hlen
    rw [entryOf_of_frames hmem hr (hp.initial (List.prefix_append _ _))]
    exact h.tables.upper r hr p i hp hlen
  · intro r hr n hn
    rw [directory, entryOf_of_frames hmem hr (tablePath_pdPath _)]
    exact h.small r hr n hn
  · intro r hr n hn
    rw [hleaf n hr]
    exact h.plain r hr n hn
  · intro r hr n hn
    rw [hleaf n hr, isTable_of_frames hmem]
    exact h.data r hr n hn

theorem leaf_of_extends (hext : Extends userIndex roots kernel s s') (hr : r ∈ roots) :
    leaf s' r n = leaf s r n :=
  hext.leaf r hr _ _ (tablePath_ptPath _) rfl

theorem not_isTable_of_extends (hext : Extends userIndex roots kernel s s') {f : ℕ} (hused : ¬ Free s.pmm f)
    (hf : ¬ IsTable s roots f ∧ f ∉ kernel) : ¬ IsTable s' roots f := by
  intro ht
  rcases hext.tables.own_or_shared ht with hown | hshared
  · rcases hext.nodes f hown with ⟨r, hr, p, hp, _, hpt⟩ | hfree
    · exact hf.1 ⟨r, hr, p, hp, hpt⟩
    · exact hused hfree
  · exact hf.2 hshared

theorem UserSpaces.extends (h : UserSpaces s roots kernel) (hheld : Held s roots)
    (hext : Extends userIndex roots kernel s s') : UserSpaces s' roots kernel := by
  refine ⟨hext.tables, ?_, ?_, ?_, ?_⟩
  · refine h.kernelHalf.of_mem hext.kernel fun f hf => hext.memory f (h.tables.shared_kept f hf) ?_
    rintro ⟨r, hr, p, hp, hown, ht⟩
    exact h.tables.forest.not_shared r hr p f hp hown ht hf
  · intro r hr n hn hpresent
    rcases hext.directory r hr (pdPath (n * pageSize)) (pdIndex (n * pageSize)) (tablePath_pdPath _)
      rfl with heq | ⟨_, hnew⟩
    · rw [directory, heq] at hpresent ⊢
      exact h.small r hr n hn hpresent
    · obtain ⟨t, ht⟩ := Option.ne_none_iff_exists'.mp hnew
      exact (child_eq_some.mp ht).2.1
  · intro r hr n hn
    rw [leaf_of_extends hext hr]
    exact h.plain r hr n hn
  · intro r hr n hn hpresent
    rw [leaf_of_extends hext hr] at hpresent ⊢
    have hdata := h.data r hr n hn hpresent
    exact ⟨not_isTable_of_extends hext (hheld r hr n hn hpresent) hdata, hdata.2⟩

section SetLeaf

variable (h : UserSpaces s roots kernel) (hr : r ∈ roots) (hn : n < userPages)
  (ht : tableAt s r (ptPath (n * pageSize)) = some pt)

include h hr hn ht

theorem UserSpaces.table_not_mem : pt ∉ kernel := fun hmem =>
  h.tables.forest.not_shared r hr _ pt (tablePath_ptPath _)
    (by simpa using owned_ptPath (p := []) hn) ht hmem

theorem UserSpaces.leaf_setLeaf (hr' : r' ∈ roots) (hm : m < userPages) :
    leaf (setEntry pt (ptIndex (n * pageSize)) e s) r' m = if r' = r ∧ m = n then e else leaf s r' m := by
  rw [leaf, h.tables.entryOf_setLeaf hr (tablePath_ptPath _) (owned_ptPath hn) ht rfl hr'
    (tablePath_ptPath _)]
  simp only [ptPath_page_eq_iff hn hm, leaf]

theorem UserSpaces.tableAt_setLeaf (hr' : r' ∈ roots) (hp : TablePath p) :
    tableAt (setEntry pt (ptIndex (n * pageSize)) e s) r' p = tableAt s r' p :=
  h.tables.tableAt_setLeaf hr (tablePath_ptPath _) (owned_ptPath hn) ht rfl hr' hp

theorem UserSpaces.isTable_setLeaf :
    IsTable (setEntry pt (ptIndex (n * pageSize)) e s) roots t ↔ IsTable s roots t := by
  exact isTable_congr fun _ hr' _ hp => h.tableAt_setLeaf hr hn ht hr' hp

theorem UserSpaces.ownTable_setLeaf {own : ℕ → Prop} {m : Pmm} :
    OwnTable { s with mem := store s.mem pt (ptIndex (n * pageSize)) e, pmm := m } own roots t ↔
      OwnTable s own roots t := by
  exact ownTable_congr fun _ hr' _ hp => h.tableAt_setLeaf hr hn ht hr' hp

theorem UserSpaces.setLeaf (he : hasFlag e ptePresent →
    hasFlag e pteHuge = false ∧ ¬ IsTable s roots (tableOf e) ∧ tableOf e ∉ kernel) :
    UserSpaces (setEntry pt (ptIndex (n * pageSize)) e s) roots kernel := by
  refine ⟨h.tables.setLeaf hr (tablePath_ptPath _) (owned_ptPath hn) ht rfl, h.kernelHalf.of_mem rfl fun f hf => ?_, ?_, ?_, ?_⟩
  · refine Function.update_of_ne ?_ _ _
    rintro rfl
    exact h.table_not_mem hr hn ht hf
  · intro r' hr' m hm
    rw [directory, h.tables.entryOf_setLeaf hr (tablePath_ptPath _) (owned_ptPath hn) ht rfl hr'
      (tablePath_pdPath _), if_neg (by simp [pdPath, ptPath])]
    exact h.small r' hr' m hm
  · intro r' hr' m hm hpresent
    rw [h.leaf_setLeaf hr hn ht hr' hm] at hpresent ⊢
    split_ifs at hpresent with heq
    · rw [if_pos heq]
      exact (he hpresent).1
    · rw [if_neg heq]
      exact h.plain r' hr' m hm hpresent
  · intro r' hr' m hm hpresent
    rw [h.isTable_setLeaf hr hn ht]
    rw [h.leaf_setLeaf hr hn ht hr' hm] at hpresent ⊢
    split_ifs at hpresent with heq
    · rw [if_pos heq]
      exact (he hpresent).2
    · rw [if_neg heq]
      exact h.data r' hr' m hm hpresent

end SetLeaf

end

/-! ## Page numbers and table indices -/

section

open Base.Radix

variable {s : Machine} {roots kernel : Set ℕ} {r n pt pd pdpt i j k l : ℕ}

def pageNum (i j k l : ℕ) : ℕ := ((i * 512 + j) * 512 + k) * 512 + l

theorem pageNum_succ (i j k l : ℕ) : pageNum i j k (l + 1) = pageNum i j k l + 1 := by
  simp only [pageNum]
  omega

theorem pageNum_table (i j k : ℕ) : pageNum i j (k + 1) 0 = pageNum i j k 512 := by
  simp only [pageNum]
  omega

theorem pageNum_directory (i j : ℕ) : pageNum i (j + 1) 0 0 = pageNum i j 512 0 := by
  simp only [pageNum]
  omega

theorem pageNum_pointers (i : ℕ) : pageNum (i + 1) 0 0 0 = pageNum i 512 0 0 := by
  simp only [pageNum]
  omega

section Indices

variable (hi : i < 256)

include hi

section

variable (hj : j < 512) (hk : k < 512)
include hj hk

theorem pageNum_lt (hl : l < 512) : pageNum i j k l < userPages := by
  simp only [pageNum, userPages]
  omega

theorem index_pageNum (hl : l < 512) :
    ptPath (pageNum i j k l * pageSize) = [i, j, k] ∧ ptIndex (pageNum i j k l * pageSize) = l := by
  simp only [ptPath, pml4Index, pdptIndex, pdIndex, ptIndex, pageNum, pageSize, List.cons.injEq, and_true]
  omega

theorem leaf_pageNum (hl : l < 512) (ht : tableAt s r [i, j, k] = some pt) :
    leaf s r (pageNum i j k l) = s.mem pt l := by
  obtain ⟨hpath, hidx⟩ := index_pageNum hi hj hk hl
  rw [leaf, hpath, hidx]
  exact entryAt_of_walk ht

theorem directory_pageNum (ht : tableAt s r [i, j] = some pd) :
    directory s r (pageNum i j k 0) = s.mem pd k := by
  obtain ⟨hpath, -⟩ := index_pageNum (l := 0) hi hj hk (by decide)
  simp only [ptPath, List.cons.injEq, and_true] at hpath
  rw [directory, pdPath, hpath.1, hpath.2.1, hpath.2.2]
  exact entryAt_of_walk ht

end

theorem UserSpaces.tableAt_table (h : UserSpaces s roots kernel) (hr : r ∈ roots) (hj : j < 512)
    (hk : k < 512) (ht : tableAt s r [i, j] = some pd)
    (hpresent : hasFlag (s.mem pd k) ptePresent) :
    hasFlag (s.mem pd k) pteHuge = false ∧ tableAt s r [i, j, k] = some (tableOf (s.mem pd k)) := by
  have hdir := directory_pageNum hi hj hk ht
  have hsmall := h.small r hr _ (pageNum_lt hi hj hk (show 0 < 512 by decide)) (hdir.symm ▸ hpresent)
  rw [hdir] at hsmall
  refine ⟨hsmall, ?_⟩
  rw [tableAt, show [i, j, k] = [i, j] ++ [k] from rfl, walk_concat,
    show walk child s.mem r [i, j] = some pd from ht]
  exact child_eq_some.mpr ⟨hpresent, hsmall, rfl⟩

end Indices

section

variable {D : ℕ → Prop} (hskip : ∀ n, D n → n < userPages → hasFlag (leaf s r n) ptePresent = false → D (n + 1))
include hskip

theorem skip_range {a b : ℕ} (hab : a ≤ b) (hb : b ≤ userPages) (ha : D a)
    (habsent : ∀ n, a ≤ n → n < b → leaf s r n = 0) : D b := by
  induction b, hab using Nat.le_induction with
  | base => exact ha
  | succ b hab ih =>
    refine hskip b (ih (by omega) fun n hlo hhi => habsent n hlo (by omega)) (by omega) ?_
    rw [habsent b hab (by omega)]
    exact hasFlag_zero _

variable (hi : i < 256)
include hi

theorem skip_table (hj : j < 512) (hk : k < 512) (ht : tableAt s r [i, j] = some pd)
    (habsent : hasFlag (s.mem pd k) ptePresent = false) (h : D (pageNum i j k 0)) : D (pageNum i j (k + 1) 0) := by
  refine skip_range hskip ?_ ?_ h fun n hlo hhi => entryOf_eq_zero ht habsent ⟨[], ?_⟩ _
  · simp only [pageNum]; omega
  · simp only [pageNum, userPages]; omega
  · simp only [ptPath, pml4Index, pdptIndex, pdIndex, pageNum, pageSize] at hlo hhi ⊢
    simp
    omega

theorem skip_directory (hj : j < 512) (ht : tableAt s r [i] = some pdpt)
    (habsent : hasFlag (s.mem pdpt j) ptePresent = false) (h : D (pageNum i j 0 0)) : D (pageNum i (j + 1) 0 0) := by
  refine skip_range hskip ?_ ?_ h fun n hlo hhi => entryOf_eq_zero ht habsent ⟨[pdIndex (n * pageSize)], ?_⟩ _
  · simp only [pageNum]; omega
  · simp only [pageNum, userPages]; omega
  · simp only [ptPath, pml4Index, pdptIndex, pageNum, pageSize] at hlo hhi ⊢
    simp
    omega

theorem skip_pointers (habsent : hasFlag (s.mem r i) ptePresent = false) (h : D (pageNum i 0 0 0)) :
    D (pageNum (i + 1) 0 0 0) := by
  refine skip_range hskip ?_ ?_ h fun n hlo hhi =>
    entryOf_eq_zero (q := []) rfl habsent ⟨[pdptIndex (n * pageSize), pdIndex (n * pageSize)], ?_⟩ _
  · simp only [pageNum]; omega
  · simp only [pageNum, userPages]; omega
  · simp only [ptPath, pml4Index, pageNum, pageSize] at hlo hhi ⊢
    simp
    omega

end

end

end AetherOs.Paging
