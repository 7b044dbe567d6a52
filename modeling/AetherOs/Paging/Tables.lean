import AetherOs.Paging.Vmm

/-! # Well-formed page tables -/

namespace AetherOs.Paging

open Base Base.Radix Option

/-! ## Reading and writing table entries -/

section

def child (e : BitVec 64) : Option ℕ :=
  if hasFlag e ptePresent && !hasFlag e pteHuge then some (tableOf e) else none

def FlagsOnly (flags : BitVec 64) : Prop := ∀ i, 12 ≤ i → i < 52 → flags.getLsbD i = false

structure SmallFlags (flags : BitVec 64) : Prop where
  only : FlagsOnly flags
  small : hasFlag flags pteHuge = false

variable {e flags : BitVec 64} {f : ℕ}

theorem hasFlag_twoPow (e : BitVec 64) (i : ℕ) : hasFlag e (BitVec.twoPow 64 i) = e.getLsbD i :=
  and_twoPow_bne_zero e i

theorem smallFlags_userBits (w x : Bool) :
    SmallFlags (ptePresent ||| pteUser ||| (if w then pteWritable else 0) ||| (if x then 0 else pteNx)) := by
  have hbits : ∀ w x : Bool, ∀ i < 64, (i = 7 ∨ 12 ≤ i ∧ i < 52) →
      (ptePresent ||| pteUser ||| (if w then pteWritable else 0) ||| (if x then 0 else pteNx)).getLsbD i =
        false := by decide
  refine ⟨fun i hi hi' => hbits _ _ i (by omega) (.inr ⟨hi, hi'⟩), ?_⟩
  rw [pteHuge, hasFlag_twoPow]
  exact hbits _ _ 7 (by decide) (.inl rfl)

theorem getLsbD_pteAddrMask (i : ℕ) : pteAddrMask.getLsbD i = (decide (12 ≤ i) && decide (i < 52)) := by
  by_cases hi : i < 64
  · revert i
    decide
  · rw [BitVec.getLsbD_of_ge _ _ (by omega)]
    simp
    omega

theorem tableOf_eq (e : BitVec 64) : tableOf e = e.toNat / 2 ^ 12 % 2 ^ 40 := by
  rw [tableOf, pteAddr, toNat_and_field 12 40 e pteAddrMask
    fun i _ => getLsbD_pteAddrMask i]
  exact Nat.mul_div_cancel _ (by decide)

theorem pteAddr_eq (e : BitVec 64) : pteAddr e = tableOf e * pageSize := by
  rw [tableOf_eq, pteAddr, toNat_and_field 12 40 e pteAddrMask
    fun i _ => getLsbD_pteAddrMask i]
  rfl

theorem testBit_tableOf (e : BitVec 64) (i : ℕ) :
    (tableOf e).testBit i = (decide (i < 40) && e.getLsbD (12 + i)) := by
  rw [tableOf_eq, Nat.testBit_mod_two_pow, Nat.testBit_div_two_pow, BitVec.testBit_toNat,
    Nat.add_comm]

theorem tableOf_congr {e' : BitVec 64} (h : ∀ i, 12 ≤ i → i < 52 → e'.getLsbD i = e.getLsbD i) :
    tableOf e' = tableOf e := by
  refine Nat.eq_of_testBit_eq fun i => ?_
  rw [testBit_tableOf, testBit_tableOf]
  by_cases hi : i < 40
  · rw [h (12 + i) (by omega) (by omega)]
  · simp [hi]

theorem tableOf_ofNat (hf : f < 2 ^ 40) (hflags : FlagsOnly flags) :
    tableOf (BitVec.ofNat 64 (f * pageSize) ||| flags) = f := by
  refine Nat.eq_of_testBit_eq fun i => ?_
  rw [testBit_tableOf]
  by_cases hi : i < 40
  · have hbit : (f * pageSize).testBit (12 + i) = f.testBit i := by
      rw [show pageSize = 2 ^ 12 from rfl, Nat.testBit_mul_two_pow]
      simp
    rw [BitVec.getLsbD_or, hflags (12 + i) (by omega) (by omega), BitVec.getLsbD_ofNat, hbit]
    simp [hi, show 12 + i < 64 by omega]
  · have hlarge : f < 2 ^ i := hf.trans_le (Nat.pow_le_pow_right (by decide) (by omega))
    simp [hi, Nat.testBit_lt_two_pow hlarge]

theorem getLsbD_frame (f : ℕ) {i : ℕ} (hi : i < 12) : (BitVec.ofNat 64 (f * pageSize)).getLsbD i = false := by
  rw [BitVec.getLsbD_ofNat, show pageSize = 2 ^ 12 from rfl, Nat.testBit_mul_two_pow]
  simp [show ¬ 12 ≤ i by omega]

theorem ofNat_and_pteAddrMask {paddr : ℕ} (hlt : paddr < 2 ^ 52) (hdvd : pageSize ∣ paddr) :
    BitVec.ofNat 64 paddr &&& pteAddrMask = BitVec.ofNat 64 paddr := by
  obtain ⟨k, rfl⟩ := hdvd
  refine BitVec.eq_of_toNat_eq ?_
  rw [toNat_and_field 12 40 _ pteAddrMask fun i _ => getLsbD_pteAddrMask i]
  simp only [BitVec.toNat_ofNat, pageSize] at *
  omega

theorem smallEntry_spec {paddr : ℕ} (hlt : paddr < 2 ^ 52) (hdvd : pageSize ∣ paddr) (hflags : FlagsOnly flags) :
    hasFlag (smallEntry paddr flags) ptePresent ∧
      tableOf (smallEntry paddr flags) = paddr / pageSize := by
  refine ⟨?_, ?_⟩
  · rw [smallEntry, ptePresent, hasFlag_twoPow]
    simp
  · obtain ⟨k, rfl⟩ := hdvd
    have hk : k < 2 ^ 40 := by
      simp only [pageSize] at hlt
      omega
    have honly : FlagsOnly (flags ||| ptePresent) := fun i hlo hhi => by
      rw [BitVec.getLsbD_or, hflags i hlo hhi, ptePresent]
      simp [show ¬ 0 = i by omega]
    rw [smallEntry, ofNat_and_pteAddrMask hlt (Nat.dvd_mul_right _ _), BitVec.or_assoc,
      Nat.mul_comm, tableOf_ofNat hk honly]
    exact (Nat.mul_div_cancel _ (by decide)).symm

theorem smallEntry_frame {z : ℕ} (hz : z < maxFrames) (hflags : FlagsOnly flags) :
    hasFlag (smallEntry (z * pageSize) flags) ptePresent ∧ tableOf (smallEntry (z * pageSize) flags) = z := by
  have hlt : z * pageSize < 2 ^ 52 := by
    simp only [maxFrames, pageSize] at hz ⊢
    omega
  obtain ⟨hpresent, hframe⟩ := smallEntry_spec hlt (Nat.dvd_mul_left _ _) hflags
  exact ⟨hpresent, hframe.trans (frame_div z)⟩

theorem hasFlag_smallEntry_huge (paddr : ℕ) (flags : BitVec 64) :
    hasFlag (smallEntry paddr flags) pteHuge = hasFlag flags pteHuge := by
  rw [pteHuge, hasFlag_twoPow, hasFlag_twoPow, smallEntry, BitVec.getLsbD_or, BitVec.getLsbD_or,
    BitVec.getLsbD_and, getLsbD_pteAddrMask, ptePresent, BitVec.getLsbD_twoPow]
  simp

end

/-! ## Well-formed page tables -/

section

def tableAt (s : Machine) (r : ℕ) (p : List ℕ) : Option ℕ := walk child s.mem r p

def entryOf (s : Machine) (r : ℕ) (p : List ℕ) (i : ℕ) : BitVec 64 := entryAt child 0 s.mem r p i

abbrev TablePath (p : List ℕ) : Prop := ValidPath 512 3 p

def IsTable (s : Machine) (roots : Set ℕ) (t : ℕ) : Prop := Node child s.mem 512 3 roots t

def OwnTable (s : Machine) (own : ℕ → Prop) (roots : Set ℕ) (t : ℕ) : Prop :=
  ∃ r ∈ roots, ∃ p, TablePath p ∧ Owned own p ∧ tableAt s r p = some t

section

variable {s s' : Machine} {own : ℕ → Prop} {roots : Set ℕ} {t : ℕ}

theorem OwnTable.isTable (h : OwnTable s own roots t) : IsTable s roots t := by
  obtain ⟨r, hr, p, hp, _, hpt⟩ := h
  exact ⟨r, hr, p, hp, hpt⟩

variable (h : ∀ r ∈ roots, ∀ p, TablePath p → tableAt s' r p = tableAt s r p)

include h

theorem ownTable_congr : OwnTable s' own roots t ↔ OwnTable s own roots t := by
  refine exists_congr fun r => and_congr_right fun hr => exists_congr fun p => and_congr_right fun hp => ?_
  rw [h r hr p hp]

theorem isTable_congr : IsTable s' roots t ↔ IsTable s roots t := by
  refine exists_congr fun r => and_congr_right fun hr => exists_congr fun p => and_congr_right fun hp => ?_
  exact iff_of_eq (congrArg (· = some t) (h r hr p hp))

end

structure Tables (s : Machine) (own : ℕ → Prop) (roots shared : Set ℕ) : Prop where
  forest : Forest child s.mem 512 3 own roots shared
  kept : ∀ t, IsTable s roots t → ¬ Free s.pmm t
  shared_kept : ∀ t ∈ shared, ¬ Free s.pmm t
  upper : ∀ r ∈ roots, ∀ p i, TablePath (p ++ [i]) → p.length ≤ 1 →
    hasFlag (entryOf s r p i) ptePresent = true → hasFlag (entryOf s r p i) pteHuge = false

theorem Tables.used {t : ℕ} (h : Tables s own roots shared) (ht : IsTable s roots t ∨ t ∈ shared) : ¬ Free s.pmm t :=
  ht.elim (h.kept t) (h.shared_kept t)

structure Extends (own : ℕ → Prop) (roots shared : Set ℕ) (s s' : Machine) : Prop where
  tables : Tables s' own roots shared
  walk_mono : ∀ r ∈ roots, ∀ p t, TablePath p → tableAt s r p = some t → tableAt s' r p = some t
  directory : ∀ r ∈ roots, ∀ p i, TablePath p → p.length = 2 →
    entryOf s' r p i = entryOf s r p i ∨
      (hasFlag (entryOf s r p i) ptePresent = false ∧ child (entryOf s' r p i) ≠ none)
  leaf : ∀ r ∈ roots, ∀ p i, TablePath p → p.length = 3 → entryOf s' r p i = entryOf s r p i
  nodes : ∀ t, OwnTable s' own roots t → OwnTable s own roots t ∨ Free s.pmm t
  pointers : ∀ t, OwnTable s' own roots t → OwnTable s own roots t ∨ physToVirt (t * pageSize) ≠ 0
  root : ∀ r ∈ roots, ∀ i, ¬ own i → s'.mem r i = s.mem r i
  memory : ∀ f, ¬ Free s.pmm f → ¬ OwnTable s own roots f → s'.mem f = s.mem f
  kept : ∀ f, ¬ Free s.pmm f → ¬ Free s'.pmm f
  refcounts : ∀ f, ¬ Free s.pmm f → s'.pmm.refcounts f = s.pmm.refcounts f
  kernel : s'.kernelPml4 = s.kernelPml4

structure PointerFlags (flags : BitVec 64) : Prop where
  flagsOnly : FlagsOnly flags
  present : hasFlag flags ptePresent = true
  not_huge : hasFlag flags pteHuge = false

variable {s s' s'' : Machine} {own : ℕ → Prop} {roots shared : Set ℕ} {r t i : ℕ} {q : List ℕ}
variable {e flags : BitVec 64}

theorem child_eq_some : child e = some t ↔
    hasFlag e ptePresent ∧ hasFlag e pteHuge = false ∧ tableOf e = t := by
  simp only [child, Bool.and_eq_true, Bool.not_eq_true']
  split_ifs with h
  · simp [h]
  · simp only [false_iff]
    tauto

theorem child_eq_none_of_not_present (h : hasFlag e ptePresent = false) : child e = none := by
  simp [child, h]

theorem hasFlag_zero (flag : BitVec 64) : hasFlag 0 flag = false := by
  simp [hasFlag]

theorem child_zero : child 0 = none := child_eq_none_of_not_present (hasFlag_zero _)

namespace Extends

theorem refl (h : Tables s own roots shared) : Extends own roots shared s s :=
  ⟨h, fun _ _ _ _ _ h => h, fun _ _ _ _ _ _ => .inl rfl, fun _ _ _ _ _ _ => rfl, fun _ h => .inl h,
    fun _ h => .inl h, fun _ _ _ _ => rfl, fun _ _ _ => rfl, fun _ h => h, fun _ _ => rfl, rfl⟩

theorem trans (h : Extends own roots shared s s') (h' : Extends own roots shared s' s'') :
    Extends own roots shared s s'' where
  tables := h'.tables
  walk_mono := fun r hr p t hp ht => h'.walk_mono r hr p t hp (h.walk_mono r hr p t hp ht)
  directory := fun r hr p i hp hlen => by
    rcases h.directory r hr p i hp hlen with heq | ⟨habs, hnew⟩ <;>
      rcases h'.directory r hr p i hp hlen with heq' | ⟨habs', hnew'⟩
    · exact .inl (heq'.trans heq)
    · exact .inr ⟨heq ▸ habs', hnew'⟩
    · exact .inr ⟨habs, heq' ▸ hnew⟩
    · exact absurd (child_eq_none_of_not_present habs') hnew
  leaf := fun r hr p i hp hlen => (h'.leaf r hr p i hp hlen).trans (h.leaf r hr p i hp hlen)
  nodes := fun t ht => by
    rcases h'.nodes t ht with ht | hfree
    · exact h.nodes t ht
    · exact .inr (by_contra fun hused => h.kept t hused hfree)
  pointers := fun t ht => by
    rcases h'.pointers t ht with ht | hptr
    · exact h.pointers t ht
    · exact .inr hptr
  root := fun r hr i hi => (h'.root r hr i hi).trans (h.root r hr i hi)
  memory := fun f hf hnot => by
    rw [h'.memory f (h.kept f hf), h.memory f hf hnot]
    intro hnode
    rcases h.nodes f hnode with hnode | hfree
    · exact hnot hnode
    · exact hf hfree
  kept := fun f hf => h'.kept f (h.kept f hf)
  refcounts := fun f hf => (h'.refcounts f (h.kept f hf)).trans (h.refcounts f hf)
  kernel := h'.kernel.trans h.kernel

theorem of_frames {m : Pmm} {mem : ℕ → ℕ → BitVec 64} (h : Tables s own roots shared)
    (hkept : ∀ f, ¬ Free s.pmm f → ¬ Free m f)
    (hrefs : ∀ f, ¬ Free s.pmm f → m.refcounts f = s.pmm.refcounts f)
    (hmem : ∀ f, ¬ Free s.pmm f → mem f = s.mem f) :
    Extends own roots shared s { s with pmm := m, mem := mem } := by
  have hnode (t : ℕ) (ht : IsTable s roots t) : mem t = s.mem t := hmem t (h.kept t ht)
  have hwalk {r : ℕ} {p : List ℕ} (hr : r ∈ roots) (hp : TablePath p) :
      walk child mem r p = walk child s.mem r p := walk_eq_of_not_node hnode hr hp
  have hentry {r i : ℕ} {p : List ℕ} (hr : r ∈ roots) (hp : TablePath p) :
      entryAt child 0 mem r p i = entryAt child 0 s.mem r p i := entryAt_eq_of_not_node hnode hr hp
  have hown (t : ℕ) (ht : OwnTable { s with pmm := m, mem := mem } own roots t) : OwnTable s own roots t := by
    obtain ⟨r, hr, p, hp, hown, ht⟩ := ht
    exact ⟨r, hr, p, hp, hown, (hwalk hr hp).symm.trans ht⟩
  refine ⟨⟨h.forest.mono fun r hr p hp t ht => (hwalk hr hp).symm.trans ht, ?_, ?_, ?_⟩, ?_, ?_, ?_,
    fun t ht => .inl (hown t ht), fun t ht => .inl (hown t ht), ?_, fun f hf _ => hmem f hf, hkept, hrefs, rfl⟩
  · rintro t ⟨r, hr, p, hp, ht⟩
    exact hkept t (h.kept t ⟨r, hr, p, hp, (hwalk hr hp).symm.trans ht⟩)
  · exact fun t ht => hkept t (h.shared_kept t ht)
  · intro r hr p i hp hlen hpresent
    have heq := hentry (i := i) hr (hp.initial (List.prefix_append _ _))
    exact (congrArg (hasFlag · pteHuge) heq).trans
      (h.upper r hr p i hp hlen ((congrArg (hasFlag · ptePresent) heq).symm.trans hpresent))
  · exact fun r hr p t hp ht => (hwalk hr hp).trans ht
  · exact fun r hr p i hp _ => .inl (hentry hr hp)
  · exact fun r hr p i hp _ => hentry hr hp
  · exact fun r hr i _ => congrFun (hnode r ⟨r, hr, [], .nil, rfl⟩) i

end Extends

theorem PointerFlags.child_ofNat {z : ℕ} (h : PointerFlags flags) (hz : z < maxFrames) :
    child (BitVec.ofNat 64 (z * pageSize) ||| flags) = some z := by
  have hpresent := h.present
  have hhuge := h.not_huge
  rw [ptePresent, hasFlag_twoPow] at hpresent
  rw [pteHuge, hasFlag_twoPow] at hhuge
  refine child_eq_some.mpr ⟨?_, ?_, tableOf_ofNat ?_ h.flagsOnly⟩
  · rw [ptePresent, hasFlag_twoPow, BitVec.getLsbD_or, hpresent, Bool.or_true]
  · rw [pteHuge, hasFlag_twoPow, BitVec.getLsbD_or, hhuge, getLsbD_frame z (by decide), Bool.or_false]
  · exact hz.trans (by decide)

def linkTable (s : Machine) (t i z : ℕ) (flags : BitVec 64) : Machine :=
  setEntry t i (BitVec.ofNat 64 (z * pageSize) ||| flags)
    { s with pmm := takeFrame z s.pmm, mem := fill s.mem z 0 }

theorem tablePointer_eq_some {phys z : ℕ} (h : tablePointer phys = some z) : phys / pageSize = z := by
  rw [tablePointer] at h
  split at h
  · cases h
  · exact some.inj h

section

variable (h : Tables s own roots shared) (hr : r ∈ roots) (hq : TablePath (q ++ [i])) (hown : Owned own (q ++ [i])) (ht : tableAt s r q = some t)
include h hr hq hown ht

theorem Tables.links {z : ℕ} (habsent : hasFlag (s.mem t i) ptePresent = false) (hz : Free s.pmm z)
    (hflags : PointerFlags flags) :
    Links child 0 s.mem 512 3 own roots shared r q t i z
      (BitVec.ofNat 64 (z * pageSize) ||| flags) where
  forest := h.forest
  root_mem := hr
  valid := hq
  owned := hown
  table := ht
  absent := child_eq_none_of_not_present habsent
  fresh := fun hnode => h.kept z hnode hz
  not_shared := fun hmem => h.shared_kept z hmem hz
  null_child := child_zero
  points := hflags.child_ofNat hz.1

theorem Tables.extends_linkTable {z : ℕ} (habsent : hasFlag (s.mem t i) ptePresent = false) (hz : Free s.pmm z)
    (hptr : physToVirt (z * pageSize) ≠ 0) (hflags : PointerFlags flags) :
    Extends own roots shared s (linkTable s t i z flags) ∧
      tableAt (linkTable s t i z flags) r (q ++ [i]) = some z := by
  set s' := linkTable s t i z flags
  have hlinks := h.links hr hq hown ht habsent hz hflags
  have hwalk {r' : ℕ} {p : List ℕ} (hr' : r' ∈ roots) (hp : TablePath p) :
      tableAt s' r' p =
        if r' = r ∧ p = q ++ [i] then some z else tableAt s r' p := hlinks.walk_eq hr' hp
  have hentry {r' j : ℕ} {p : List ℕ} (hr' : r' ∈ roots) (hp : TablePath p) :
      entryOf s' r' p j = if r' = r ∧ p = q ∧ j = i
        then BitVec.ofNat 64 (z * pageSize) ||| flags else entryOf s r' p j := hlinks.entryAt_eq hr' hp
  have hold : entryOf s r q i = s.mem t i := entryAt_of_walk ht
  have hkept (f : ℕ) (hf : ¬ Free s.pmm f) : ¬ Free s'.pmm f :=
    not_free_takeFrame hf
  refine ⟨⟨⟨hlinks.linked, fun t' ht' => ?_, fun t' ht' => hkept t' (h.shared_kept t' ht'), ?_⟩,
    ?_, ?_, ?_, ?_, ?_, ?_, ?_, hkept, ?_, rfl⟩, ?_⟩
  · obtain ⟨r', hr', p, hp, hp'⟩ := ht'
    change tableAt s' r' p = some t' at hp'
    rw [hwalk hr' hp] at hp'
    split at hp'
    · obtain rfl := some.inj hp'
      exact not_free_takeFrame_self
    · exact hkept t' (h.kept t' ⟨r', hr', p, hp, hp'⟩)
  · intro r' hr' p j hp hlen hpresent
    rw [hentry hr' (hp.initial (List.prefix_append _ _))] at hpresent ⊢
    split_ifs with hne
    · exact (child_eq_some.mp hlinks.points).2.1
    · rw [if_neg hne] at hpresent
      exact h.upper r' hr' p j hp hlen hpresent
  · intro r' hr' p t' hp hp'
    rw [hwalk hr' hp, if_neg, hp']
    rintro ⟨rfl, rfl⟩
    rw [tableAt, walk_eq_none_of_entry ht hlinks.absent List.prefix_rfl] at hp'
    cases hp'
  · intro r' hr' p j hp _
    rw [hentry hr' hp]
    split_ifs with heq
    · obtain ⟨rfl, rfl, rfl⟩ := heq
      exact .inr ⟨hold ▸ habsent, by simp [hlinks.points]⟩
    · exact .inl rfl
  · intro r' hr' p j hp hlen
    rw [hentry hr' hp, if_neg]
    rintro ⟨_, rfl, _⟩
    have := hq.length_le
    simp [hlen] at this
  · rintro t' ⟨r', hr', p, hp, hown', hp'⟩
    rw [hwalk hr' hp] at hp'
    split at hp'
    · exact .inr (some.inj hp' ▸ hz)
    · exact .inl ⟨r', hr', p, hp, hown', hp'⟩
  · rintro t' ⟨r', hr', p, hp, hown', hp'⟩
    rw [hwalk hr' hp] at hp'
    split at hp'
    · exact .inr (some.inj hp' ▸ hptr)
    · exact .inl ⟨r', hr', p, hp, hown', hp'⟩
  · intro r' hr' j hj
    have hnil : TablePath [] := .nil
    refine (entryAt_of_walk (p := []) rfl).symm.trans ((hentry hr' hnil).trans ?_)
    rw [if_neg, entryOf, entryAt_of_walk rfl]
    rintro ⟨_, rfl, rfl⟩
    exact hj (hown _ rfl)
  · intro f hf hnot
    have hft : f ≠ t := by
      rintro rfl
      exact hnot ⟨r, hr, q, hlinks.valid_table, hown.dropLast, ht⟩
    funext j
    change store (fill s.mem z 0) t i _ f j = _
    rw [store_of_ne fun heq => hft heq.1, fill_of_ne (hz.ne hf)]
  · exact fun f hf => refcounts_takeFrame hz hf
  · rw [hwalk hr hq, if_pos ⟨rfl, rfl⟩]

theorem Tables.getOrCreateTable (hflags : PointerFlags flags) :
    Extends own roots shared s (getOrCreateTable t i flags s).2 ∧
      ∀ z, (getOrCreateTable t i flags s).1 = some z →
        tableAt (getOrCreateTable t i flags s).2 r (q ++ [i]) = some z := by
  rw [Paging.getOrCreateTable]
  by_cases hpresent : hasFlag (s.mem t i) ptePresent
  · by_cases hhuge : hasFlag (s.mem t i) pteHuge
    · simp only [hpresent, hhuge, if_true]
      exact ⟨.refl h, fun z hz => nomatch hz⟩
    · simp only [hpresent, hhuge, if_true, Bool.false_eq_true, if_false]
      refine ⟨.refl h, fun z hz => ?_⟩
      rw [tableAt, walk_concat, show walk child s.mem r q = some t from ht]
      exact child_eq_some.mpr ⟨hpresent, by simpa using hhuge, tablePointer_eq_some hz⟩
  · rw [if_neg hpresent, allocPageTable]
    rcases pmmAllocFrame_cases s.pmm with hnone | ⟨z, hz, hsome⟩
    · simp only [hnone, if_true]
      exact ⟨.refl h, fun z hz => nomatch hz⟩
    · by_cases hzero : z * pageSize = 0
      · simp only [hsome, hzero, if_true]
        exact ⟨.of_frames h (fun f hf => not_free_takeFrame hf) (fun f hf => refcounts_takeFrame hz hf)
          fun _ _ => rfl, fun z hz => nomatch hz⟩
      · have hdiv : z * pageSize / pageSize = z := Nat.mul_div_cancel _ (by decide)
        simp only [hsome, hzero, if_false]
        cases hptr : tablePointer (z * pageSize) with
        | none =>
          simp only [hdiv]
          exact ⟨.of_frames h (fun f hf => not_free_takeFrame hf) (fun f hf => refcounts_takeFrame hz hf)
            fun f hf => fill_of_ne (by rintro rfl; exact hf hz), fun z hz => nomatch hz⟩
        | some z' =>
          obtain rfl : z = z' := hdiv.symm.trans (tablePointer_eq_some hptr)
          simp only [hdiv]
          have hnull : physToVirt (z * pageSize) ≠ 0 := by
            intro hnull
            rw [tablePointer, if_pos hnull] at hptr
            cases hptr
          obtain ⟨hext, hwalk⟩ :=
            h.extends_linkTable hr hq hown ht (by simpa using hpresent) hz hnull hflags
          exact ⟨hext, fun z' hz' => some.inj hz' ▸ hwalk⟩

end

section Store

variable (h : Tables s own roots shared) (hr : r ∈ roots) (hq : TablePath q)
  (hown : Owned own (q ++ [i])) (ht : tableAt s r q = some t)

include h hr hq hown ht

theorem Tables.entryOf_setLeaf (hlen : q.length = 3) {r' j : ℕ} {p : List ℕ} (hr' : r' ∈ roots)
    (hp : TablePath p) : entryOf (setEntry t i e s) r' p j =
      if r' = r ∧ p = q ∧ j = i then e else entryOf s r' p j :=
  h.forest.entryAt_leaf hr hq hlen hown ht hr' hp

theorem Tables.tableAt_setLeaf (hlen : q.length = 3) {r' : ℕ} {p : List ℕ} (hr' : r' ∈ roots)
    (hp : TablePath p) : tableAt (setEntry t i e s) r' p = tableAt s r' p :=
  h.forest.walk_leaf hr hq hlen hown ht hr' hp

theorem Tables.setLeaf (hlen : q.length = 3) : Tables (setEntry t i e s) own roots shared where
  forest := h.forest.leaf hr hq hlen hown ht
  kept := fun t' ⟨r', hr', p, hp, hp'⟩ =>
    h.kept t' ⟨r', hr', p, hp, by rwa [← h.forest.walk_leaf hr hq hlen hown ht hr' hp]⟩
  shared_kept := h.shared_kept
  upper := fun r' hr' p j hp hplen hpresent => by
    have hne : ¬ (r' = r ∧ p = q ∧ j = i) := by
      rintro ⟨_, rfl, _⟩
      omega
    rw [h.entryOf_setLeaf hr hq hown ht hlen hr' (hp.initial (List.prefix_append _ _)),
      if_neg hne] at hpresent ⊢
    exact h.upper r' hr' p j hp hplen hpresent

theorem Tables.entryOf_setDirectory {r' j : ℕ} {p : List ℕ} (hr' : r' ∈ roots)
    (hp : TablePath p) (hnot : ¬ (r' = r ∧ q ++ [i] <+: p ++ [j])) :
    entryOf (setEntry t i e s) r' p j = entryOf s r' p j :=
  h.forest.entryAt_store hr hq hown ht hr' hp hnot

theorem Tables.entryOf_setDirectory_self : entryOf (setEntry t i e s) r q i = e :=
  h.forest.entryAt_store_self hr hq hown ht

theorem Tables.setDirectory (hlen : q.length = 2) (he : child e = none) :
    Tables (setEntry t i e s) own roots shared where
  forest := h.forest.cut hr hq hown ht he
  kept := fun t' ⟨r', hr', p, hp, hp'⟩ => by
    by_cases hthrough : r' = r ∧ q ++ [i] <+: p
    · obtain ⟨rfl, hpre⟩ := hthrough
      have hself := h.forest.walk_store_self (e := e) hr hq hown ht
      rw [show (setEntry t i e s).mem = store s.mem t i e from rfl,
        walk_eq_none_of_entry hself (by rw [store_self]; exact he) hpre] at hp'
      cases hp'
    · exact h.kept t' ⟨r', hr', p, hp, by
        rwa [← h.forest.walk_store (e := e) hr hq hown ht hr' hp hthrough]⟩
  shared_kept := h.shared_kept
  upper := fun r' hr' p j hp hplen hpresent => by
    have hnot : ¬ (r' = r ∧ q ++ [i] <+: p ++ [j]) := by
      rintro ⟨_, hle⟩
      have := hle.length_le
      simp only [List.length_append, List.length_singleton] at this
      omega
    rw [h.entryOf_setDirectory hr hq hown ht hr' (hp.initial (List.prefix_append _ _)) hnot] at hpresent ⊢
    exact h.upper r' hr' p j hp hplen hpresent

end Store

theorem pointerFlags_tableFlags (flags : BitVec 64) : PointerFlags (tableFlags flags) := by
  have hbits : ∀ i, (tableFlags flags).getLsbD i → i < 3 := by
    intro i hi
    by_contra hge
    have hne {j : ℕ} (hj : j < 3) : ¬ j = i := by omega
    unfold tableFlags at hi
    split at hi <;>
      simp [ptePresent, pteWritable, pteUser, hne (show 0 < 3 by decide), hne (show 1 < 3 by decide),
        hne (show 2 < 3 by decide)] at hi
  refine ⟨fun i hi _ => ?_, ?_, ?_⟩
  · exact Bool.eq_false_iff.mpr fun h => absurd (hbits i h) (by omega)
  · rw [tableFlags, ptePresent, hasFlag_twoPow]
    simp
  · rw [pteHuge, hasFlag_twoPow]
    exact Bool.eq_false_iff.mpr fun h => absurd (hbits 7 h) (by omega)

theorem tableAt_concat_of_entry {p : List ℕ} (ht : tableAt s r p = some t)
    (hpresent : hasFlag (s.mem t i) ptePresent) (hhuge : hasFlag (s.mem t i) pteHuge = false) :
    tableAt s r (p ++ [i]) = some (tableOf (s.mem t i)) := by
  rw [tableAt, walk_concat, show walk child s.mem r p = some t from ht]
  exact child_eq_some.mpr ⟨hpresent, hhuge, rfl⟩

theorem Tables.tableAt_concat {p : List ℕ} (h : Tables s own roots shared) (hr : r ∈ roots)
    (hp : TablePath (p ++ [i])) (hlen : p.length ≤ 1) (ht : tableAt s r p = some t)
    (hpresent : hasFlag (s.mem t i) ptePresent) :
    tableAt s r (p ++ [i]) = some (tableOf (s.mem t i)) := by
  have hentry : entryOf s r p i = s.mem t i := entryAt_of_walk ht
  have hhuge := h.upper r hr p i hp hlen (hentry.symm ▸ hpresent)
  exact tableAt_concat_of_entry ht hpresent (hentry ▸ hhuge)

theorem table_of_present {p : List ℕ} (h : hasFlag (entryOf s r p i) ptePresent) :
    ∃ t, tableAt s r p = some t ∧ s.mem t i = entryOf s r p i := by
  cases ht : tableAt s r p with
  | none =>
    rw [entryOf, entryAt, show walk child s.mem r p = none from ht] at h
    cases (hasFlag_zero _).symm.trans h
  | some t => exact ⟨t, rfl, (entryAt_of_walk ht).symm⟩

theorem entryOf_eq_zero (ht : tableAt s r q = some t) (habsent : hasFlag (s.mem t i) ptePresent = false)
    {p : List ℕ} (hp : q ++ [i] <+: p) (j : ℕ) : entryOf s r p j = 0 := by
  rw [entryOf, entryAt, walk_eq_none_of_entry ht (child_eq_none_of_not_present habsent) hp]
  rfl

def pdPath (vaddr : ℕ) : List ℕ := [pml4Index vaddr, pdptIndex vaddr]

def ptPath (vaddr : ℕ) : List ℕ := [pml4Index vaddr, pdptIndex vaddr, pdIndex vaddr]

theorem index_lt (vaddr : ℕ) : pml4Index vaddr < 512 ∧ pdptIndex vaddr < 512 ∧ pdIndex vaddr < 512 ∧
    ptIndex vaddr < 512 :=
  ⟨Nat.mod_lt _ (by decide), Nat.mod_lt _ (by decide), Nat.mod_lt _ (by decide),
    Nat.mod_lt _ (by decide)⟩

theorem tablePath_ptPath (vaddr : ℕ) : TablePath (ptPath vaddr) := by
  obtain ⟨h4, h3, h2, _⟩ := index_lt vaddr
  exact ⟨le_rfl, by simp [ptPath, h4, h3, h2]⟩

theorem tablePath_pdPath (vaddr : ℕ) : TablePath (pdPath vaddr) :=
  (tablePath_ptPath vaddr).initial ⟨[pdIndex vaddr], rfl⟩

inductive MapOutcome (own : ℕ → Prop) (roots shared : Set ℕ) (s : Machine) (r vaddr paddr : ℕ)
    (flags : BitVec 64) : ℤ × Machine → Prop
  | failed {s' : Machine} : Extends own roots shared s s' →
      MapOutcome own roots shared s r vaddr paddr flags (-1, s')
  | small {s' : Machine} {pt : ℕ} : hasFlag flags pteHuge = false → Extends own roots shared s s' →
      tableAt s' r (ptPath vaddr) = some pt →
      MapOutcome own roots shared s r vaddr paddr flags
        (0, setEntry pt (ptIndex vaddr) (smallEntry paddr flags) s')
  | huge {s' : Machine} {pd : ℕ} : hasFlag flags pteHuge = true → Extends own roots shared s s' →
      tableAt s' r (pdPath vaddr) = some pd →
      MapOutcome own roots shared s r vaddr paddr flags
        (0, setEntry pd (pdIndex vaddr) (hugeEntry paddr flags) s')

theorem vmmMapPage_cases (h : Tables s own roots shared) (hr : r ∈ roots) {vaddr : ℕ}
    (hown : own (pml4Index vaddr)) (paddr : ℕ) (flags : BitVec 64) :
    MapOutcome own roots shared s r vaddr paddr flags (vmmMapPage r vaddr paddr flags s) := by
  have hflags := pointerFlags_tableFlags flags
  have hpath := tablePath_ptPath vaddr
  have howned {p : List ℕ} : Owned own (pml4Index vaddr :: p) := by simpa [Owned] using hown
  have hwalk₁ := h.getOrCreateTable (q := []) hr
    (hpath.initial ⟨[pdptIndex vaddr, pdIndex vaddr], rfl⟩) howned rfl hflags
  rw [vmmMapPage]
  rcases hstep₁ : getOrCreateTable r (pml4Index vaddr) (tableFlags flags) s with ⟨_ | pdpt, s₁⟩
  · rw [hstep₁] at hwalk₁
    exact .failed hwalk₁.1
  rw [hstep₁] at hwalk₁
  have hwalk₂ := hwalk₁.1.tables.getOrCreateTable (q := [pml4Index vaddr]) hr
    (hpath.initial ⟨[pdIndex vaddr], rfl⟩) howned (hwalk₁.2 pdpt rfl) hflags
  simp only
  rcases hstep₂ : getOrCreateTable pdpt (pdptIndex vaddr) (tableFlags flags) s₁ with ⟨_ | pd, s₂⟩
  · rw [hstep₂] at hwalk₂
    exact .failed (hwalk₁.1.trans hwalk₂.1)
  rw [hstep₂] at hwalk₂
  have hext₂ := hwalk₁.1.trans hwalk₂.1
  simp only
  split_ifs with hhuge
  · exact .huge hhuge hext₂ (hwalk₂.2 pd rfl)
  · have hwalk₃ := hext₂.tables.getOrCreateTable (q := pdPath vaddr) hr hpath howned
      (hwalk₂.2 pd rfl) hflags
    rcases hstep₃ : getOrCreateTable pd (pdIndex vaddr) (tableFlags flags) s₂ with ⟨_ | pt, s₃⟩
    · rw [hstep₃] at hwalk₃
      exact .failed (hext₂.trans hwalk₃.1)
    · rw [hstep₃] at hwalk₃
      exact .small (by simpa using hhuge) (hext₂.trans hwalk₃.1) (hwalk₃.2 pt rfl)

def bareMachine : Machine where
  mem := fun _ _ => 0
  pmm := { bitmap := fun byte => if byte = 0 then 3 else 0
           refcounts := fun f => if f = 1 then 1 else 0
           usedFrameCount := 2 }
  kernelPml4 := 1

theorem Tables.of_empty (hempty : ∀ i, s.mem r i = 0) (hused : ¬ Free s.pmm r) :
    Tables s own {r} ∅ := by
  have hcons (i : ℕ) (p : List ℕ) : walk child s.mem r (i :: p) = none := by
    rw [walk, hempty, child_zero]
    rfl
  have hnil {p : List ℕ} {t : ℕ} (ht : walk child s.mem r p = some t) : p = [] ∧ t = r := by
    cases p with
    | nil => exact ⟨rfl, (some.inj ht).symm⟩
    | cons i p => rw [hcons] at ht; cases ht
  refine ⟨⟨?_, ?_, fun _ _ _ _ _ _ _ hmem => hmem⟩, ?_, fun _ hmem => hmem.elim, ?_⟩
  · rintro _ rfl _ rfl p q t _ _ _ _ hp hq
    exact ⟨rfl, (hnil hp).1.trans (hnil hq).1.symm⟩
  · rintro _ rfl p t _ hown hp
    exact absurd (by simp [(hnil hp).1, Owned]) hown
  · rintro t ⟨_, rfl, p, _, hp⟩
    exact (hnil hp).2 ▸ hused
  · intro r' hr' p i _ _ hpresent
    obtain rfl : r' = r := hr'
    obtain ⟨t, ht, hentry⟩ := table_of_present hpresent
    rw [← hentry, (hnil ht).2, hempty, hasFlag_zero] at hpresent
    cases hpresent

theorem tables_bareMachine : Tables bareMachine own {1} ∅ :=
  .of_empty (fun _ => rfl) fun h => by
    have hused : pmmTestBit bareMachine.pmm 1 := by decide
    exact absurd h.2 (by rw [hused]; decide)

end

end AetherOs.Paging
