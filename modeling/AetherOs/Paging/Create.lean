import AetherOs.Paging.UserHalf
import AetherOs.Base.Loop

/-! # A new address space -/

namespace AetherOs.Paging

open Base Base.Radix Function

section

variable {s s' : Machine} {roots kernel : Set ℕ} {n t z i : ℕ} {p : List ℕ}

def newSpace (s : Machine) (z : ℕ) : Machine :=
  { s with
    pmm := takeFrame z s.pmm
    mem := update s.mem z fun i => if 256 ≤ i ∧ i < 512 then s.mem s.kernelPml4 i else 0 }

theorem vmmCreateAddressSpace_eq (hkernel : ¬ Free s.pmm s.kernelPml4)
    (h : vmmCreateAddressSpace s = (some z, s')) :
    Free s.pmm z ∧ physToVirt (z * pageSize) ≠ 0 ∧ s' = newSpace s z := by
  rw [vmmCreateAddressSpace, allocPageTable] at h
  rcases pmmAllocFrame_cases s.pmm with hnone | ⟨f, hf, hsome⟩
  · simp [hnone] at h
  · simp only [hsome, frame_div, tablePointer] at h
    by_cases hzero : f * pageSize = 0
    · simp [hzero] at h
    · by_cases hnull : physToVirt (f * pageSize) = 0
      · simp [hzero, hnull] at h
      · simp only [hzero, hnull, if_false, Prod.mk.injEq, Option.some.injEq] at h
        obtain ⟨rfl, rfl⟩ := h
        refine ⟨hf, hnull, ?_⟩
        simp only [copyKernelHalf, newSpace, fill, update_self, update_of_ne (hf.ne hkernel),
          update_idem]

structure EmptySpace (s : Machine) (z : ℕ) : Prop where
  user : ∀ i < 256, s.mem z i = 0
  upper : ∀ i, 256 ≤ i → i < 512 → s.mem z i = s.mem s.kernelPml4 i

namespace EmptySpace

variable (h : EmptySpace s z)

include h

theorem tableAt_user (hp : Owned userIndex p) (ht : tableAt s z p = some t) : p = [] ∧ t = z := by
  cases p with
  | nil => exact ⟨rfl, (Option.some.inj ht).symm⟩
  | cons i p =>
    have hi : i < 256 := hp i rfl
    rw [tableAt, walk, h.user i hi, child_zero] at ht
    cases ht

theorem tableAt_kernel (hp : TablePath p) (hown : ¬ Owned userIndex p) :
    tableAt s z p = tableAt s s.kernelPml4 p := by
  cases p with
  | nil => simp [Owned] at hown
  | cons i p =>
    have hi : 256 ≤ i := by simpa [Owned, userIndex] using hown
    rw [tableAt, tableAt, walk, walk, h.upper i hi (hp.index_lt i (by simp))]

theorem entryOf_user (hown : Owned userIndex (p ++ [i])) : entryOf s z p i = 0 := by
  cases ht : tableAt s z p with
  | none =>
    rw [entryOf, entryAt, show walk child s.mem z p = none from ht]
    rfl
  | some t =>
    obtain ⟨rfl, rfl⟩ := h.tableAt_user hown.dropLast ht
    exact h.user i (hown i rfl)

theorem entryOf_kernel (hp : TablePath (p ++ [i])) (hown : ¬ Owned userIndex (p ++ [i])) :
    entryOf s z p i = entryOf s s.kernelPml4 p i := by
  cases p with
  | nil =>
    have hi : 256 ≤ i := by simpa [Owned, userIndex] using hown
    exact h.upper i hi (hp.index_lt i (by simp))
  | cons j p =>
    have hown' : ¬ Owned userIndex (j :: p) := by simpa [Owned] using hown
    exact entryOf_congr (h.tableAt_kernel (hp.initial (List.prefix_append _ _)) hown') fun _ _ => rfl

theorem entryOf_ptPath (v : ℕ) (hv : ¬ userIndex (pml4Index v)) :
    entryOf s z (ptPath v) (ptIndex v) = entryOf s s.kernelPml4 (ptPath v) (ptIndex v) :=
  entryOf_congr (h.tableAt_kernel (tablePath_ptPath v) (by simpa [Owned, ptPath] using hv)) fun _ _ => rfl

theorem leaf_eq_zero (hn : n < userPages) : leaf s z n = 0 := h.entryOf_user (owned_ptPath hn)

end EmptySpace

theorem UserSpaces.join (h : UserSpaces s roots kernel) (hz : EmptySpace s z)
    (htable : ¬ IsTable s roots z) (hkernel : z ∉ kernel) (hused : ¬ Free s.pmm z)
    (hdata : ∀ r ∈ roots, ∀ n < userPages, hasFlag (leaf s r n) ptePresent →
      tableOf (leaf s r n) ≠ z) :
    UserSpaces s (insert z roots) kernel := by
  have hreach {p : List ℕ} {t : ℕ} (hp : TablePath p) (hown : ¬ Owned userIndex p)
      (ht : tableAt s z p = some t) : t ∈ kernel :=
    h.kernelHalf.reach p t hp hown ((hz.tableAt_kernel hp hown).symm.trans ht)
  have hisTable {t : ℕ} (ht : IsTable s (insert z roots) t) : t = z ∨ t ∈ kernel ∨ IsTable s roots t := by
    obtain ⟨r, rfl | hr, p, hp, hpt⟩ := ht
    · by_cases hown : Owned userIndex p
      · exact .inl (hz.tableAt_user hown hpt).2
      · exact .inr (.inl (hreach hp hown hpt))
    · exact .inr (.inr ⟨r, hr, p, hp, hpt⟩)
  refine ⟨⟨⟨?_, ?_, ?_⟩, ?_, h.tables.shared_kept, ?_⟩, h.kernelHalf, ?_, ?_, ?_⟩
  · rintro r (rfl | hr) r' (rfl | hr') p q t hp hq hpo hqo hpt hqt
    · exact ⟨rfl, (hz.tableAt_user hpo hpt).1.trans (hz.tableAt_user hqo hqt).1.symm⟩
    · obtain ⟨_, rfl⟩ := hz.tableAt_user hpo hpt
      exact absurd ⟨r', hr', q, hq, hqt⟩ htable
    · obtain ⟨_, rfl⟩ := hz.tableAt_user hqo hqt
      exact absurd ⟨r, hr, p, hp, hpt⟩ htable
    · exact h.tables.forest.unique r hr r' hr' p q t hp hq hpo hqo hpt hqt
  · rintro r (rfl | hr) p t hp hown ht
    · exact hreach hp hown ht
    · exact h.tables.forest.shared_of_walk r hr p t hp hown ht
  · rintro r (rfl | hr) p t hp hown ht
    · rwa [(hz.tableAt_user hown ht).2]
    · exact h.tables.forest.not_shared r hr p t hp hown ht
  · intro t ht
    rcases hisTable ht with rfl | ht | ht
    · exact hused
    · exact h.tables.shared_kept t ht
    · exact h.tables.kept t ht
  · rintro r (rfl | hr) p i hp hlen hpresent
    · by_cases hown : Owned userIndex (p ++ [i])
      · rw [hz.entryOf_user hown, hasFlag_zero] at hpresent
        cases hpresent
      · rw [hz.entryOf_kernel hp hown] at hpresent ⊢
        exact h.kernelHalf.upper p i hp hown hlen hpresent
    · exact h.tables.upper r hr p i hp hlen hpresent
  · rintro r (rfl | hr) n hn hpresent
    · rw [directory, hz.entryOf_user (owned_ptPath (p := []) hn), hasFlag_zero] at hpresent
      cases hpresent
    · exact h.small r hr n hn hpresent
  · rintro r (rfl | hr) n hn hpresent
    · rw [hz.leaf_eq_zero hn, hasFlag_zero] at hpresent
      cases hpresent
    · exact h.plain r hr n hn hpresent
  · rintro r (rfl | hr) n hn hpresent
    · rw [hz.leaf_eq_zero hn, hasFlag_zero] at hpresent
      cases hpresent
    · have hframe := h.data r hr n hn hpresent
      refine ⟨fun ht => ?_, hframe.2⟩
      rcases hisTable ht with heq | ht | ht
      · exact hdata r hr n hn hpresent heq
      · exact hframe.2 ht
      · exact hframe.1 ht

theorem emptySpace_newSpace (hne : s.kernelPml4 ≠ z) : EmptySpace (newSpace s z) z := by
  refine ⟨fun i hi => ?_, fun i hlo hhi => ?_⟩
  · simp [newSpace, show ¬ 256 ≤ i by omega]
  · simp [newSpace, hlo, hhi, update_of_ne hne]

theorem UserSpaces.create (h : UserSpaces s roots kernel) (hheld : Held s roots) (hz : Free s.pmm z) :
    UserSpaces (newSpace s z) (insert z roots) kernel ∧
      (∀ r ∈ roots, ∀ n, leaf (newSpace s z) r n = leaf s r n) ∧ EmptySpace (newSpace s z) z := by
  have hmem {f : ℕ} (hf : ¬ Free s.pmm f) : (newSpace s z).mem f = s.mem f :=
    update_of_ne (hz.ne hf) _ _
  have htables (f : ℕ) (hf : IsTable s roots f) := hmem (h.tables.kept f hf)
  have hkernel (f : ℕ) (hf : f ∈ kernel) := hmem (h.tables.shared_kept f hf)
  have hsame : UserSpaces (newSpace s z) roots kernel := h.of_frames htables hkernel rfl fun f hf =>
    not_free_takeFrame (h.tables.used hf)
  have hleaf (r : ℕ) (hr : r ∈ roots) (n : ℕ) : leaf (newSpace s z) r n = leaf s r n :=
    leaf_of_frames htables hr
  have hempty := emptySpace_newSpace (hz.ne (h.tables.shared_kept _ h.kernelHalf.root))
  refine ⟨hsame.join hempty ?_ ?_ not_free_takeFrame_self ?_, hleaf, hempty⟩
  · rw [isTable_of_frames htables]
    exact fun ht => h.tables.kept z ht hz
  · exact fun hmem => h.tables.shared_kept z hmem hz
  · intro r hr n hn hpresent
    rw [hleaf r hr] at hpresent ⊢
    exact hz.ne (hheld r hr n hn hpresent)

end

/-! ## Destroying an address space -/

section

variable {s : Machine} {roots roots' kernel : Set ℕ} {r t pt pd pdpt i j k : ℕ} {m : Pmm} {D : ℕ → Pmm → Prop}

structure DestroyInvariant (s : Machine) (r : ℕ) (D : ℕ → Pmm → Prop) : Prop where
  skip : ∀ n m, D n m → n < userPages → hasFlag (leaf s r n) ptePresent = false → D (n + 1) m
  page : ∀ n m, D n m → n < userPages → hasFlag (leaf s r n) ptePresent = true →
    D (n + 1) (pmmFreeFrame (tableOf (leaf s r n) * pageSize) m)
  table : ∀ n m t, D n m → OwnTable s userIndex {r} t → D n (pmmFreeFrame (t * pageSize) m)

section Loops

variable (h : UserSpaces s roots kernel) (hr : r ∈ roots) (hD : DestroyInvariant s r D) (hi : i < 256)

include hD hi

theorem DestroyInvariant.releasePages (hj : j < 512) (hk : k < 512)
    (ht : tableAt s r [i, j, k] = some pt) (hm : D (pageNum i j k 0) m) :
    D (pageNum i j (k + 1) 0) (releasePages s.mem pt m) := by
  rw [pageNum_table]
  refine foldl_range_invariant (fun l m => D (pageNum i j k l) m) hm fun l hl m hm => ?_
  have hn := pageNum_lt hi hj hk hl
  simp only
  rw [pageNum_succ, ← leaf_pageNum hi hj hk hl ht, pteAddr_eq]
  split_ifs with hpresent
  · exact hD.page _ m hm hn hpresent
  · exact hD.skip _ m hm hn (Bool.eq_false_iff.mpr hpresent)

theorem DestroyInvariant.release_table {p : List ℕ} {n : ℕ} (hp : TablePath (i :: p))
    (ht : tableAt s r (i :: p) = some t) (hm : D n m) : D n (pmmFreeFrame (t * pageSize) m) :=
  hD.table _ m t hm ⟨r, rfl, i :: p, hp, by simpa [Owned, userIndex] using hi, ht⟩

include h hr

theorem DestroyInvariant.releaseDirectory (hj : j < 512) (ht : tableAt s r [i, j] = some pd)
    (hm : D (pageNum i j 0 0) m) : D (pageNum i (j + 1) 0 0) (releaseDirectory s.mem pd m) := by
  rw [pageNum_directory]
  refine foldl_range_invariant (fun k m => D (pageNum i j k 0) m) hm fun k hk m hm => ?_
  cases hpresent : hasFlag (s.mem pd k) ptePresent with
  | false =>
    simp only [hpresent, Bool.not_false, if_true]
    exact skip_table (fun n => hD.skip n m) hi hj hk ht hpresent hm
  | true =>
    obtain ⟨hsmall, hpt⟩ := h.tableAt_table hi hr hj hk ht hpresent
    have hpath : TablePath [i, j, k] := ⟨by simp, by simp; omega⟩
    simp only [hpresent, hsmall, Bool.not_true, Bool.false_eq_true, if_false, pteAddr_eq]
    exact hD.release_table hi hpath hpt (hD.releasePages hi hj hk hpt hm)

theorem DestroyInvariant.releasePointers (ht : tableAt s r [i] = some pdpt)
    (hm : D (pageNum i 0 0 0) m) : D (pageNum (i + 1) 0 0 0) (releasePointers s.mem pdpt m) := by
  rw [pageNum_pointers]
  refine foldl_range_invariant (fun j m => D (pageNum i j 0 0) m) hm fun j hj m hm => ?_
  cases hpresent : hasFlag (s.mem pdpt j) ptePresent with
  | false =>
    simp only [hpresent, Bool.not_false, if_true]
    exact skip_directory (fun n => hD.skip n m) hi hj ht hpresent hm
  | true =>
    have hpath : TablePath [i, j] := ⟨by simp, by simp; omega⟩
    have hpd := h.tables.tableAt_concat (p := [i]) hr hpath (by simp) ht hpresent
    simp only [hpresent, Bool.not_true, Bool.false_eq_true, if_false, pteAddr_eq]
    exact hD.release_table hi hpath hpd (hD.releaseDirectory h hr hi hj hpd hm)

end Loops

theorem IsTable.mono (h : IsTable s roots' t) (hsub : roots' ⊆ roots) : IsTable s roots t := by
  obtain ⟨r, hr, p, hp, hpt⟩ := h
  exact ⟨r, hsub hr, p, hp, hpt⟩

theorem UserSpaces.subset (h : UserSpaces s roots kernel) (hsub : roots' ⊆ roots) :
    UserSpaces s roots' kernel := by
  exact ⟨⟨h.tables.forest.subset hsub, fun t ht => h.tables.kept t (ht.mono hsub), h.tables.shared_kept,
    fun r hr => h.tables.upper r (hsub hr)⟩, h.kernelHalf, fun r hr => h.small r (hsub hr),
    fun r hr => h.plain r (hsub hr),
    fun r hr n hn hpresent => ⟨fun ht => (h.data r (hsub hr) n hn hpresent).1 (ht.mono hsub),
      (h.data r (hsub hr) n hn hpresent).2⟩⟩

section

variable (h : UserSpaces s roots kernel) (hr : r ∈ roots)
include h hr

theorem destroy_induction (hD : DestroyInvariant s r D) (hm : D 0 s.pmm) : D userPages (vmmDestroyAddressSpace r s).pmm := by
  rw [show userPages = pageNum 256 0 0 0 from rfl]
  refine hD.table _ _ r ?_ ⟨r, rfl, [], .nil, by simp [Owned], rfl⟩
  refine foldl_range_invariant (fun i m => D (pageNum i 0 0 0) m) hm fun i hi m hm => ?_
  cases hpresent : hasFlag (s.mem r i) ptePresent with
  | false =>
    simp only [hpresent, Bool.not_false, if_true]
    exact skip_pointers (fun n => hD.skip n m) hi hpresent hm
  | true =>
    have hpath : TablePath [i] := ⟨by simp, by simp; omega⟩
    have hpdpt := h.tables.tableAt_concat (p := []) hr hpath (by simp) rfl hpresent
    simp only [hpresent, Bool.not_true, Bool.false_eq_true, if_false, pteAddr_eq]
    exact hD.release_table hi hpath hpdpt (hD.releasePointers h hr hi hpdpt hm)

theorem UserSpaces.own_not_other (ht : OwnTable s userIndex {r} t) : ¬ IsTable s (roots \ {r}) t ∧ t ∉ kernel := by
  obtain ⟨_, rfl, p, hp, hown, hpt⟩ := ht
  have hkernel := h.tables.forest.not_shared _ hr p t hp hown hpt
  refine ⟨?_, hkernel⟩
  rintro ⟨r', ⟨hr', hne⟩, q, hq, hqt⟩
  by_cases hqown : Owned userIndex q
  · exact hne (h.tables.forest.unique r' hr' _ hr q p t hq hp hqown hown hqt hpt).1
  · exact hkernel (h.tables.forest.shared_of_walk r' hr' q t hq hqown hqt)

theorem UserSpaces.destroy : UserSpaces (vmmDestroyAddressSpace r s) (roots \ {r}) kernel := by
  have hsub : roots \ {r} ⊆ roots := fun _ hx => hx.1
  have hinv : DestroyInvariant s r fun _ m => ∀ t, IsTable s (roots \ {r}) t ∨ t ∈ kernel → ¬ Free m t := {
    skip := fun _ _ hm _ _ => hm
    page := fun n m hm hn hpresent t ht => by
      refine not_free_pmmFreeFrame ?_ (hm t ht)
      rintro rfl
      have hdata := h.data r hr n hn hpresent
      exact ht.elim (fun ht => hdata.1 (ht.mono hsub)) hdata.2
    table := fun n m t hm ht t' ht' => by
      refine not_free_pmmFreeFrame ?_ (hm t' ht')
      rintro rfl
      have hother := h.own_not_other hr ht
      exact ht'.elim hother.1 hother.2 }
  have hend := destroy_induction h hr hinv fun t ht =>
    ht.elim (fun ht => h.tables.kept t (ht.mono hsub)) (h.tables.shared_kept t)
  exact (h.subset hsub).of_frames (fun _ _ => rfl) (fun _ _ => rfl) rfl hend

end

end

end AetherOs.Paging
