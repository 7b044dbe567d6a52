import AetherOs.Paging.CowState

/-! # The frames that are given back -/

namespace AetherOs.Paging

open Base.Radix List

variable {s : Machine} {roots kernel : Set ℕ} {m : Pmm} {r f g t i j k l n : ℕ} {p : List ℕ}

/-! ## Dropping references one after the other -/

def freeAll (frames : List ℕ) (m : Pmm) : Pmm := frames.foldl (fun m f => pmmFreeFrame (f * pageSize) m) m

theorem free_pmmFreeFrame : Free (pmmFreeFrame (f * pageSize) m) g ↔
    Free m g ∨ (g = f ∧ f < maxFrames ∧ (m.refcounts f).toNat ≤ 1) := by
  have hone : 1 < m.refcounts f ↔ ¬ (m.refcounts f).toNat ≤ 1 := by
    rw [BitVec.lt_def, Nat.not_le]
    rfl
  by_cases hgf : g = f
  · subst hgf
    simp only [pmmFreeFrame, frame_div]
    split_ifs with hlt hbit hmany
    · exact ⟨.inl, fun h => h.elim id fun h => absurd h.2.1 (by omega)⟩
    · refine iff_of_true ?_ (.inl ?_) <;> exact ⟨by omega, by simpa using hbit⟩
    · refine ⟨.inl, fun h => h.elim id fun h => absurd h.2.2 (hone.mp hmany)⟩
    · refine iff_of_true ⟨by omega, ?_⟩ (.inr ⟨trivial, by omega, not_not.mp fun h => hmany (hone.mpr h)⟩)
      exact pmmTestBit_pmmClearBit.trans (by simp)
  · rw [Free, Free, pmmTestBit_pmmFreeFrame hgf]
    exact ⟨.inl, fun h => h.elim id fun h => absurd h.1 hgf⟩

theorem freeAll_of_notMem {frames : List ℕ} (h : g ∉ frames) :
    (Free (freeAll frames m) g ↔ Free m g) ∧ (freeAll frames m).refcounts g = m.refcounts g := by
  induction frames generalizing m with
  | nil => exact ⟨Iff.rfl, rfl⟩
  | cons f frames ih =>
    obtain ⟨hne, hrest⟩ := not_or.mp (mem_cons.not.mp h)
    obtain ⟨hfree, hcount⟩ := ih hrest (m := pmmFreeFrame (f * pageSize) m)
    refine ⟨hfree.trans ?_, hcount.trans (refcounts_pmmFreeFrame hne)⟩
    rw [free_pmmFreeFrame]
    exact ⟨fun h => h.elim id fun h => absurd h.1 hne, .inl⟩

theorem free_freeAll {frames : List ℕ} (hnodup : frames.Nodup) : Free (freeAll frames m) g ↔
    Free m g ∨ (g ∈ frames ∧ g < maxFrames ∧ (m.refcounts g).toNat ≤ 1) := by
  induction frames generalizing m with
  | nil => simp [freeAll]
  | cons f frames ih =>
    obtain ⟨hnot, hrest⟩ := nodup_cons.mp hnodup
    change Free (freeAll frames (pmmFreeFrame (f * pageSize) m)) g ↔ _
    rw [ih hrest, free_pmmFreeFrame, mem_cons]
    by_cases hgf : g = f
    · subst hgf
      simp only [hnot, false_and, or_false, true_and]
    · simp only [hgf, false_and, or_false, false_or, refcounts_pmmFreeFrame hgf]

theorem freeAll_shared {frames : List ℕ} (hnodup : frames.Nodup) (hmem : g ∈ frames) (hlt : g < maxFrames)
    (hused : ¬ Free m g) (hmany : 1 < (m.refcounts g).toNat) :
    ¬ Free (freeAll frames m) g ∧ ((freeAll frames m).refcounts g).toNat = (m.refcounts g).toNat - 1 := by
  refine ⟨fun hfree => ?_, ?_⟩
  · rcases (free_freeAll hnodup).mp hfree with hfree | ⟨-, -, hone⟩
    · exact hused hfree
    · exact absurd hone (Nat.not_le.mpr hmany)
  induction frames generalizing m with
  | nil => cases hmem
  | cons f frames ih =>
    obtain ⟨hnot, hrest⟩ := nodup_cons.mp hnodup
    rcases mem_cons.mp hmem with rfl | hmem
    · change ((freeAll frames (pmmFreeFrame (g * pageSize) m)).refcounts g).toNat = _
      rw [(freeAll_of_notMem hnot).2, (pmmFreeFrame_shared hlt hused hmany).2]
    · have hgf : g ≠ f := fun hgf => hnot (hgf ▸ hmem)
      have hcount := refcounts_pmmFreeFrame (m := m) hgf
      rw [← hcount] at hmany ⊢
      exact ih hrest hmem (not_free_pmmFreeFrame hgf hused) hmany

/-! ## The list of a destroyed address space -/

def releases (s : Machine) (r : ℕ) : List (List ℕ × ℕ) :=
  (List.range 256).flatMap (visitEntry child s.mem (postorder child s.mem 512 3) [] r) ++ [([], r)]

def releasedFrames (s : Machine) (r : ℕ) : List ℕ := (releases s r).map Prod.snd

theorem foldl_range_eq_freeAll {F : Pmm → ℕ → Pmm} {G : ℕ → List (List ℕ × ℕ)}
    (h : ∀ i < n, ∀ m, F m i = freeAll ((G i).map Prod.snd) m) :
    (List.range n).foldl F m = freeAll (((List.range n).flatMap G).map Prod.snd) m := by
  rw [map_flatMap, freeAll, foldl_flatMap]
  exact foldl_ext _ _ _ fun m i hi => h i (mem_range.mp hi) m

theorem freeAll_visitEntry {below : List ℕ → ℕ → List (List ℕ × ℕ)} (m' : Pmm)
    (hplain : hasFlag (s.mem t i) ptePresent → hasFlag (s.mem t i) pteHuge = false)
    (hbelow : hasFlag (s.mem t i) ptePresent →
      m' = freeAll ((below (p ++ [i]) (tableOf (s.mem t i))).map Prod.snd) m) :
    freeAll ((visitEntry child s.mem below p t i).map Prod.snd) m =
      if hasFlag (s.mem t i) ptePresent then pmmFreeFrame (pteAddr (s.mem t i)) m' else m := by
  rw [visitEntry]
  cases hpresent : hasFlag (s.mem t i) ptePresent with
  | false =>
    rw [child_eq_none_of_not_present hpresent]
    rfl
  | true =>
    rw [child_eq_some.mpr ⟨hpresent, hplain hpresent, rfl⟩, hbelow hpresent, pteAddr_eq]
    simp [freeAll]

section Loops

variable (h : UserSpaces s roots kernel) (hr : r ∈ roots) (hi : i < 256)

include h hr hi

theorem releasePages_eq (hj : j < 512) (hk : k < 512) (ht : tableAt s r [i, j, k] = some t) :
    releasePages s.mem t m = freeAll ((postorder child s.mem 512 1 p t).map Prod.snd) m := by
  refine foldl_range_eq_freeAll fun l hl m => ?_
  have hleaf := leaf_pageNum hi hj hk hl ht
  have hn := pageNum_lt hi hj hk hl
  rw [freeAll_visitEntry m (hleaf ▸ h.plain r hr _ hn) fun _ => rfl]

theorem releaseDirectory_eq (hj : j < 512) (ht : tableAt s r [i, j] = some t) :
    releaseDirectory s.mem t m = freeAll ((postorder child s.mem 512 2 p t).map Prod.snd) m := by
  refine foldl_range_eq_freeAll fun k hk m => ?_
  rw [freeAll_visitEntry _ (fun hpresent => (h.tableAt_table hi hr hj hk ht hpresent).1) fun hpresent =>
    releasePages_eq h hr hi hj hk (h.tableAt_table hi hr hj hk ht hpresent).2]
  cases hpresent : hasFlag (s.mem t k) ptePresent with
  | false => simp [hpresent]
  | true => simp [hpresent, (h.tableAt_table hi hr hj hk ht hpresent).1]

theorem releasePointers_eq (ht : tableAt s r [i] = some t) :
    releasePointers s.mem t m = freeAll ((postorder child s.mem 512 3 p t).map Prod.snd) m := by
  refine foldl_range_eq_freeAll fun j hj m => ?_
  have hpath : TablePath [i, j] := ⟨by simp, by simp; omega⟩
  have hentry : entryOf s r [i] j = s.mem t j := entryAt_of_walk ht
  rw [freeAll_visitEntry _ (hentry ▸ h.tables.upper r hr [i] j hpath (by simp)) fun hpresent =>
    releaseDirectory_eq h hr hi hj (h.tables.tableAt_concat (p := [i]) hr hpath (by simp) ht hpresent)]
  cases hpresent : hasFlag (s.mem t j) ptePresent <;> simp [hpresent]

end Loops

theorem mem_releases {v : List ℕ × ℕ} : v ∈ releases s r ↔
    ValidPath 512 4 v.1 ∧ Owned userIndex v.1 ∧ walk child s.mem r v.1 = some v.2 := by
  rw [releases, mem_append, mem_flatMap, mem_singleton]
  constructor
  · rintro (⟨i, hi, hv⟩ | rfl)
    · obtain ⟨rest, hvalid, hpath, hwalk⟩ := mem_visitEntry_postorder.mp hv
      rw [nil_append] at hpath
      rw [hpath]
      have hi : i < 256 := mem_range.mp hi
      refine ⟨⟨Nat.succ_le_succ hvalid.length_le, ?_⟩, ?_, hwalk⟩
      · exact forall_mem_cons.mpr ⟨by omega, hvalid.index_lt⟩
      · simpa [Owned, userIndex] using hi
    · exact ⟨.nil, by simp [Owned], rfl⟩
  · rintro ⟨hvalid, hown, hwalk⟩
    obtain ⟨path, z⟩ := v
    cases path with
    | nil => exact .inr (congrArg (Prod.mk []) (Option.some.inj hwalk).symm)
    | cons i rest =>
      have hi : i < 256 := hown i rfl
      refine .inl ⟨i, mem_range.mpr hi, mem_visitEntry_postorder.mpr ⟨rest, ⟨?_, ?_⟩, rfl, hwalk⟩⟩
      · exact Nat.le_of_succ_le_succ hvalid.length_le
      · exact (forall_mem_cons.mp hvalid.index_lt).2

theorem nodup_releases_paths : ((releases s r).map Prod.fst).Nodup := by
  rw [releases, map_append, map_flatMap]
  refine List.Nodup.append ?_ (nodup_singleton _) ?_
  · rw [nodup_flatMap]
    exact ⟨fun i _ => nodup_visitEntry fun _ _ => nodup_postorder, nodup_range.imp fun hne => disjoint_visitEntry hne⟩
  · refine disjoint_singleton.mpr fun hmem => ?_
    obtain ⟨i, _, hi⟩ := mem_flatMap.mp hmem
    obtain ⟨v, hv, heq⟩ := mem_map.mp hi
    obtain ⟨rest, -, hpath, -⟩ := mem_visitEntry_postorder.mp hv
    rw [hpath] at heq
    cases heq

theorem path_of_length (hvalid : ValidPath 512 4 p) (hown : Owned userIndex p) (hlen : p.length = 4) :
    ∃ i j k l, p = [i, j, k, l] ∧ i < 256 ∧ j < 512 ∧ k < 512 ∧ l < 512 := by
  obtain ⟨i, j, k, l, rfl⟩ : ∃ i j k l, p = [i, j, k, l] := by
    match p, hlen with
    | [i, j, k, l], _ => exact ⟨i, j, k, l, rfl⟩
  have hlt := hvalid.index_lt
  simp only [mem_cons, not_mem_nil, or_false, forall_eq_or_imp, forall_eq] at hlt
  exact ⟨i, j, k, l, rfl, hown i rfl, hlt.2.1, hlt.2.2.1, hlt.2.2.2⟩

theorem exists_pageNum (hn : n < userPages) :
    ∃ i j k l, n = pageNum i j k l ∧ i < 256 ∧ j < 512 ∧ k < 512 ∧ l < 512 := by
  refine ⟨n / 2 ^ 27, n / 2 ^ 18 % 512, n / 2 ^ 9 % 512, n % 512, ?_⟩
  simp only [pageNum, userPages] at *
  omega

section

variable (h : UserSpaces s roots kernel) (hr : r ∈ roots)
include h hr

theorem vmmDestroyAddressSpace_eq : (vmmDestroyAddressSpace r s).pmm = freeAll (releasedFrames s r) s.pmm := by
  rw [releasedFrames, releases, map_append, freeAll, foldl_append]
  change pmmFreeFrame (r * pageSize) _ = pmmFreeFrame (r * pageSize) (freeAll _ s.pmm)
  refine congrArg _ (foldl_range_eq_freeAll fun i hi m => ?_)
  have hpath : TablePath [i] := ⟨by simp, by simp; omega⟩
  have hentry : entryOf s r [] i = s.mem r i := entryAt_of_walk rfl
  rw [freeAll_visitEntry _ (hentry ▸ h.tables.upper r hr [] i hpath (by simp)) fun hpresent =>
    releasePointers_eq h hr hi (h.tables.tableAt_concat (p := []) hr hpath (by simp) rfl hpresent)]
  cases hpresent : hasFlag (s.mem r i) ptePresent <;> simp [hpresent]

theorem walk_page (hi : i < 256) (hj : j < 512) (hk : k < 512)
    (hl : l < 512) : walk child s.mem r [i, j, k, l] = some f ↔ frameOf s r (pageNum i j k l) = some f := by
  rw [show [i, j, k, l] = [i, j, k] ++ [l] from rfl, walk_concat, frameOf_eq_some]
  cases ht : walk child s.mem r [i, j, k] with
  | none =>
    obtain ⟨hpath, hidx⟩ := index_pageNum hi hj hk hl
    have hzero : leaf s r (pageNum i j k l) = 0 := by
      rw [leaf, entryOf, entryAt, hpath, ht]
      rfl
    rw [hzero, hasFlag_zero]
    simp
  | some t =>
    have hn := pageNum_lt hi hj hk hl
    have hleaf := leaf_pageNum hi hj hk hl ht
    rw [Option.bind_some, ← hleaf, child_eq_some]
    exact ⟨fun hc => ⟨hn, hc.1, hc.2.2⟩, fun hf => ⟨hf.2.1, h.plain r hr _ hn hf.2.1, hf.2.2⟩⟩

theorem mem_releasedFrames :
    f ∈ releasedFrames s r ↔ OwnTable s userIndex {r} f ∨ ∃ n, frameOf s r n = some f := by
  rw [releasedFrames, mem_map]
  constructor
  · rintro ⟨v, hv, rfl⟩
    obtain ⟨hvalid, hown, hwalk⟩ := mem_releases.mp hv
    by_cases hlen : v.1.length = 4
    · obtain ⟨i, j, k, l, hp, hi, hj, hk, hl⟩ := path_of_length hvalid hown hlen
      rw [hp] at hwalk
      exact .inr ⟨pageNum i j k l, (walk_page h hr hi hj hk hl).mp hwalk⟩
    · have hle := hvalid.length_le
      exact .inl ⟨r, rfl, v.1, ⟨by omega, hvalid.index_lt⟩, hown, hwalk⟩
  · rintro (⟨_, rfl, p, hp, hown, ht⟩ | ⟨n, hn⟩)
    · exact ⟨(p, f), mem_releases.mpr ⟨⟨hp.length_le.trans (by decide), hp.index_lt⟩, hown, ht⟩, rfl⟩
    · obtain ⟨i, j, k, l, rfl, hi, hj, hk, hl⟩ := exists_pageNum (frameOf_eq_some.mp hn).1
      refine ⟨([i, j, k, l], f), mem_releases.mpr ⟨⟨le_rfl, ?_⟩, ?_, (walk_page h hr hi hj hk hl).mpr hn⟩, rfl⟩
      · simp only [mem_cons, not_mem_nil, or_false, forall_eq_or_imp, forall_eq]
        omega
      · simpa [Owned, userIndex] using hi

theorem nodup_releasedFrames (hapart : ∀ n n' d, frameOf s r n = some d → frameOf s r n' = some d → n = n') : (releasedFrames s r).Nodup := by
  refine (List.Nodup.of_map Prod.fst nodup_releases_paths).map_on fun v hv v' hv' heq => ?_
  obtain ⟨hvalid, hown, hwalk⟩ := mem_releases.mp hv
  obtain ⟨hvalid', hown', hwalk'⟩ := mem_releases.mp hv'
  rw [← heq] at hwalk'
  refine Prod.ext ?_ heq
  have hpage : ∀ {p q : List ℕ} {f : ℕ}, ValidPath 512 4 p → Owned userIndex p → p.length = 4 →
      walk child s.mem r p = some f → TablePath q → walk child s.mem r q = some f → False := by
    intro p q f hp hpown hlen hpf hq hqf
    obtain ⟨i, j, k, l, rfl, hi, hj, hk, hl⟩ := path_of_length hp hpown hlen
    obtain ⟨hn, hpresent, rfl⟩ := frameOf_eq_some.mp ((walk_page h hr hi hj hk hl).mp hpf)
    exact (h.data r hr _ hn hpresent).1 ⟨r, hr, q, hq, hqf⟩
  by_cases hlen : v.1.length = 4
  · by_cases hlen' : v'.1.length = 4
    · obtain ⟨i, j, k, l, hp, hi, hj, hk, hl⟩ := path_of_length hvalid hown hlen
      obtain ⟨i', j', k', l', hp', hi', hj', hk', hl'⟩ := path_of_length hvalid' hown' hlen'
      rw [hp] at hwalk ⊢
      rw [hp'] at hwalk' ⊢
      have hsame := hapart _ _ _ ((walk_page h hr hi hj hk hl).mp hwalk) ((walk_page h hr hi' hj' hk' hl').mp hwalk')
      simp only [pageNum] at hsame
      simp only [List.cons.injEq, and_true]
      omega
    · have hle := hvalid'.length_le
      exact (hpage hvalid hown hlen hwalk ⟨by omega, hvalid'.index_lt⟩ hwalk').elim
  · have hle := hvalid.length_le
    have hpath : TablePath v.1 := ⟨by omega, hvalid.index_lt⟩
    by_cases hlen' : v'.1.length = 4
    · exact (hpage hvalid' hown' hlen' hwalk' hpath hwalk).elim
    · have hle' := hvalid'.length_le
      exact (h.tables.forest.unique r hr r hr _ _ _ hpath ⟨by omega, hvalid'.index_lt⟩ hown hown' hwalk hwalk').2

end

end AetherOs.Paging
