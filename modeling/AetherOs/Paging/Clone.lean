import AetherOs.Paging.Create

/-! # Cloning an address space -/

namespace AetherOs.Paging

open Base Base.Radix Function

variable {s s' : Machine} {roots kernel : Set ℕ} {src dst r n pt i j k l : ℕ} {p : List ℕ}

theorem cloneVaddr_eq (hj : j < 512) (hk : k < 512) (hl : l < 512) :
    cloneVaddr i j k l = pageNum i j k l * pageSize := by
  have hk' : k <<< 21 ||| l <<< 12 = k <<< 21 + l <<< 12 :=
    (Nat.shiftLeft_add_eq_or_of_lt (by rw [Nat.shiftLeft_eq]; omega) k).symm
  have hj' : j <<< 30 ||| (k <<< 21 + l <<< 12) = j <<< 30 + (k <<< 21 + l <<< 12) :=
    (Nat.shiftLeft_add_eq_or_of_lt (by simp only [Nat.shiftLeft_eq]; omega) j).symm
  have hi' : i <<< 39 ||| (j <<< 30 + (k <<< 21 + l <<< 12)) = i <<< 39 + (j <<< 30 + (k <<< 21 + l <<< 12)) :=
    (Nat.shiftLeft_add_eq_or_of_lt (by simp only [Nat.shiftLeft_eq]; omega) i).symm
  rw [cloneVaddr, Nat.or_assoc, Nat.or_assoc, hk', hj', hi']
  simp only [Nat.shiftLeft_eq, pageNum, pageSize]
  omega

structure PageShared (roots kernel : Set ℕ) (src dst n : ℕ) (s s' : Machine) : Prop where
  spaces : UserSpaces s' roots kernel
  leaf_eq : ∀ r ∈ roots, ∀ m < userPages, leaf s' r m =
    if (r = src ∨ r = dst) ∧ m = n then cowEntry (leaf s src n) else leaf s r m
  walk_mono : ∀ r ∈ roots, ∀ p t, TablePath p → tableAt s r p = some t → tableAt s' r p = some t
  nodes : ∀ t, OwnTable s' userIndex roots t →
    OwnTable s userIndex roots t ∨ (Free s.pmm t ∧ physToVirt (t * pageSize) ≠ 0)
  memory : ∀ f, ¬ Free s.pmm f → ¬ IsTable s roots f → s'.mem f = s.mem f
  kept : ∀ f, ¬ Free s.pmm f → ¬ Free s'.pmm f
  refcounts : ∃ m, (∀ f, ¬ Free s.pmm f → m.refcounts f = s.pmm.refcounts f) ∧
    s'.pmm = pmmRefFrame (tableOf (leaf s src n) * pageSize) m
  kernel_eq : s'.kernelPml4 = s.kernelPml4

theorem clonePage_of_present (hi : i < 256) (hj : j < 512) (hk : k < 512) (hl : l < 512)
    (ht : tableAt s src [i, j, k] = some pt) (hn : pageNum i j k l = n)
    (hpresent : hasFlag (leaf s src n) ptePresent) :
    clonePage dst pt i j k s l =
      let e := leaf s src n
      let r := vmmMapPage dst (n * pageSize) (tableOf e * pageSize) (cowFlags e) s
      if r.1 ≠ 0 then .error r.2
      else
        let s := setEntry pt (ptIndex (n * pageSize)) (cowEntry e) r.2
        .ok { s with pmm := pmmRefFrame (tableOf e * pageSize) s.pmm } := by
  obtain ⟨hpath, hidx⟩ := index_pageNum hi hj hk hl
  have hvaddr := cloneVaddr_eq (i := i) hj hk hl
  rw [hn] at hpath hidx hvaddr
  have hleaf : s.mem pt l = leaf s src n := by
    rw [← hidx]
    exact (entryAt_of_walk (hpath ▸ ht)).symm
  simp only [clonePage, hleaf, hvaddr, hpresent, Bool.not_true, Bool.false_eq_true, if_false, pteAddr_eq, hidx]

section

variable (h : UserSpaces s roots kernel) (hheld : Held s roots) (hsrc : src ∈ roots) (hdst : dst ∈ roots)
include h hheld hsrc hdst

section

variable (hn : n < userPages) (hpresent : hasFlag (leaf s src n) ptePresent = true) (ht : tableAt s src (ptPath (n * pageSize)) = some pt)
include hn hpresent ht

theorem UserSpaces.storeChild {s₁ : Machine} {pt' : ℕ} (hext : Extends userIndex roots kernel s s₁)
    (ht' : tableAt s₁ dst (ptPath (n * pageSize)) = some pt') :
    let s₂ := setEntry pt' (ptIndex (n * pageSize)) (cowEntry (leaf s src n)) s₁
    UserSpaces s₂ roots kernel ∧ tableAt s₂ src (ptPath (n * pageSize)) = some pt := by
  have hsame := samePage_cowEntry (leaf s src n)
  have hdata := h.data src hsrc n hn hpresent
  have hspaces₁ := h.extends hheld hext
  refine ⟨hspaces₁.setLeaf hdst hn ht' fun _ => ?_, ?_⟩
  · rw [hsame.frame, hsame.huge]
    exact ⟨h.plain src hsrc n hn hpresent,
      not_isTable_of_extends hext (hheld src hsrc n hn hpresent) hdata, hdata.2⟩
  · rw [hspaces₁.tableAt_setLeaf hdst hn ht' hsrc (tablePath_ptPath _)]
    exact hext.walk_mono src hsrc _ pt (tablePath_ptPath _) ht

theorem UserSpaces.tableAt_stores {s₁ : Machine} {pt' : ℕ} (hext : Extends userIndex roots kernel s s₁)
    (ht' : tableAt s₁ dst (ptPath (n * pageSize)) = some pt') (hr : r ∈ roots) (hp : TablePath p) :
    let e := cowEntry (leaf s src n)
    tableAt (setEntry pt (ptIndex (n * pageSize)) e (setEntry pt' (ptIndex (n * pageSize)) e s₁)) r p =
      tableAt s₁ r p := by
  obtain ⟨hspaces₂, ht₂⟩ := h.storeChild hheld hsrc hdst hn hpresent ht hext ht'
  exact (hspaces₂.tableAt_setLeaf hsrc hn ht₂ hr hp).trans
    ((h.extends hheld hext).tableAt_setLeaf hdst hn ht' hr hp)

theorem pageShared_of_stores {s₁ : Machine} {pt' : ℕ} (hext : Extends userIndex roots kernel s s₁)
    (ht' : tableAt s₁ dst (ptPath (n * pageSize)) = some pt') :
    let e := cowEntry (leaf s src n)
    let s₂ := setEntry pt (ptIndex (n * pageSize)) e (setEntry pt' (ptIndex (n * pageSize)) e s₁)
    PageShared roots kernel src dst n s
      { s₂ with pmm := pmmRefFrame (tableOf (leaf s src n) * pageSize) s₂.pmm } := by
  intro e s₂
  have hsame := samePage_cowEntry (leaf s src n)
  have hdata := h.data src hsrc n hn hpresent
  have htable := not_isTable_of_extends hext (hheld src hsrc n hn hpresent) hdata
  have hplain : hasFlag e pteHuge = false := hsame.huge.trans (h.plain src hsrc n hn hpresent)
  have hframe : tableOf e = tableOf (leaf s src n) := hsame.frame
  have hspaces₁ := h.extends hheld hext
  obtain ⟨hspaces₁', ht₁⟩ := h.storeChild hheld hsrc hdst hn hpresent ht hext ht'
  have hspaces₂ : UserSpaces s₂ roots kernel := hspaces₁'.setLeaf hsrc hn ht₁ fun _ =>
    ⟨hplain, by rw [hspaces₁.isTable_setLeaf hdst hn ht', hframe]; exact htable, hframe ▸ hdata.2⟩
  have hfree {f : ℕ} (hf : ¬ Free s₁.pmm f) :
      ¬ Free (pmmRefFrame (tableOf (leaf s src n) * pageSize) s₁.pmm) f := by
    rwa [Free, pmmTestBit_pmmRefFrame]
  have hleaf (r : ℕ) (hr : r ∈ roots) (m : ℕ) (hm : m < userPages) :
      leaf s₂ r m = if (r = src ∨ r = dst) ∧ m = n then e else leaf s r m := by
    rw [hspaces₁'.leaf_setLeaf hsrc hn ht₁ hr hm, hspaces₁.leaf_setLeaf hdst hn ht' hr hm,
      leaf_of_extends hext hr]
    by_cases hm' : m = n <;> by_cases hrs : r = src <;> by_cases hrd : r = dst <;> simp [hm', hrs, hrd, e]
  have hwalk (r : ℕ) (hr : r ∈ roots) (p : List ℕ) (hp : TablePath p) : tableAt s₂ r p = tableAt s₁ r p :=
    h.tableAt_stores hheld hsrc hdst hn hpresent ht hext ht' hr hp
  refine ⟨?_, hleaf, fun r hr p t hp hpt => ?_, ?_, fun f hf hnot => ?_, fun f hf => hfree (hext.kept f hf),
    ⟨s₁.pmm, hext.refcounts, rfl⟩, hext.kernel⟩
  · refine hspaces₂.of_frames (fun _ _ => rfl) (fun _ _ => rfl) rfl fun f hf => ?_
    exact hfree (hspaces₂.tables.used hf)
  · exact (hwalk r hr p hp).trans (hext.walk_mono r hr p t hp hpt)
  · rintro t ⟨r, hr, p, hp, hown, hpt⟩
    have hnode : OwnTable s₁ userIndex roots t := ⟨r, hr, p, hp, hown, (hwalk r hr p hp).symm.trans hpt⟩
    rcases hext.nodes t hnode with hold | hfree
    · exact .inl hold
    · exact (hext.pointers t hnode).imp_right fun hptr => ⟨hfree, hptr⟩
  · have hpt : f ≠ pt := by
      rintro rfl
      exact hnot ⟨src, hsrc, _, tablePath_ptPath _, ht⟩
    have hpt' : f ≠ pt' := by
      rintro rfl
      have hown := owned_ptPath (p := []) hn
      rcases hext.nodes f ⟨dst, hdst, _, tablePath_ptPath _, by simpa using hown, ht'⟩ with ht' | hfree
      · exact hnot ht'.isTable
      · exact hf hfree
    change update _ pt _ f = _
    rw [update_of_ne hpt]
    change update _ pt' _ f = _
    rw [update_of_ne hpt']
    exact hext.memory f hf fun hown => hnot hown.isTable

end

theorem clonePage_ends (hi : i < 256) (hj : j < 512)
    (hk : k < 512) (hl : l < 512) (ht : tableAt s src [i, j, k] = some pt)
    (hpresent : hasFlag (leaf s src (pageNum i j k l)) ptePresent) :
    Ends (PageShared roots kernel src dst (pageNum i j k l) s) (Extends userIndex roots kernel s)
      (clonePage dst pt i j k s l) := by
  obtain ⟨hpath, -⟩ := index_pageNum hi hj hk hl
  have hn := pageNum_lt hi hj hk hl
  rw [clonePage_of_present hi hj hk hl ht rfl hpresent]
  generalize pageNum i j k l = n at *
  have ht' : tableAt s src (ptPath (n * pageSize)) = some pt := hpath ▸ ht
  have hown : userIndex (pml4Index (n * pageSize)) := by
    simpa [Owned, ptPath] using owned_ptPath (p := []) hn
  have hcases := vmmMapPage_cases h.tables hdst hown (tableOf (leaf s src n) * pageSize) (cowFlags (leaf s src n))
  have hplain := hasFlag_cowFlags_huge (h.plain src hsrc n hn hpresent)
  dsimp only
  generalize vmmMapPage dst (n * pageSize) (tableOf (leaf s src n) * pageSize) (cowFlags (leaf s src n)) s = res at hcases ⊢
  cases hcases with
  | failed hext => exact hext
  | huge hhuge hext hpd => exact absurd hhuge (by rw [hplain]; decide)
  | small hsmall hext hpt =>
    rw [← pteAddr_eq, smallEntry_cowFlags hpresent, pteAddr_eq]
    exact pageShared_of_stores h hheld hsrc hdst hn hpresent ht' hext hpt

end

structure CloneInvariant (roots kernel : Set ℕ) (src dst : ℕ) (J : ℕ → Machine → Prop) : Prop where
  spaces : ∀ n s, J n s → UserSpaces s roots kernel
  held : ∀ n s, J n s → Held s roots
  skip : ∀ n s, J n s → n < userPages → hasFlag (leaf s src n) ptePresent = false → J (n + 1) s
  share : ∀ n s s', J n s → n < userPages → hasFlag (leaf s src n) ptePresent = true →
    PageShared roots kernel src dst n s s' → J (n + 1) s'

def TablesKept (r : ℕ) (s s' : Machine) : Prop :=
  ∀ p t, TablePath p → tableAt s r p = some t → tableAt s' r p = some t

theorem TablesKept.refl : TablesKept r s s := fun _ _ _ h => h

theorem TablesKept.trans {s'' : Machine} (h : TablesKept r s s') (h' : TablesKept r s' s'') :
    TablesKept r s s'' := fun p t hp hpt => h' p t hp (h p t hp hpt)

def Stopped (roots kernel : Set ℕ) (J : ℕ → Machine → Prop) (e : Machine) : Prop :=
  ∃ n t, J n t ∧ Extends userIndex roots kernel t e

structure CloneRounds (roots kernel : Set ℕ) (src dst : ℕ) (J : ℕ → Machine → Prop) (stop : Machine → Prop) :
    Prop where
  spaces : ∀ n s, J n s → UserSpaces s roots kernel
  skip : ∀ n s, J n s → n < userPages → hasFlag (leaf s src n) ptePresent = false → J (n + 1) s
  page : ∀ {i j k l pt s}, i < 256 → j < 512 → k < 512 → l < 512 → tableAt s src [i, j, k] = some pt →
    J (pageNum i j k l) s → hasFlag (leaf s src (pageNum i j k l)) ptePresent = true →
    Ends (fun s' => J (pageNum i j k l + 1) s' ∧ TablesKept src s s') stop (clonePage dst pt i j k s l)

theorem TablesKept.foldlM {f : Machine → ℕ → Except Machine Machine} (P : ℕ → Machine → Prop) {stop : Machine → Prop}
    {x : Except Machine Machine} (hs : P 0 s) (hloop : (List.range n).foldlM f s = x)
    (hround : ∀ l < n, ∀ t, P l t → TablesKept r s t →
      Ends (fun t' => P (l + 1) t' ∧ TablesKept r t t') stop (f t l)) :
    Ends (fun t => P n t ∧ TablesKept r s t) stop x := by
  refine foldlM_range_outcomes (fun l t => P l t ∧ TablesKept r s t) ⟨hs, .refl⟩ ?_ hloop
  rintro l hl t ⟨hP, hkept⟩
  exact (hround l hl t hP hkept).imp (fun t' h => ⟨h.1, hkept.trans h.2⟩) fun _ h => h

theorem CloneInvariant.rounds {J : ℕ → Machine → Prop} (hJ : CloneInvariant roots kernel src dst J)
    (hsrc : src ∈ roots) (hdst : dst ∈ roots) : CloneRounds roots kernel src dst J (Stopped roots kernel J) := by
  refine ⟨hJ.spaces, hJ.skip, fun {i j k l pt s} hi hj hk hl ht hs hpresent => ?_⟩
  refine (clonePage_ends (hJ.spaces _ s hs) (hJ.held _ s hs) hsrc hdst hi hj hk hl ht hpresent).imp
    (fun s' hshared => ?_) fun e hext => ⟨_, s, hs, hext⟩
  exact ⟨hJ.share _ s s' hs (pageNum_lt hi hj hk hl) hpresent hshared, hshared.walk_mono src hsrc⟩

section Loops

variable {J : ℕ → Machine → Prop} {stop : Machine → Prop} {pd pdpt : ℕ}
  (hJ : CloneRounds roots kernel src dst J stop) (hsrc : src ∈ roots) (hi : i < 256)

include hJ hi

theorem CloneRounds.clonePage (hj : j < 512) (hk : k < 512) (hl : l < 512)
    (ht : tableAt s src [i, j, k] = some pt) (hs : J (pageNum i j k l) s) :
    Ends (fun s' => J (pageNum i j k (l + 1)) s' ∧ TablesKept src s s') stop (clonePage dst pt i j k s l) := by
  have hleaf := leaf_pageNum hi hj hk hl ht
  rw [pageNum_succ]
  cases hpresent : hasFlag (leaf s src (pageNum i j k l)) ptePresent with
  | false =>
    simp only [Paging.clonePage, ← hleaf, hpresent, Bool.not_false, if_true]
    exact ⟨hJ.skip _ s hs (pageNum_lt hi hj hk hl) hpresent, .refl⟩
  | true => exact hJ.page hi hj hk hl ht hs hpresent

include hsrc

theorem CloneRounds.cloneTable (hj : j < 512) (hk : k < 512) (ht : tableAt s src [i, j] = some pd)
    (hs : J (pageNum i j k 0) s) :
    Ends (fun s' => J (pageNum i j (k + 1) 0) s' ∧ TablesKept src s s') stop
      (cloneTable dst pd i j s k) := by
  have hpath : TablePath [i, j, k] := ⟨by simp, by simp; omega⟩
  rw [Paging.cloneTable]
  cases hpresent : hasFlag (s.mem pd k) ptePresent with
  | false =>
    simp only [Bool.not_false, if_true]
    exact ⟨skip_table (fun n => hJ.skip n s) hi hj hk ht hpresent hs, .refl⟩
  | true =>
    obtain ⟨hsmall, hpt⟩ := (hJ.spaces _ s hs).tableAt_table hi hsrc hj hk ht hpresent
    simp only [hsmall, Bool.not_true, Bool.false_eq_true, if_false]
    rw [pageNum_table]
    generalize hloop : (List.range 512).foldlM (Paging.clonePage dst (tableOf (s.mem pd k)) i j k) s = x
    exact TablesKept.foldlM (fun l => J (pageNum i j k l)) hs hloop fun l hl t hJt hkept =>
      hJ.clonePage hi hj hk hl (hkept _ _ hpath hpt) hJt

theorem CloneRounds.cloneDirectory (hj : j < 512) (ht : tableAt s src [i] = some pdpt)
    (hs : J (pageNum i j 0 0) s) :
    Ends (fun s' => J (pageNum i (j + 1) 0 0) s' ∧ TablesKept src s s') stop
      (cloneDirectory dst pdpt i s j) := by
  have hpath : TablePath [i, j] := ⟨by simp, by simp; omega⟩
  rw [Paging.cloneDirectory]
  cases hpresent : hasFlag (s.mem pdpt j) ptePresent with
  | false =>
    simp only [Bool.not_false, if_true]
    exact ⟨skip_directory (fun n => hJ.skip n s) hi hj ht hpresent hs, .refl⟩
  | true =>
    simp only [Bool.not_true, Bool.false_eq_true, if_false]
    have hpd := (hJ.spaces _ s hs).tables.tableAt_concat (p := [i]) hsrc hpath (by simp) ht hpresent
    rw [pageNum_directory]
    generalize hloop : (List.range 512).foldlM (Paging.cloneTable dst (tableOf (s.mem pdpt j)) i j) s = x
    exact TablesKept.foldlM (fun k => J (pageNum i j k 0)) hs hloop fun k hk t hJt hkept =>
      hJ.cloneTable hsrc hi hj hk (hkept _ _ hpath hpd) hJt

theorem CloneRounds.clonePointers (hs : J (pageNum i 0 0 0) s) :
    Ends (J (pageNum (i + 1) 0 0 0)) stop (clonePointers dst src s i) := by
  have hpath : TablePath [i] := ⟨by simp, by simp; omega⟩
  rw [Paging.clonePointers]
  cases hpresent : hasFlag (s.mem src i) ptePresent with
  | false =>
    simp only [Bool.not_false, if_true]
    exact skip_pointers (fun n => hJ.skip n s) hi hpresent hs
  | true =>
    simp only [Bool.not_true, Bool.false_eq_true, if_false]
    have hpdpt := (hJ.spaces _ s hs).tables.tableAt_concat (p := []) hsrc hpath (by simp) rfl hpresent
    rw [pageNum_pointers]
    generalize hloop : (List.range 512).foldlM (Paging.cloneDirectory dst (tableOf (s.mem src i)) i) s = x
    refine (TablesKept.foldlM (r := src) (fun j => J (pageNum i j 0 0)) hs hloop fun j hj t hJt hkept => ?_).imp
      (fun _ h => h.1) fun _ h => h
    exact hJ.cloneDirectory hsrc hi hj (hkept _ _ hpath hpdpt) hJt

end Loops

theorem CloneRounds.loop_ends {J : ℕ → Machine → Prop} {stop : Machine → Prop} {x : Except Machine Machine}
    (hJ : CloneRounds roots kernel src dst J stop) (hsrc : src ∈ roots) (hs : J 0 s)
    (hclone : (List.range 256).foldlM (Paging.clonePointers dst src) s = x) : Ends (J userPages) stop x := by
  rw [show userPages = pageNum 256 0 0 0 from rfl]
  exact foldlM_range_outcomes (fun i t => J (pageNum i 0 0 0) t) hs
    (fun i hi t hJt => hJ.clonePointers hsrc hi hJt) hclone

theorem cloneLoop_ends {J : ℕ → Machine → Prop} {x : Except Machine Machine}
    (hJ : CloneInvariant roots kernel src dst J) (hsrc : src ∈ roots) (hdst : dst ∈ roots) (hs : J 0 s)
    (hclone : (List.range 256).foldlM (clonePointers dst src) s = x) :
    Ends (J userPages) (Stopped roots kernel J) x :=
  (hJ.rounds hsrc hdst).loop_ends hsrc hs hclone

theorem cloneLoop_induction {J : ℕ → Machine → Prop} (hJ : CloneInvariant roots kernel src dst J)
    (hsrc : src ∈ roots) (hdst : dst ∈ roots) (hs : J 0 s)
    (hclone : (List.range 256).foldlM (clonePointers dst src) s = .ok s') : J userPages s' :=
  cloneLoop_ends hJ hsrc hdst hs hclone

theorem vmmCloneAddressSpace_cases (h : UserSpaces s roots kernel)
    (hclone : vmmCloneAddressSpace src s = (some dst, s')) :
    Free s.pmm dst ∧ physToVirt (dst * pageSize) ≠ 0 ∧
      (List.range 256).foldlM (clonePointers dst src) (newSpace s dst) = .ok s' := by
  rw [vmmCloneAddressSpace] at hclone
  cases hcreate : vmmCreateAddressSpace s with
  | mk root s₁ =>
    rw [hcreate] at hclone
    cases root with
    | none => cases hclone
    | some z =>
      obtain ⟨hfree, hnull, rfl⟩ :=
        vmmCreateAddressSpace_eq (h.tables.shared_kept _ h.kernelHalf.root) hcreate
      cases hloop : (List.range 256).foldlM (clonePointers z src) (newSpace s z) with
      | error s₂ => simp [hloop] at hclone
      | ok s₂ =>
        simp only [hloop, Prod.mk.injEq, Option.some.injEq] at hclone
        obtain ⟨rfl, rfl⟩ := hclone
        exact ⟨hfree, hnull, hloop⟩

end AetherOs.Paging
