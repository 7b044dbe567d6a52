import AetherOs.Paging.Clone
import AetherOs.Paging.CowState

/-! # Cloning with shared pages -/

namespace AetherOs.Paging

open Base Base.Radix Finset

section

variable {s s' t : Machine} {live : Finset ℕ} {kernel : Set ℕ} {src dst b d n m : ℕ}

theorem frameOf_eq_none (h : n < userPages → hasFlag (leaf s src n) ptePresent = false) :
    frameOf s src n = none := by
  rw [frameOf, if_neg]
  rintro ⟨hn, hpresent⟩
  rw [h hn] at hpresent
  cases hpresent

theorem pageOf_eq_none : pageOf s src n = none ↔ frameOf s src n = none := by
  simp [pageOf]

theorem PageShared.frameOf_eq {roots : Set ℕ} {x : ℕ} {t' : Machine} (h : PageShared roots kernel src dst b t t')
    (hdst : dst ∈ roots) (hd : frameOf t src b = some d) (hx : x ∈ roots) :
    frameOf t' x m = if x = dst ∧ m = b then some d else frameOf t x m := by
  obtain ⟨hb, hpresent, hdframe⟩ := frameOf_eq_some.mp hd
  have hsame := samePage_cowEntry (leaf t src b)
  split
  · rename_i heq
    obtain ⟨rfl, rfl⟩ := heq
    rw [frameOf_eq_some, h.leaf_eq x hx m hb, if_pos ⟨.inr rfl, rfl⟩, hsame.present, hsame.frame]
    exact ⟨hb, hpresent, hdframe⟩
  · rename_i hnot
    refine frameOf_congr fun hm => ?_
    rw [h.leaf_eq x hx m hm]
    split_ifs with heq
    · obtain ⟨hx' | hx', hm'⟩ := heq
      · rw [hx', hm']
        exact hsame
      · exact absurd ⟨hx', hm'⟩ hnot
    · exact .refl _

structure Cloning (s : Machine) (live : Finset ℕ) (kernel : Set ℕ) (src dst b : ℕ) (t : Machine) : Prop where
  state : CowState t (insert dst live) kernel
  others : ∀ r ∈ live, ∀ n, pageOf t r n = pageOf s r n
  child : ∀ n, pageOf t dst n = if n < b then pageOf s src n else none

theorem CowState.frameOf_newSpace {r : ℕ} (h : CowState s live kernel) (hdst : Free s.pmm dst)
    (hr : r ∈ insert dst live) (hd : frameOf (newSpace s dst) r n = some d) :
    r ∈ live ∧ frameOf s r n = some d ∧ leaf (newSpace s dst) r n = leaf s r n ∧
      refs (newSpace s dst) d = refs s d := by
  obtain ⟨_, hleaf, hempty⟩ := h.spaces.create h.frames_held hdst
  rcases mem_insert.mp hr with rfl | hr
  · rw [hempty.frameOf_eq_none] at hd
    cases hd
  · have hold : frameOf s r n = some d := by
      rw [← hd]
      exact (frameOf_of_leaf fun _ => hleaf r hr n).symm
    exact ⟨hr, hold, hleaf r hr n,
      congrArg BitVec.toNat (refcounts_takeFrame hdst (h.held r hr n d hold).2)⟩

theorem CowState.cloning_newSpace (h : CowState s live kernel) (hdst : Free s.pmm dst) :
    Cloning s live kernel src dst 0 (newSpace s dst) := by
  obtain ⟨hspaces, hleaf, hempty⟩ := h.spaces.create h.frames_held hdst
  rw [← coe_insert] at hspaces
  have hframe (r : ℕ) (hr : r ∈ live) (n : ℕ) : frameOf (newSpace s dst) r n = frameOf s r n :=
    frameOf_of_leaf fun _ => hleaf r hr n
  have hnone := hempty.frameOf_eq_none
  refine ⟨⟨hspaces, fun r hr n d hd => ?_, ?_, fun r hr n d hd hw => ?_⟩, fun r hr n => ?_, fun n => ?_⟩
  · obtain ⟨hr, hold, -⟩ := h.frameOf_newSpace hdst hr hd
    exact ⟨(h.held r hr n d hold).1, not_free_takeFrame (h.held r hr n d hold).2⟩
  · refine (h.counted.congr hframe fun r hr n d hd => ?_).join hnone
    have hnew := (hframe r hr n).trans hd
    exact (h.frameOf_newSpace hdst (mem_insert_of_mem hr) hnew).2.2.2
  · obtain ⟨hr, hold, hsame, hrefs⟩ := h.frameOf_newSpace hdst hr hd
    exact hrefs.trans (h.writable r hr n d hold (hsame ▸ hw))
  · refine pageOf_congr (hframe r hr n) fun d hd => Function.update_of_ne ?_ _ _
    rintro rfl
    exact (h.held r hr n d hd).2 hdst
  · rw [if_neg (by omega)]
    exact pageOf_eq_none.mpr (hnone n)

theorem Cloning.skip (h : Cloning s live kernel src dst b t) (hsrc : src ∈ live)
    (habsent : hasFlag (leaf t src b) ptePresent = false) : Cloning s live kernel src dst (b + 1) t := by
  refine { h with child := fun n => ?_ }
  rw [h.child]
  by_cases hn : n = b
  · subst hn
    rw [if_neg (by omega), if_pos (by omega), ← h.others src hsrc n]
    exact (pageOf_eq_none.mpr (frameOf_eq_none fun _ => habsent)).symm
  · simp only [show n < b + 1 ↔ n < b by omega]

theorem Cloning.share {t' : Machine} (h : Cloning s live kernel src dst b t) (hsrc : src ∈ live)
    (hdst : dst ∉ live) (hcard : live.card < 255) (hb : b < userPages)
    (hpresent : hasFlag (leaf t src b) ptePresent)
    (hshared : PageShared ↑(insert dst live) kernel src dst b t t') :
    Cloning s live kernel src dst (b + 1) t' := by
  have hstate := h.state
  have hsrc' : src ∈ insert dst live := mem_insert_of_mem hsrc
  have hdst' : dst ∈ insert dst live := mem_insert_self _ _
  have hne : src ≠ dst := by
    rintro rfl
    exact hdst hsrc
  obtain ⟨d, hd⟩ : ∃ d, frameOf t src b = some d := ⟨_, frameOf_eq_some.mpr ⟨hb, hpresent, rfl⟩⟩
  have hdframe := (frameOf_eq_some.mp hd).2.2
  obtain ⟨hdlt, hdused⟩ := hstate.held src hsrc' b d hd
  have hnone : frameOf t dst b = none := by
    rw [← pageOf_eq_none, h.child, if_neg (by omega)]
  have hsame := samePage_cowEntry (leaf t src b)
  have hframe (x : ℕ) (hx : x ∈ insert dst live) (m : ℕ) := hshared.frameOf_eq hdst' hd hx (m := m)
  have hcount : refs t d < 255 := by
    have hlt := hstate.counted.lt_card hsrc' hd hdst' (by simp [hnone])
    rw [card_insert_of_notMem hdst] at hlt
    omega
  have hrefs {x m f : ℕ} (hx : x ∈ insert dst live) (hf : frameOf t x m = some f) :
      refs t' f = if f = d then refs t f + 1 else refs t f := by
    obtain ⟨m', hm', hpmm⟩ := hshared.refcounts
    rw [hdframe] at hpmm
    have hd' : (m'.refcounts d).toNat < 255 := by rw [hm' d hdused]; exact hcount
    rw [refs, hpmm, refcounts_pmmRefFrame hdlt hd', hm' f (hstate.held x hx m f hf).2]
    rfl
  have hmem {x m f : ℕ} (hx : x ∈ insert dst live) (hf : frameOf t x m = some f) : t'.mem f = t.mem f :=
    hshared.memory f (hstate.held x hx m f hf).2 (hstate.not_table hx hf).1
  refine ⟨⟨hshared.spaces, fun x hx m f hf => ?_, ?_, fun x hx m f hf hw => ?_⟩, fun r hr m => ?_, fun m => ?_⟩
  · rw [hframe x hx] at hf
    split at hf
    · obtain rfl := Option.some.inj hf
      exact ⟨hdlt, hshared.kept d hdused⟩
    · exact ⟨(hstate.held x hx m f hf).1, hshared.kept f (hstate.held x hx m f hf).2⟩
  · exact hstate.counted.share hdst' hnone hsrc' hd hframe fun x hx m f hf => hrefs hx hf
  · have hm := (frameOf_eq_some.mp hf).1
    rw [hshared.leaf_eq x hx m hm] at hw
    split_ifs at hw with hnot
    · rw [hasFlag_cowEntry_writable] at hw
      cases hw
    · rw [hframe x hx, if_neg fun heq => hnot ⟨.inr heq.1, heq.2⟩] at hf
      have hone := hstate.writable x hx m f hf hw
      rw [hrefs hx hf, if_neg, hone]
      rintro rfl
      obtain ⟨hx', hm'⟩ := hstate.counted.backed.sole hx hf hone.le hsrc' hd
      exact hnot ⟨.inl hx'.symm, hm'.symm⟩
  · have hrdst : r ≠ dst := by
      rintro rfl
      exact hdst hr
    have hr' : r ∈ insert dst live := mem_insert_of_mem hr
    rw [← h.others r hr m]
    exact pageOf_congr (by rw [hframe r hr', if_neg fun heq => hrdst heq.1]) fun f hf => hmem hr' hf
  · by_cases hm : m = b
    · subst hm
      rw [if_pos (by omega), ← h.others src hsrc m, pageOf, pageOf, hframe dst hdst', if_pos ⟨rfl, rfl⟩, hd]
      exact congrArg some (hmem hsrc' hd)
    · have hkeep : pageOf t' dst m = pageOf t dst m :=
        pageOf_congr (by rw [hframe dst hdst', if_neg fun heq => hm heq.2]) fun f hf => hmem hdst' hf
      rw [hkeep, h.child]
      simp only [show m < b + 1 ↔ m < b by omega]

theorem CowState.clone (h : CowState s live kernel) (hsrc : src ∈ live) (hcard : live.card < 255)
    (hclone : vmmCloneAddressSpace src s = (some dst, s')) :
    CowState s' (insert dst live) kernel ∧ (∀ r ∈ live, ∀ n, pageOf s' r n = pageOf s r n) ∧
      dst ∉ live ∧ ∀ n, pageOf s' dst n = pageOf s src n := by
  obtain ⟨hfree, _, hloop⟩ := vmmCloneAddressSpace_cases h.spaces hclone
  have hdst : dst ∉ live := fun hmem =>
    h.spaces.tables.kept dst ⟨dst, hmem, [], .nil, rfl⟩ hfree
  have hinv : CloneInvariant ↑(insert dst live) kernel src dst (Cloning s live kernel src dst) := {
    spaces := fun n t ht => ht.state.spaces
    held := fun n t ht => ht.state.frames_held
    skip := fun n t ht _ habsent => ht.skip hsrc habsent
    share := fun n t t' ht hn hpresent hshared => ht.share hsrc hdst hcard hn hpresent hshared }
  have hend := cloneLoop_induction hinv (mem_insert_of_mem hsrc) (mem_insert_self _ _)
    (h.cloning_newSpace hfree) hloop
  refine ⟨hend.state, hend.others, hdst, fun n => ?_⟩
  rw [hend.child]
  split_ifs with hn
  · rfl
  · exact (pageOf_eq_none.mpr (frameOf_eq_none fun hlt => absurd hlt hn)).symm

end

/-! ## Address spaces as they are built -/

section

structure FreshSpaces (s : Machine) (live : Finset ℕ) (kernel : Set ℕ) : Prop where
  spaces : UserSpaces s live kernel
  taken : ∀ r ∈ live, ∀ n d, frameOf s r n = some d → d < maxFrames ∧ ¬ Free s.pmm d ∧ refs s d = 1
  apart : ∀ r ∈ live, ∀ r' ∈ live, ∀ n n' d, frameOf s r n = some d → frameOf s r' n' = some d →
    r = r' ∧ n = n'

variable {s s' : Machine} {live : Finset ℕ} {kernel : Set ℕ} {r z vaddr : ℕ} {flags : BitVec 64}

theorem FreshSpaces.cowState (h : FreshSpaces s live kernel) : CowState s live kernel := by
  refine ⟨h.spaces, fun r hr n d hd => ⟨(h.taken r hr n d hd).1, (h.taken r hr n d hd).2.1⟩, ⟨?_, ?_⟩,
    fun r hr n d hd _ => (h.taken r hr n d hd).2.2⟩
  · exact fun r hr r' hr' n n' d hd hd' => (h.apart r hr r' hr' n n' d hd hd').2
  · intro r hr n d hd
    have hholders : holders live (frameOf s) n d = {r} := by
      ext x
      simp only [holders, mem_filter, mem_singleton]
      refine ⟨fun hx => (h.apart x hx.1 r hr n n d hx.2 hd).1, ?_⟩
      rintro rfl
      exact ⟨hr, hd⟩
    rw [hholders, card_singleton]
    exact (h.taken r hr n d hd).2.2

theorem FreshSpaces.none (hkernel : KernelHalf s kernel) (hkept : ∀ t ∈ kernel, ¬ Free s.pmm t) :
    FreshSpaces s ∅ kernel := by
  refine ⟨⟨⟨⟨?_, ?_, ?_⟩, ?_, hkept, ?_⟩, hkernel, ?_, ?_, ?_⟩, ?_, ?_⟩ <;> simp [IsTable, Node]

theorem FreshSpaces.create (h : FreshSpaces s live kernel)
    (hcreate : vmmCreateAddressSpace s = (some z, s')) : FreshSpaces s' (insert z live) kernel := by
  have hstate := h.cowState
  obtain ⟨hz, _, rfl⟩ :=
    vmmCreateAddressSpace_eq (h.spaces.tables.shared_kept _ h.spaces.kernelHalf.root) hcreate
  have hcloning : Cloning s live kernel z z 0 (newSpace s z) := hstate.cloning_newSpace hz
  have hnew := hcloning.state
  refine ⟨hnew.spaces, fun r hr n d hd => ?_, fun r hr r' hr' n n' d hd hd' => ?_⟩
  · obtain ⟨hr', hold, _, hrefs⟩ := hstate.frameOf_newSpace hz hr hd
    exact ⟨(hnew.held r hr n d hd).1, (hnew.held r hr n d hd).2, hrefs.trans (h.taken r hr' n d hold).2.2⟩
  · obtain ⟨hr, hold, -⟩ := hstate.frameOf_newSpace hz hr hd
    obtain ⟨hr', hold', -⟩ := hstate.frameOf_newSpace hz hr' hd'
    exact h.apart r hr r' hr' n n' d hold hold'

theorem UserSpaces.frameOf_mapped {roots : Set ℕ} {n pt x m : ℕ} (h : UserSpaces s roots kernel) (hheld : Held s roots)
    (hext : Extends userIndex roots kernel s s') (hr : r ∈ roots) (hn : n < userPages)
    (ht : tableAt s' r (ptPath (n * pageSize)) = some pt) (hz : z < maxFrames) (hflags : FlagsOnly flags)
    (hx : x ∈ roots) :
    frameOf (setEntry pt (ptIndex (n * pageSize)) (smallEntry (z * pageSize) flags) s') x m =
      if x = r ∧ m = n then some z else frameOf s x m := by
  have hspaces' := h.extends hheld hext
  split_ifs with heq
  · rw [frameOf_eq_some, hspaces'.leaf_setLeaf hr hn ht hx (heq.2 ▸ hn), if_pos heq]
    exact ⟨heq.2 ▸ hn, smallEntry_frame hz hflags⟩
  · refine frameOf_congr fun hm => ?_
    rw [hspaces'.leaf_setLeaf hr hn ht hx hm, if_neg heq, leaf_of_extends hext hx]
    exact .refl _

theorem FreshSpaces.map (h : FreshSpaces s live kernel) (hr : r ∈ live)
    (hvaddr : vaddr < userPages * pageSize) (hz : Free s.pmm z) (hflags : SmallFlags flags)
    (hmap : vmmMapPage r vaddr (z * pageSize) flags { s with pmm := takeFrame z s.pmm } = (0, s')) :
    FreshSpaces s' live kernel := by
  have hn := page_lt hvaddr
  obtain ⟨hpath, hidx⟩ := ptPath_page vaddr
  have hspaces₁ : UserSpaces { s with pmm := takeFrame z s.pmm } live kernel :=
    h.spaces.of_frames (fun _ _ => rfl) (fun _ _ => rfl) rfl fun f hf =>
      not_free_takeFrame (h.spaces.tables.used hf)
  have hheld₁ : Held { s with pmm := takeFrame z s.pmm } live := fun x hx n hn hpresent =>
    not_free_takeFrame (h.cowState.frames_held x hx n hn hpresent)
  have hown : userIndex (pml4Index vaddr) := by
    have howned := owned_ptPath (p := []) hn
    rw [hpath] at howned
    simpa [Owned, ptPath] using howned
  have hcases := vmmMapPage_cases hspaces₁.tables hr hown (z * pageSize) flags
  rw [hmap] at hcases
  cases hcases with
  | huge hhuge => exact absurd hhuge (by rw [hflags.small]; decide)
  | @small s₂ pt _ hext ht =>
    obtain ⟨-, hframe⟩ := smallEntry_frame hz.1 hflags.only
    have hplain := (hasFlag_smallEntry_huge (z * pageSize) flags).trans hflags.small
    have hztable := not_isTable_of_extends hext not_free_takeFrame_self
      ⟨fun ht => h.spaces.tables.kept z ht hz, fun hk => h.spaces.tables.shared_kept z hk hz⟩
    have hzkernel : z ∉ kernel := fun hk => h.spaces.tables.shared_kept z hk hz
    have hspaces₂ := hspaces₁.extends hheld₁ hext
    rw [← hpath] at ht
    rw [← hidx]
    have hspaces₃ := hspaces₂.setLeaf hr hn ht fun _ => ⟨hplain, hframe.symm ▸ hztable, hframe.symm ▸ hzkernel⟩
    have hframeOf (x : ℕ) (hx : x ∈ live) (m : ℕ) :
        frameOf (setEntry pt (ptIndex (vaddr / pageSize * pageSize)) (smallEntry (z * pageSize) flags) s₂) x m =
          if x = r ∧ m = vaddr / pageSize then some z else frameOf s x m :=
      hspaces₁.frameOf_mapped hheld₁ hext hr hn ht hz.1 hflags.only hx
    refine ⟨hspaces₃, fun x hx m d hd => ?_, fun x hx y hy m m' d hd hd' => ?_⟩
    · rw [hframeOf x hx] at hd
      split at hd
      · obtain rfl := Option.some.inj hd
        refine ⟨hz.1, hext.kept z not_free_takeFrame_self, ?_⟩
        exact (congrArg BitVec.toNat (hext.refcounts z not_free_takeFrame_self)).trans (by simp [takeFrame])
      · obtain ⟨hlt, hused, hone⟩ := h.taken x hx m d hd
        refine ⟨hlt, hext.kept d (not_free_takeFrame hused), ?_⟩
        refine (congrArg BitVec.toNat (hext.refcounts d (not_free_takeFrame hused))).trans ?_
        exact (congrArg BitVec.toNat (refcounts_takeFrame hz hused)).trans hone
    · rw [hframeOf x hx] at hd
      rw [hframeOf y hy] at hd'
      split at hd <;> split at hd'
      · rename_i hxm hym
        exact ⟨hxm.1.trans hym.1.symm, hxm.2.trans hym.2.symm⟩
      · exact absurd (Option.some.inj hd).symm (hz.ne (h.taken y hy m' d hd').2.1)
      · exact absurd (Option.some.inj hd').symm (hz.ne (h.taken x hx m d hd).2.1)
      · exact h.apart x hx y hy m m' d hd hd'

def pageMachine (flags : BitVec 64) : Machine :=
  let s := (vmmCreateAddressSpace bareMachine).2
  (vmmMapPage 2 0x400000 (3 * pageSize) flags { s with pmm := takeFrame 3 s.pmm }).2

theorem kernelHalf_of_empty (hempty : ∀ t i, s.mem t i = 0) : KernelHalf s {s.kernelPml4} := by
  have hchild (t i : ℕ) : child (s.mem t i) = Option.none := by rw [hempty, child_zero]
  refine ⟨rfl, fun p t _ hown ht => ?_, fun p i _ _ _ hpresent => ?_⟩
  · cases p with
    | nil => simp [Owned] at hown
    | cons i p =>
      rw [tableAt, walk, hchild] at ht
      cases ht
  · obtain ⟨t, -, hentry⟩ := table_of_present hpresent
    rw [← hentry, hempty, hasFlag_zero] at hpresent
    cases hpresent

theorem kernelHalf_bareMachine : KernelHalf bareMachine {1} := kernelHalf_of_empty fun _ _ => rfl

theorem kept_bareMachine : ∀ t ∈ ({1} : Set ℕ), ¬ Free bareMachine.pmm t := by
  rintro _ rfl hfree
  exact absurd hfree.2 (by decide)

theorem freshSpaces_pageMachine {flags : BitVec 64} (hflags : SmallFlags flags)
    (hmap : (vmmMapPage 2 0x400000 (3 * pageSize) flags { (vmmCreateAddressSpace bareMachine).2 with
      pmm := takeFrame 3 (vmmCreateAddressSpace bareMachine).2.pmm }).1 = 0) :
    FreshSpaces (pageMachine flags) {2} {1} := by
  have hspace := (FreshSpaces.none kernelHalf_bareMachine kept_bareMachine).create
    (Prod.ext (by decide +kernel : (vmmCreateAddressSpace bareMachine).1 = some 2) rfl)
  exact hspace.map (mem_insert_self _ _) (by decide) ⟨by decide, by decide +kernel⟩ hflags
    (Prod.ext hmap rfl)

end

end AetherOs.Paging
