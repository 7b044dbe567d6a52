import AetherOs.Paging.CowClone
import AetherOs.Paging.FrameCount
import AetherOs.Paging.MapLaw

/-! # Address spaces next to frames that are set aside -/

namespace AetherOs.Paging

open Base Base.Radix Finset

structure ReservedState (s : Machine) (root : ℕ) (live : Finset ℕ) (kernel reserved : Set ℕ)
    (home : ℕ → ℕ → Prop) : Prop where
  root_eq : s.kernelPml4 = root
  spaces : UserSpaces s live kernel
  pointers : ∀ t, OwnTable s userIndex live t → physToVirt (t * pageSize) ≠ 0
  held : ∀ r ∈ live, ∀ n d, frameOf s r n = some d → d < maxFrames ∧ ¬ Free s.pmm d
  covered : Covered reserved live (frameOf s) (refs s)
  kept : ∀ d ∈ reserved, d < maxFrames ∧ ¬ Free s.pmm d ∧ 1 ≤ refs s d
  apart : ∀ d ∈ reserved, ¬ IsTable s live d ∧ d ∉ kernel
  placed : ∀ r ∈ live, ∀ n d, frameOf s r n = some d → d ∈ reserved → home d n

namespace ReservedState

variable {s s' : Machine} {live : Finset ℕ} {kernel reserved : Set ℕ} {home home' : ℕ → ℕ → Prop}
variable {root r n d pt t i : ℕ} {flags : BitVec 64}

section Steps

variable (h : ReservedState s root live kernel reserved home)

include h

theorem frames_held : Held s live := fun r hr n hn hpresent =>
  (h.held r hr n _ (frameOf_eq_some.mpr ⟨hn, hpresent, rfl⟩)).2

theorem not_table (hr : r ∈ live) (hd : frameOf s r n = some d) : ¬ IsTable s live d ∧ d ∉ kernel := by
  obtain ⟨hn, hpresent, rfl⟩ := frameOf_eq_some.mp hd
  exact h.spaces.data r hr n hn hpresent

theorem rehome (hhome : ∀ d ∈ reserved, ∀ n, home d n → home' d n) : ReservedState s root live kernel reserved home' :=
  { h with placed := fun r hr n d hd hmem => hhome d hmem n (h.placed r hr n d hd hmem) }

theorem of_pages (hroot : s'.kernelPml4 = s.kernelPml4) (hspaces : UserSpaces s' live kernel)
    (hframe : ∀ r ∈ live, ∀ n, frameOf s' r n = frameOf s r n)
    (hptr : ∀ t, OwnTable s' userIndex live t → physToVirt (t * pageSize) ≠ 0)
    (hkept : ∀ f, ¬ Free s.pmm f → ¬ Free s'.pmm f)
    (hrefs : ∀ f, ¬ Free s.pmm f → s'.pmm.refcounts f = s.pmm.refcounts f)
    (htable : ∀ d ∈ reserved, ¬ IsTable s' live d) : ReservedState s' root live kernel reserved home := by
  have hrefs' {f : ℕ} (hf : ¬ Free s.pmm f) : refs s' f = refs s f := congrArg BitVec.toNat (hrefs f hf)
  refine ⟨hroot.trans h.root_eq, hspaces, hptr, fun r hr n d hd => ?_, ?_, fun d hd => ?_, fun d hd => ⟨htable d hd, (h.apart d hd).2⟩,
    fun r hr n d hd => ?_⟩
  · obtain ⟨hlt, hused⟩ := h.held r hr n d ((hframe r hr n).symm.trans hd)
    exact ⟨hlt, hkept d hused⟩
  · exact h.covered.congr hframe fun r hr n d hd _ => (hrefs' (h.held r hr n d hd).2).ge
  · obtain ⟨hlt, hused, hone⟩ := h.kept d hd
    exact ⟨hlt, hkept d hused, (hrefs' hused).symm ▸ hone⟩
  · exact h.placed r hr n d ((hframe r hr n).symm.trans hd)

theorem of_frames (s' : Machine) (hmem : ∀ f, IsTable s live f ∨ f ∈ kernel → s'.mem f = s.mem f)
    (hroot : s'.kernelPml4 = s.kernelPml4) (hkept : ∀ f, ¬ Free s.pmm f → ¬ Free s'.pmm f)
    (hrefs : ∀ f, ¬ Free s.pmm f → s'.pmm.refcounts f = s.pmm.refcounts f) :
    ReservedState s' root live kernel reserved home ∧ ∀ r ∈ live, ∀ n, frameOf s' r n = frameOf s r n := by
  have htables (f : ℕ) (hf : IsTable s live f) : s'.mem f = s.mem f := hmem f (.inl hf)
  have hframe (r : ℕ) (hr : r ∈ live) (n : ℕ) : frameOf s' r n = frameOf s r n :=
    frameOf_of_leaf fun _ => leaf_of_frames htables hr
  refine ⟨h.of_pages hroot ?_ hframe ?_ hkept hrefs fun d hd => ?_, hframe⟩
  · exact h.spaces.of_frames htables (fun f hf => hmem f (.inr hf)) hroot fun f hf =>
      hkept f (h.spaces.tables.used hf)
  · exact fun t ht => h.pointers t ((ownTable_of_frames htables).mp ht)
  · rw [isTable_of_frames htables]
    exact (h.apart d hd).1

theorem grow (hext : Extends userIndex live kernel s s') : ReservedState s' root live kernel reserved home ∧
    ∀ r ∈ live, ∀ n, frameOf s' r n = frameOf s r n := by
  have hframe (r : ℕ) (hr : r ∈ live) (n : ℕ) : frameOf s' r n = frameOf s r n :=
    frameOf_of_leaf fun _ => leaf_of_extends hext hr
  refine ⟨h.of_pages hext.kernel (h.spaces.extends h.frames_held hext) hframe (fun t ht => ?_) hext.kept hext.refcounts
    fun d hd => ?_, hframe⟩
  · exact (hext.pointers t ht).elim (h.pointers t) id
  · exact not_isTable_of_extends hext (h.kept d hd).2.1 (h.apart d hd)

theorem reserve (fresh : Set ℕ) (hkept : ∀ d ∈ fresh, d < maxFrames ∧ ¬ Free s.pmm d ∧ 1 ≤ refs s d)
    (hapart : ∀ d ∈ fresh, ¬ IsTable s live d ∧ d ∉ kernel)
    (hunmapped : ∀ d ∈ fresh, ∀ r ∈ live, ∀ n, frameOf s r n ≠ some d) :
    ReservedState s root live kernel (reserved ∪ fresh) home := by
  refine { h with
    covered := h.covered.release (fun x hx m f hf hmem hnot => absurd (.inl hmem) hnot) fun _ _ _ _ _ _ => le_rfl
    kept := fun d hd => hd.elim (h.kept d) (hkept d)
    apart := fun d hd => hd.elim (h.apart d) (hapart d)
    placed := fun r hr n d hd hmem => ?_ }
  exact hmem.elim (h.placed r hr n d hd) fun hmem => absurd hd (hunmapped d hmem r hr n)

theorem release {frames : List ℕ} (hnodup : frames.Nodup) (hsub : ∀ d ∈ frames, d ∈ reserved)
    (hcount : ∀ d ∈ frames, ∀ r ∈ live, ∀ n, frameOf s r n = some d →
      (holders live (frameOf s) n d).card < refs s d) :
    ReservedState { s with pmm := freeAll frames s.pmm } root live kernel (reserved \ {d | d ∈ frames}) home := by
  set s' : Machine := { s with pmm := freeAll frames s.pmm } with hs'
  have hout {f : ℕ} (hf : f ∉ frames) : (Free s'.pmm f ↔ Free s.pmm f) ∧ refs s' f = refs s f :=
    ⟨(freeAll_of_notMem hf).1, congrArg BitVec.toNat (freeAll_of_notMem hf).2⟩
  -- A frame that is still mapped keeps a reference for each address space that maps it.
  have hshared {r n d : ℕ} (hr : r ∈ live) (hd : frameOf s r n = some d) (hmem : d ∈ frames) :
      ¬ Free s'.pmm d ∧ refs s' d = refs s d - 1 := by
    obtain ⟨hlt, hused⟩ := h.held r hr n d hd
    have hpos : 0 < (holders live (frameOf s) n d).card := card_pos.mpr ⟨r, mem_filter.mpr ⟨hr, hd⟩⟩
    have hmany : 1 < refs s d := by
      have := hcount d hmem r hr n hd
      omega
    exact freeAll_shared hnodup hmem hlt hused hmany
  have hroles (f : ℕ) (hf : IsTable s live f ∨ f ∈ kernel) : ¬ Free s'.pmm f := by
    have hnot : f ∉ frames := fun hmem => hf.elim (h.apart f (hsub f hmem)).1 (h.apart f (hsub f hmem)).2
    rw [(hout hnot).1]
    exact h.spaces.tables.used hf
  refine ⟨h.root_eq, h.spaces.of_frames (fun _ _ => rfl) (fun _ _ => rfl) rfl hroles, h.pointers, fun r hr n d hd => ?_, ?_,
    fun d hd => ?_, fun d hd => h.apart d hd.1, fun r hr n d hd hmem => h.placed r hr n d hd hmem.1⟩
  · obtain ⟨hlt, hused⟩ := h.held r hr n d hd
    refine ⟨hlt, ?_⟩
    by_cases hmem : d ∈ frames
    · exact (hshared hr hd hmem).1
    · rwa [(hout hmem).1]
  · refine h.covered.release (fun r hr n d hd hmem hnot => ?_) fun r hr n d hd hnot => ?_
    · have hmem : d ∈ frames := by
        by_contra hout
        exact hnot ⟨hmem, hout⟩
      have hlt := hcount d hmem r hr n hd
      rw [(hshared hr hd hmem).2]
      omega
    · exact (hout fun hmem => hnot (hsub d hmem)).2.ge
  · obtain ⟨hlt, hused, hone⟩ := h.kept d hd.1
    rw [(hout hd.2).1, (hout hd.2).2]
    exact ⟨hlt, hused, hone⟩

section SetLeaf

variable (hr : r ∈ live) (hn : n < userPages) (ht : tableAt s r (ptPath (n * pageSize)) = some pt)

include hr hn ht

theorem setLeaf {e : BitVec 64} (he : hasFlag e ptePresent → hasFlag e pteHuge = false ∧
      tableOf e ∈ reserved ∧ home (tableOf e) n ∧ ∀ m, home (tableOf e) m → m = n) :
    ReservedState (setEntry pt (ptIndex (n * pageSize)) e s) root live kernel reserved home ∧
      ∀ x ∈ live, ∀ m, frameOf (setEntry pt (ptIndex (n * pageSize)) e s) x m =
        if x = r ∧ m = n then (if hasFlag e ptePresent then some (tableOf e) else none) else frameOf s x m := by
  have hmap (x : ℕ) (hx : x ∈ live) (m : ℕ) : frameOf (setEntry pt (ptIndex (n * pageSize)) e s) x m =
      if x = r ∧ m = n then (if hasFlag e ptePresent then some (tableOf e) else none) else frameOf s x m :=
    h.spaces.frameOf_setLeaf (m := s.pmm) hr hn ht hx
  have hnew {f : ℕ} (hf : (if hasFlag e ptePresent then some (tableOf e) else none) = some f) :
      hasFlag e ptePresent ∧ tableOf e = f := by
    split at hf
    · rename_i hpresent
      exact ⟨hpresent, Option.some.inj hf⟩
    · cases hf
  refine ⟨⟨h.root_eq, h.spaces.setLeaf hr hn ht fun hpresent => ?_, ?_, fun x hx m d hd => ?_, ?_, h.kept, fun d hd => ?_,
    fun x hx m d hd hmem => ?_⟩, hmap⟩
  · exact ⟨(he hpresent).1, h.apart _ (he hpresent).2.1⟩
  · exact fun t ht' => h.pointers t ((h.spaces.ownTable_setLeaf (m := s.pmm) hr hn ht).mp ht')
  · rw [hmap x hx] at hd
    split at hd
    · obtain ⟨hpresent, rfl⟩ := hnew hd
      have hkept := h.kept _ (he hpresent).2.1
      exact ⟨hkept.1, hkept.2.1⟩
    · exact h.held x hx m d hd
  · refine h.covered.set hr hmap fun f hf => ?_
    obtain ⟨hpresent, rfl⟩ := hnew hf
    obtain ⟨-, hmem, -, hone⟩ := he hpresent
    exact ⟨hmem, fun x hx m hm => hone m (h.placed x hx m _ hm hmem)⟩
  · rw [h.spaces.isTable_setLeaf hr hn ht]
    exact h.apart d hd
  · rw [hmap x hx] at hd
    split at hd
    · rename_i heq
      obtain ⟨hpresent, rfl⟩ := hnew hd
      rw [heq.2]
      exact (he hpresent).2.2.1
    · exact h.placed x hx m d hd hmem

end SetLeaf

theorem clearKernel (ht : t ∈ kernel) : ReservedState (setEntry t i 0 s) root live kernel reserved home := by
  have hframe (r : ℕ) (hr : r ∈ live) (n : ℕ) : frameOf (setEntry t i 0 s) r n = frameOf s r n :=
    frameOf_of_leaf fun hn => h.spaces.leaf_clearKernel ht hr hn
  refine h.of_pages rfl (h.spaces.clearKernel ht) hframe ?_ (fun _ hf => hf) (fun _ _ => rfl) ?_
  · rintro t ⟨r, hr, p, hp, hown, hpt⟩
    exact h.pointers t ⟨r, hr, p, hp, hown, tableAt_of_clear hpt⟩
  · rintro d hd ⟨r, hr, p, hp, hpt⟩
    exact (h.apart d hd).1 ⟨r, hr, p, hp, tableAt_of_clear hpt⟩

theorem map (hr : r ∈ live) (hn : n < userPages) (hd : d ∈ reserved) (hhome : home d n) (hone : ∀ m, home d m → m = n)
    (hflags : SmallFlags flags) :
    ReservedState (vmmMapPage r (n * pageSize) (d * pageSize) flags s).2 root live kernel reserved home ∧
      (∀ x ∈ live, ∀ m < userPages, ¬ (x = r ∧ m = n) →
        leaf (vmmMapPage r (n * pageSize) (d * pageSize) flags s).2 x m = leaf s x m) ∧
      ((vmmMapPage r (n * pageSize) (d * pageSize) flags s).1 = 0 →
        leaf (vmmMapPage r (n * pageSize) (d * pageSize) flags s).2 r n = smallEntry (d * pageSize) flags) := by
  have hown : userIndex (pml4Index (n * pageSize)) := by
    simpa [Owned, ptPath] using owned_ptPath (p := []) hn
  have hcases := vmmMapPage_cases h.spaces.tables hr hown (d * pageSize) flags
  generalize vmmMapPage r (n * pageSize) (d * pageSize) flags s = res at hcases ⊢
  cases hcases with
  | failed hext =>
    refine ⟨(h.grow hext).1, fun x hx m _ _ => leaf_of_extends hext hx, fun hbad => ?_⟩
    exact absurd hbad (show (-1 : ℤ) ≠ 0 by decide)
  | huge hhuge => exact absurd hhuge (by rw [hflags.small]; decide)
  | small _ hext ht =>
    have hstate := (h.grow hext).1
    obtain ⟨-, hdframe⟩ := smallEntry_frame (h.kept d hd).1 hflags.only
    have hstored := (hstate.setLeaf (e := smallEntry (d * pageSize) flags) hr hn ht fun _ =>
      ⟨(hasFlag_smallEntry_huge _ _).trans hflags.small, hdframe.symm ▸ hd, hdframe.symm ▸ hhome, hdframe.symm ▸ hone⟩).1
    refine ⟨hstored, fun x hx m hm hne => ?_, fun _ => ?_⟩
    · exact (hstate.spaces.leaf_setLeaf hr hn ht hx hm).trans ((if_neg hne).trans (leaf_of_extends hext hx))
    · exact (hstate.spaces.leaf_setLeaf hr hn ht hr hn).trans (if_pos ⟨rfl, rfl⟩)

theorem unmap (hr : r ∈ live) (v : ℕ) : ReservedState (vmmUnmapPage r v s).2 root live kernel reserved home ∧
    ∀ x ∈ live, ∀ m < userPages, if userIndex (pml4Index v) ∧ x = r ∧ m = userPage v
      then hasFlag (leaf (vmmUnmapPage r v s).2 x m) ptePresent = false
      else leaf (vmmUnmapPage r v s).2 x m = leaf s x m := by
  obtain ⟨-, -, hpath, hidx⟩ := path_userPage v
  have hclear {pt : ℕ} (hv : userIndex (pml4Index v)) (ht : tableAt s r (ptPath v) = some pt) :
      ReservedState (setEntry pt (ptIndex v) 0 s) root live kernel reserved home ∧ ∀ x ∈ live, ∀ m < userPages,
        leaf (setEntry pt (ptIndex v) 0 s) x m = if x = r ∧ m = userPage v then 0 else leaf s x m := by
    rw [← hidx]
    refine ⟨(h.setLeaf (e := 0) hr (userPage_lt hv) (hpath.symm ▸ ht) fun hpresent => ?_).1, fun x hx m hm => ?_⟩
    · rw [hasFlag_zero] at hpresent
      cases hpresent
    · exact h.spaces.leaf_setLeaf hr (userPage_lt hv) (hpath.symm ▸ ht) hx hm
  have hcleared {pt : ℕ} (hv : userIndex (pml4Index v)) (ht : tableAt s r (ptPath v) = some pt) (x : ℕ)
      (hx : x ∈ live) (m : ℕ) (hm : m < userPages) : if userIndex (pml4Index v) ∧ x = r ∧ m = userPage v
        then hasFlag (leaf (setEntry pt (ptIndex v) 0 s) x m) ptePresent = false
        else leaf (setEntry pt (ptIndex v) 0 s) x m = leaf s x m := by
    rw [(hclear hv ht).2 x hx m hm]
    split_ifs with htarget hzero hzero
    · exact hasFlag_zero _
    · exact absurd htarget.2 hzero
    · exact absurd ⟨hv, hzero⟩ htarget
    · rfl
  have hcases := h.spaces.vmmUnmapPage_cases hr v
  by_cases hmapped : userIndex (pml4Index v) ∧ ∃ d, frameOf s r (userPage v) = some d
  · obtain ⟨hv, d, hd⟩ := hmapped
    obtain ⟨pt, ht, hunmap⟩ := h.spaces.vmmUnmapPage_eq h.pointers hr hv hd
    rw [hunmap]
    exact ⟨(hclear hv ht).1, hcleared hv ht⟩
  · -- what is not mapped is not there, and clearing an entry of the kernel half changes no user page
    generalize (vmmUnmapPage r v s).2 = s' at hcases ⊢
    have hsame (s' : Machine) (hleaf : ∀ x ∈ live, ∀ m < userPages, leaf s' x m = leaf s x m) (x : ℕ) (hx : x ∈ live)
        (m : ℕ) (hm : m < userPages) : if userIndex (pml4Index v) ∧ x = r ∧ m = userPage v
          then hasFlag (leaf s' x m) ptePresent = false else leaf s' x m = leaf s x m := by
      rw [hleaf x hx m hm]
      split_ifs with htarget
      · obtain ⟨hv, rfl, rfl⟩ := htarget
        exact Bool.eq_false_of_not_eq_true fun hpresent =>
          hmapped ⟨hv, _, frameOf_eq_some.mpr ⟨hm, hpresent, rfl⟩⟩
      · rfl
    cases hcases with
    | nothing => exact ⟨h, hsame s fun _ _ _ _ => rfl⟩
    | user hv ht => exact ⟨(hclear hv ht).1, hcleared hv ht⟩
    | kernel _ ht => exact ⟨h.clearKernel ht, hsame _ fun x hx m hm => h.spaces.leaf_clearKernel ht hx hm⟩

end Steps

end ReservedState

/-! ## Cloning and destroying next to frames that are set aside -/

namespace ReservedState

variable {s s' t t' : Machine} {live : Finset ℕ} {kernel reserved : Set ℕ} {home : ℕ → ℕ → Prop}
variable {root r src dst b d : ℕ}

structure Copying (root : ℕ) (live : Finset ℕ) (kernel reserved : Set ℕ) (home : ℕ → ℕ → Prop) (dst b : ℕ)
    (t : Machine) : Prop where
  state : ReservedState t root (insert dst live) kernel reserved home
  above : ∀ n, b ≤ n → frameOf t dst n = none
  many : ∀ n d, frameOf t dst n = some d → d ∈ reserved → 2 ≤ refs t d

theorem refs_shared {roots : Set ℕ} (h : PageShared roots kernel src dst b t t') (hd : frameOf t src b = some d)
    (hlt : d < maxFrames) (hused : ¬ Free t.pmm d) : min (refs t d + 1) 255 ≤ refs t' d ∧
      ∀ f, ¬ Free t.pmm f → refs t f ≤ refs t' f := by
  obtain ⟨m, hm, hpmm⟩ := h.refcounts
  rw [(frameOf_eq_some.mp hd).2.2] at hpmm
  have hrefs {f : ℕ} (hf : ¬ Free t.pmm f) :
      refs t' f = if f = d ∧ d < maxFrames then min 255 (refs t f + 1) else refs t f := by
    rw [refs, hpmm, refcounts_pmmRefFrame_min, hm f hf, refs]
  refine ⟨?_, fun f hf => ?_⟩
  · rw [hrefs hused, if_pos ⟨rfl, hlt⟩, Nat.min_comm]
  · have := (t.pmm.refcounts f).isLt
    rw [hrefs hf, refs]
    split <;> omega

theorem Copying.share (h : Copying root live kernel reserved home dst b t) (hsrc : src ∈ live) (hdst : dst ∉ live)
    (hcard : live.card < 255) (hb : b < userPages) (hpresent : hasFlag (leaf t src b) ptePresent)
    (hshared : PageShared ↑(insert dst live) kernel src dst b t t') :
    Copying root live kernel reserved home dst (b + 1) t' := by
  have hstate := h.state
  have hsrc' : src ∈ insert dst live := mem_insert_of_mem hsrc
  have hdst' : dst ∈ insert dst live := mem_insert_self _ _
  obtain ⟨d, hd⟩ : ∃ d, frameOf t src b = some d := ⟨_, frameOf_eq_some.mpr ⟨hb, hpresent, rfl⟩⟩
  obtain ⟨hdlt, hdused⟩ := hstate.held src hsrc' b d hd
  obtain ⟨hmore, hrefs⟩ := refs_shared hshared hd hdlt hdused
  have hframe (x : ℕ) (hx : x ∈ insert dst live) (m : ℕ) := hshared.frameOf_eq hdst' hd hx (m := m)
  have hnew {x m f : ℕ} (hx : x ∈ insert dst live) (hf : frameOf t' x m = some f) :
      (f = d ∧ x = dst ∧ m = b) ∨ frameOf t x m = some f := by
    rw [hframe x hx] at hf
    split_ifs at hf with heq
    · exact .inl ⟨(Option.some.inj hf).symm, heq⟩
    · exact .inr hf
  refine ⟨⟨hshared.kernel_eq.trans hstate.root_eq, hshared.spaces, fun t ht => ?_, fun x hx m f hf => ?_, ?_,
    fun f hf => ?_, fun f hf => ?_, fun x hx m f hf hmem => ?_⟩, fun m hm => ?_, fun m f hf hmem => ?_⟩
  · exact (hshared.nodes t ht).elim (hstate.pointers t) And.right
  · rcases hnew hx hf with ⟨rfl, -⟩ | hf
    · exact ⟨hdlt, hshared.kept f hdused⟩
    · exact ⟨(hstate.held x hx m f hf).1, hshared.kept f (hstate.held x hx m f hf).2⟩
  · refine hstate.covered.share hdst' hsrc' hd hframe (fun hnot => ?_) fun x hx m f hf _ _ => ?_
    · have hcount := hstate.covered.count_le src hsrc' b d hd hnot
      have hsub : holders (insert dst live) (frameOf t) b d ⊆ live := fun x hx => by
        obtain ⟨hx, hxd⟩ := mem_filter.mp hx
        rcases mem_insert.mp hx with rfl | hx
        · rw [h.above b le_rfl] at hxd
          cases hxd
        · exact hx
      have := card_le_card hsub
      omega
    · exact hrefs f (hstate.held x hx m f hf).2
  · obtain ⟨hlt, hused, hone⟩ := hstate.kept f hf
    exact ⟨hlt, hshared.kept f hused, hone.trans (hrefs f hused)⟩
  · obtain ⟨htable, hkernel⟩ := hstate.apart f hf
    refine ⟨fun ht => ?_, hkernel⟩
    rcases hshared.spaces.tables.own_or_shared ht with hown | hmem
    · rcases hshared.nodes f hown with hold | hfree
      · exact htable hold.isTable
      · exact (hstate.kept f hf).2.1 hfree.1
    · exact hkernel hmem
  · rcases hnew hx hf with ⟨rfl, rfl, rfl⟩ | hf
    · exact hstate.placed src hsrc' m f hd hmem
    · exact hstate.placed x hx m f hf hmem
  · rw [hframe dst hdst', if_neg (by omega)]
    exact h.above m (by omega)
  · rcases hnew hdst' hf with ⟨rfl, -⟩ | hf
    · have := (hstate.kept f hmem).2.2
      omega
    · exact (h.many m f hf hmem).trans (hrefs f (hstate.held dst hdst' m f hf).2)

def Cloned (root : ℕ) (live : Finset ℕ) (kernel reserved : Set ℕ) (home : ℕ → ℕ → Prop) :
    Option ℕ × Machine → Prop
  | (none, s') => ReservedState s' root live kernel reserved home
  | (some dst, s') => dst ∉ live ∧ ReservedState s' root (insert dst live) kernel reserved home ∧
      ∀ n d, frameOf s' dst n = some d → d ∈ reserved → 2 ≤ refs s' d

section

variable (h : ReservedState s root live kernel reserved home)
include h

theorem newSpace (hz : Free s.pmm dst) (hptr : physToVirt (dst * pageSize) ≠ 0) :
    ReservedState (newSpace s dst) root (insert dst live) kernel reserved home ∧
      EmptySpace (Paging.newSpace s dst) dst := by
  obtain ⟨hspaces, -, hempty⟩ := h.spaces.create h.frames_held hz
  have hnone := hempty.frameOf_eq_none
  have hmem (f : ℕ) (hf : IsTable s live f ∨ f ∈ kernel) : (Paging.newSpace s dst).mem f = s.mem f :=
    Function.update_of_ne (by rintro rfl; exact h.spaces.tables.used hf hz) _ _
  obtain ⟨hnew, -⟩ := h.of_frames (Paging.newSpace s dst) hmem rfl (fun f hf => not_free_takeFrame hf)
    fun f hf => refcounts_takeFrame hz hf
  have hold {r n d : ℕ} (hr : r ∈ insert dst live) (hd : frameOf (Paging.newSpace s dst) r n = some d) : r ∈ live := by
    refine (mem_insert.mp hr).resolve_left ?_
    rintro rfl
    rw [hnone] at hd
    cases hd
  refine ⟨{ hnew with
    spaces := by rwa [coe_insert]
    pointers := ?_
    held := fun r hr n d hd => hnew.held r (hold hr hd) n d hd
    covered := hnew.covered.join hnone
    apart := fun d hd => ⟨?_, (h.apart d hd).2⟩
    placed := fun r hr n d hd => hnew.placed r (hold hr hd) n d hd }, hempty⟩
  · rintro t ⟨r, hr, p, hp, hown, ht⟩
    rcases mem_insert.mp hr with rfl | hr
    · obtain ⟨-, rfl⟩ := hempty.tableAt_user hown ht
      exact hptr
    · exact hnew.pointers t ⟨r, hr, p, hp, hown, ht⟩
  · rintro ⟨r, hr, p, hp, ht⟩
    rcases mem_insert.mp hr with rfl | hr
    · by_cases hown : Owned userIndex p
      · obtain ⟨-, rfl⟩ := hempty.tableAt_user hown ht
        exact (h.kept d hd).2.1 hz
      · exact (h.apart d hd).2 (hspaces.tables.forest.shared_of_walk r (by simp) p d hp hown ht)
    · exact (hnew.apart d hd).1 ⟨r, hr, p, hp, ht⟩

theorem destroy (hr : r ∈ live) (hmany : ∀ n d, frameOf s r n = some d → d ∈ reserved → 2 ≤ refs s d) :
    ReservedState (vmmDestroyAddressSpace r s) root (live.erase r) kernel reserved home := by
  set s' := vmmDestroyAddressSpace r s
  have hpmm := vmmDestroyAddressSpace_eq h.spaces hr
  have hnodup := nodup_releasedFrames h.spaces hr fun n n' d => h.covered.same_page r hr r hr n n' d
  have hout {f : ℕ} (hf : f ∉ releasedFrames s r) : (Free s'.pmm f ↔ Free s.pmm f) ∧
      refs s' f = refs s f := by
    rw [hpmm, refs, hpmm]
    exact ⟨(freeAll_of_notMem hf).1, congrArg BitVec.toNat (freeAll_of_notMem hf).2⟩
  -- A frame with another reference loses one of them and stays in use.
  have hstays {n d : ℕ} (hd : frameOf s r n = some d) (hmore : 2 ≤ refs s d) :
      ¬ Free s'.pmm d ∧ refs s' d = refs s d - 1 := by
    obtain ⟨hlt, hused⟩ := h.held r hr n d hd
    have hmem := (mem_releasedFrames h.spaces hr).mpr (.inr ⟨n, hd⟩)
    rw [hpmm, refs, hpmm]
    exact freeAll_shared hnodup hmem hlt hused hmore
  -- The frame of a page of another address space is a page of this one or is not released.
  have hpage {x n d : ℕ} (hx : x ∈ live) (hd : frameOf s x n = some d) :
      (∃ m, frameOf s r m = some d) ∨ d ∉ releasedFrames s r := by
    by_cases hmem : d ∈ releasedFrames s r
    · rcases (mem_releasedFrames h.spaces hr).mp hmem with ⟨_, rfl, p, hp, _, hpt⟩ | hpage
      · exact absurd ⟨_, hr, p, hp, hpt⟩ (h.not_table hx hd).1
      · exact .inl hpage
    · exact .inr hmem
  have hboth {x n m d : ℕ} (hx : x ∈ live.erase r) (hd : frameOf s x n = some d) (hd' : frameOf s r m = some d) :
      2 ≤ refs s d ∧ m = n := by
    obtain ⟨hne, hx⟩ := mem_erase.mp hx
    obtain rfl := h.covered.same_page x hx r hr n m d hd hd'
    refine ⟨?_, rfl⟩
    by_cases hmem : d ∈ reserved
    · exact hmany n d hd' hmem
    · have hpair : ({x, r} : Finset ℕ) ⊆ holders live (frameOf s) n d := by
        intro y hy
        rcases mem_insert.mp hy with rfl | hy
        · exact mem_filter.mpr ⟨hx, hd⟩
        · obtain rfl := mem_singleton.mp hy
          exact mem_filter.mpr ⟨hr, hd'⟩
      calc 2 = ({x, r} : Finset ℕ).card := (card_pair hne).symm
        _ ≤ (holders live (frameOf s) n d).card := card_le_card hpair
        _ ≤ refs s d := h.covered.count_le x hx n d hd hmem
  refine ⟨h.root_eq, by rw [coe_erase]; exact h.spaces.destroy hr, ?_, fun x hx n d hd => ?_, ?_, fun d hd => ?_,
    fun d hd => ?_, fun x hx => h.placed x (mem_of_mem_erase hx)⟩
  · rintro t ⟨x, hx, p, hp, hown, ht⟩
    exact h.pointers t ⟨x, mem_of_mem_erase hx, p, hp, hown, ht⟩
  · have hx' := mem_of_mem_erase hx
    obtain ⟨hlt, hused⟩ := h.held x hx' n d hd
    refine ⟨hlt, ?_⟩
    rcases hpage hx' hd with ⟨m, hm⟩ | hnot
    · exact (hstays hm (hboth hx hd hm).1).1
    · rwa [(hout hnot).1]
  · refine h.covered.leave hr fun x hx n d hd hnot => ?_
    rcases hpage (mem_of_mem_erase hx) hd with ⟨m, hm⟩ | hmem
    · obtain ⟨hmore, rfl⟩ := hboth hx hd hm
      rw [if_pos hm]
      exact (hstays hm hmore).2.ge
    · rw [if_neg fun hm => hmem ((mem_releasedFrames h.spaces hr).mpr (.inr ⟨n, hm⟩))]
      exact (hout hmem).2.ge
  · obtain ⟨hlt, hused, hone⟩ := h.kept d hd
    by_cases hmem : d ∈ releasedFrames s r
    · rcases (mem_releasedFrames h.spaces hr).mp hmem with ⟨_, rfl, p, hp, _, hpt⟩ | ⟨n, hn⟩
      · exact absurd ⟨_, hr, p, hp, hpt⟩ (h.apart d hd).1
      · have hmore := hmany n d hn hd
        obtain ⟨hfree, hrefs⟩ := hstays hn hmore
        exact ⟨hlt, hfree, by omega⟩
    · rw [(hout hmem).1, (hout hmem).2]
      exact ⟨hlt, hused, hone⟩
  · refine ⟨fun ht => (h.apart d hd).1 ?_, (h.apart d hd).2⟩
    obtain ⟨x, hx, p, hp, hpt⟩ := ht
    exact ⟨x, mem_of_mem_erase hx, p, hp, hpt⟩

theorem alloc_table : ReservedState (allocPageTable s).2 root live kernel reserved home := by
  have hkernel (f : ℕ) (hf : IsTable s live f ∨ f ∈ kernel) : ¬ Free s.pmm f :=
    h.spaces.tables.used hf
  have hkept {f : ℕ} (hf : ¬ Free s.pmm f) := not_free_pmmAllocFrame (m := s.pmm) hf
  have hrefs {f : ℕ} (hf : ¬ Free s.pmm f) := refcounts_pmmAllocFrame (m := s.pmm) hf
  rw [allocPageTable]
  split_ifs with hne
  · exact (h.of_frames { s with pmm := (pmmAllocFrame s.pmm).2 } (fun _ _ => rfl) rfl (fun f => hkept) fun f => hrefs).1
  · refine (h.of_frames { s with
      pmm := (pmmAllocFrame s.pmm).2
      mem := fill s.mem ((pmmAllocFrame s.pmm).1 / pageSize) 0 } (fun f hf => fill_of_ne ?_) rfl (fun f => hkept)
      fun f => hrefs).1
    rcases pmmAllocFrame_cases s.pmm with hnone | ⟨z, hz, hsome⟩
    · exact absurd (congrArg Prod.fst hnone) hne
    · rw [hsome, frame_div]
      rintro rfl
      exact hkernel f hf hz

theorem clone (hsrc : src ∈ live) (hcard : live.card < 255) :
    Cloned root live kernel reserved home (vmmCloneAddressSpace src s) := by
  rw [vmmCloneAddressSpace]
  rcases hcreate : vmmCreateAddressSpace s with ⟨_ | dst, s₁⟩
  · have halloc := h.alloc_table
    rw [vmmCreateAddressSpace] at hcreate
    rcases hpt : allocPageTable s with ⟨_ | z, s₂⟩
    · rw [hpt] at hcreate halloc
      exact (Prod.mk.inj hcreate).2 ▸ halloc
    · rw [hpt] at hcreate
      cases hcreate
  · obtain ⟨hfree, hptr, rfl⟩ :=
      vmmCreateAddressSpace_eq (h.spaces.tables.shared_kept _ h.spaces.kernelHalf.root) hcreate
    have hdst : dst ∉ live := fun hmem =>
      h.spaces.tables.kept dst ⟨dst, hmem, [], .nil, rfl⟩ hfree
    have hdst' : dst ∈ insert dst live := mem_insert_self _ _
    obtain ⟨hnew, hempty⟩ := h.newSpace hfree hptr
    have hinv : CloneInvariant ↑(insert dst live) kernel src dst (Copying root live kernel reserved home dst) := {
      spaces := fun n t ht => ht.state.spaces
      held := fun n t ht => ht.state.frames_held
      skip := fun n t ht _ _ => { ht with above := fun m hm => ht.above m (by omega) }
      share := fun n t t' ht hn hpresent hshared => ht.share hsrc hdst hcard hn hpresent hshared }
    have hstart : Copying root live kernel reserved home dst 0 (Paging.newSpace s dst) :=
      ⟨hnew, fun n _ => hempty.frameOf_eq_none n, fun n d hd => by rw [hempty.frameOf_eq_none] at hd; cases hd⟩
    dsimp only
    cases hloop : (List.range 256).foldlM (clonePointers dst src) (Paging.newSpace s dst) with
    | ok s₂ =>
      have hend : Copying root live kernel reserved home dst userPages s₂ :=
        cloneLoop_ends hinv (mem_insert_of_mem hsrc) hdst' hstart hloop
      exact ⟨hdst, hend.state, hend.many⟩
    | error s₂ =>
      obtain ⟨n, t, ht, hext⟩ : Stopped _ kernel _ s₂ :=
        cloneLoop_ends hinv (mem_insert_of_mem hsrc) hdst' hstart hloop
      obtain ⟨hgrown, hframe⟩ := ht.state.grow hext
      have hgone := hgrown.destroy hdst' fun m d hd hmem => by
        rw [hframe dst hdst'] at hd
        have hrefs : refs s₂ d = refs t d :=
          congrArg BitVec.toNat (hext.refcounts d (ht.state.held dst hdst' m d hd).2)
        exact hrefs.symm ▸ ht.many m d hd hmem
      rwa [erase_insert hdst] at hgone

end

end ReservedState

end AetherOs.Paging
