import AetherOs.Base.Sharing
import AetherOs.Paging.Create

/-! # Copy-on-write states -/

namespace AetherOs.Paging

open Base Base.Radix Function Option

/-! ## Page faults -/

section

variable {s s' : Machine} {roots kernel : Set ℕ} {own : ℕ → Prop} {r n v pt z : ℕ}

theorem ptPath_page (v : ℕ) : ptPath (v / pageSize * pageSize) = ptPath v ∧
    ptIndex (v / pageSize * pageSize) = ptIndex v := by
  simp only [ptPath, pml4Index, pdptIndex, pdIndex, ptIndex, pageSize, List.cons.injEq, and_true]
  omega

def protectionFault (errorCode : BitVec 64) : Bool :=
  hasFlag errorCode faultUser && (hasFlag errorCode faultWrite && hasFlag errorCode faultPresent)

def copyPage (s : Machine) (pt idx : ℕ) (pte : BitVec 64) (z : ℕ) : Machine :=
  { s with
    mem := store (update s.mem z (s.mem (tableOf pte))) pt idx (privateEntry (z * pageSize) pte)
    pmm := pmmFreeFrame (tableOf pte * pageSize) (takeFrame z s.pmm) }

inductive Resolution (s : Machine) (r n : ℕ) : Machine → Prop
  | takeOver {pt : ℕ} : tableAt s r (ptPath (n * pageSize)) = some pt →
      pmmGetRefcount s.pmm (tableOf (leaf s r n) * pageSize) = 1 →
      Resolution s r n (setEntry pt (ptIndex (n * pageSize)) (soleEntry (leaf s r n)) s)
  | copy {pt z : ℕ} : tableAt s r (ptPath (n * pageSize)) = some pt →
      pmmGetRefcount s.pmm (tableOf (leaf s r n) * pageSize) ≠ 1 → Free s.pmm z →
      Resolution s r n (copyPage s pt (ptIndex (n * pageSize)) (leaf s r n) z)

section

variable (h : Tables s own roots kernel) (hr : r ∈ roots)
include h hr

theorem Tables.walkToTable_eq (v : ℕ) : walkToTable s r v = tableAt s r (ptPath v) := by
  have hpath := tablePath_ptPath v
  simp only [walkToTable]
  cases hp₄ : hasFlag (s.mem r (pml4Index v)) ptePresent with
  | false =>
    exact (walk_eq_none_of_entry (q := []) rfl (child_eq_none_of_not_present hp₄)
      ⟨[pdptIndex v, pdIndex v], rfl⟩).symm
  | true =>
    have ht₃ := h.tableAt_concat (p := []) hr (hpath.initial ⟨[pdptIndex v, pdIndex v], rfl⟩)
      (by simp) rfl hp₄
    generalize tableOf (s.mem r (pml4Index v)) = pdpt at ht₃ ⊢
    cases hp₃ : hasFlag (s.mem pdpt (pdptIndex v)) ptePresent with
    | false =>
      exact (walk_eq_none_of_entry ht₃ (child_eq_none_of_not_present hp₃) ⟨[pdIndex v], rfl⟩).symm
    | true =>
      have ht₂ := h.tableAt_concat (p := [pml4Index v]) hr (hpath.initial ⟨[pdIndex v], rfl⟩)
        (by simp) ht₃ hp₃
      rw [tableAt, show ptPath v = [pml4Index v, pdptIndex v] ++ [pdIndex v] from rfl, walk_concat,
        show walk child s.mem r [pml4Index v, pdptIndex v] = _ from ht₂]
      rfl

theorem Tables.cowTable_eq_some {errorCode : BitVec 64} :
    cowTable r v errorCode s = some pt ↔
      (hasFlag errorCode faultWrite && hasFlag errorCode faultPresent) ∧ physToVirt (r * pageSize) ≠ 0 ∧
        tableAt s r (ptPath v) = some pt ∧ hasFlag (s.mem pt (ptIndex v)) pteCow ∧
        hasFlag (s.mem pt (ptIndex v)) ptePresent := by
  rw [cowTable, h.walkToTable_eq hr]
  split_ifs with hwrite
  · simp only [Bool.and_eq_true, decide_eq_true_eq] at hwrite
    simp [filter_eq_some_iff, hwrite]
  · simp only [Bool.and_eq_true, decide_eq_true_eq] at hwrite
    simp only [Bool.and_eq_true, false_iff]
    exact fun hbad => hwrite ⟨hbad.1, hbad.2.1⟩

theorem Tables.vmmHandlePageFault_cases (v : ℕ) (errorCode : BitVec 64) :
    vmmHandlePageFault r v errorCode s = .panic ∨
      (∃ reason, vmmHandlePageFault r v errorCode s = .killed reason s) ∨
      ∃ pt, protectionFault errorCode ∧ tableAt s r (ptPath v) = some pt ∧
        hasFlag (s.mem pt (ptIndex v)) pteCow ∧ hasFlag (s.mem pt (ptIndex v)) ptePresent ∧
        vmmHandlePageFault r v errorCode s = breakCow pt (ptIndex v) (s.mem pt (ptIndex v)) s := by
  rw [vmmHandlePageFault]
  cases huser : hasFlag errorCode faultUser with
  | false => exact .inl rfl
  | true =>
    right
    simp only [Bool.not_true, Bool.false_eq_true, if_false]
    cases hcow : cowTable r v errorCode s with
    | none =>
      left
      simp only
      split
      · exact ⟨_, rfl⟩
      · exact ⟨_, rfl⟩
    | some pt =>
      obtain ⟨hwrite, _, ht, hmark, hpresent⟩ := (h.cowTable_eq_some hr).mp hcow
      exact .inr ⟨pt, by simp [protectionFault, huser, hwrite], ht, hmark, hpresent, rfl⟩

omit h hr in
theorem breakCow_cases (pt idx : ℕ) (pte : BitVec 64) (s : Machine) :
    (pmmGetRefcount s.pmm (tableOf pte * pageSize) = 1 ∧
      breakCow pt idx pte s = .resolved (setEntry pt idx (soleEntry pte) s)) ∨
    (∃ m : Pmm, (∀ f, ¬ Free s.pmm f → ¬ Free m f) ∧
      breakCow pt idx pte s = .killed .cowOutOfMemory { s with pmm := m }) ∨
    (pmmGetRefcount s.pmm (tableOf pte * pageSize) ≠ 1 ∧ ∃ z, Free s.pmm z ∧
      breakCow pt idx pte s = .resolved (copyPage s pt idx pte z)) := by
  simp only [breakCow, pteAddr_eq, pmmUnrefFrame, frame_div]
  by_cases hsole : pmmGetRefcount s.pmm (tableOf pte * pageSize) = 1
  · exact .inl ⟨hsole, by rw [if_pos hsole]⟩
  · right
    simp only [if_neg hsole]
    rcases pmmAllocFrame_cases s.pmm with hnone | ⟨z, hz, hsome⟩
    · exact .inl ⟨s.pmm, fun _ hf => hf, by rw [hnone]; rfl⟩
    · rw [hsome]
      by_cases hzero : z * pageSize = 0
      · exact .inl ⟨takeFrame z s.pmm, fun _ hf => not_free_takeFrame hf, by rw [if_pos hzero]⟩
      · exact .inr ⟨hsole, z, hz, by rw [if_neg hzero, frame_div]; rfl⟩

theorem Tables.resolution {errorCode : BitVec 64} (hfault : vmmHandlePageFault r v errorCode s = .resolved s') :
    hasFlag (leaf s r (v / pageSize)) ptePresent ∧ Resolution s r (v / pageSize) s' := by
  rcases h.vmmHandlePageFault_cases hr v errorCode with hpanic | ⟨reason, hkill⟩ |
    ⟨pt, _, ht, _, hpresent, hbreak⟩
  · rw [hpanic] at hfault
    cases hfault
  · rw [hkill] at hfault
    cases hfault
  · obtain ⟨hpath, hidx⟩ := ptPath_page v
    rw [hbreak] at hfault
    rw [← hpath] at ht
    rw [← hidx] at hpresent hfault
    have hleaf : s.mem pt (ptIndex (v / pageSize * pageSize)) = leaf s r (v / pageSize) :=
      (entryAt_of_walk ht).symm
    rw [hleaf] at hpresent hfault
    refine ⟨hpresent, ?_⟩
    rcases breakCow_cases pt (ptIndex (v / pageSize * pageSize)) (leaf s r (v / pageSize)) s with
      ⟨hsole, hres⟩ | ⟨m, _, hres⟩ | ⟨hshared, z, hz, hres⟩
    · obtain rfl := FaultResult.resolved.inj (hres.symm.trans hfault)
      exact .takeOver ht hsole
    · cases hres.symm.trans hfault
    · obtain rfl := FaultResult.resolved.inj (hres.symm.trans hfault)
      exact .copy ht hshared hz

theorem Tables.killed {errorCode : BitVec 64} {reason : KillReason} (hfault : vmmHandlePageFault r v errorCode s = .killed reason s') :
    ∃ m : Pmm, (∀ f, ¬ Free s.pmm f → ¬ Free m f) ∧ s' = { s with pmm := m } := by
  rcases h.vmmHandlePageFault_cases hr v errorCode with hpanic | ⟨reason', hkill⟩ |
    ⟨pt, _, _, _, _, hbreak⟩
  · rw [hpanic] at hfault
    cases hfault
  · rw [hkill] at hfault
    cases hfault
    exact ⟨s.pmm, fun _ hf => hf, rfl⟩
  · rw [hbreak] at hfault
    rcases breakCow_cases pt (ptIndex v) (s.mem pt (ptIndex v)) s with
      ⟨_, hres⟩ | ⟨m, hm, hres⟩ | ⟨_, z, _, hres⟩
    · cases hres.symm.trans hfault
    · cases hres.symm.trans hfault
      exact ⟨m, hm, rfl⟩
    · cases hres.symm.trans hfault

end

structure PageCopied (roots kernel : Set ℕ) (r n z : ℕ) (s s' : Machine) : Prop where
  spaces : UserSpaces s' roots kernel
  leaf_eq : ∀ r' ∈ roots, ∀ m < userPages, leaf s' r' m =
    if r' = r ∧ m = n then privateEntry (z * pageSize) (leaf s r n) else leaf s r' m
  memory : ∀ f, ¬ IsTable s roots f → f ≠ z → s'.mem f = s.mem f
  copy : s'.mem z = s.mem (tableOf (leaf s r n))
  pmm : s'.pmm = pmmFreeFrame (tableOf (leaf s r n) * pageSize) (takeFrame z s.pmm)

theorem pageCopied_copyPage (h : UserSpaces s roots kernel) (hr : r ∈ roots) (hn : n < userPages)
    (ht : tableAt s r (ptPath (n * pageSize)) = some pt)
    (hpresent : hasFlag (leaf s r n) ptePresent) (hz : Free s.pmm z) :
    PageCopied roots kernel r n z s (copyPage s pt (ptIndex (n * pageSize)) (leaf s r n) z) := by
  let e := privateEntry (z * pageSize) (leaf s r n)
  let s₁ : Machine := { s with
    mem := update s.mem z (s.mem (tableOf (leaf s r n)))
    pmm := takeFrame z s.pmm }
  let s₂ := setEntry pt (ptIndex (n * pageSize)) e s₁
  have hmem (f : ℕ) (hf : ¬ Free s.pmm f) : s₁.mem f = s.mem f := update_of_ne (hz.ne hf) _ _
  have htables (f : ℕ) (hf : IsTable s roots f) := hmem f (h.tables.kept f hf)
  have hspaces₁ : UserSpaces s₁ roots kernel := h.of_frames htables
    (fun f hf => hmem f (h.tables.shared_kept f hf)) rfl fun f hf =>
      not_free_takeFrame (h.tables.used hf)
  have ht₁ : tableAt s₁ r (ptPath (n * pageSize)) = some pt :=
    (tableAt_of_frames htables hr (tablePath_ptPath _)).trans ht
  have hdata := h.data r hr n hn hpresent
  obtain ⟨hframe, _, hhuge, _⟩ := privateEntry_spec hz.1 (leaf s r n)
  have hspaces₂ : UserSpaces s₂ roots kernel := hspaces₁.setLeaf hr hn ht₁ fun _ => by
    rw [hframe, isTable_of_frames htables]
    exact ⟨hhuge.trans (h.plain r hr n hn hpresent), fun hz' => h.tables.kept z hz' hz,
      fun hz' => h.tables.shared_kept z hz' hz⟩
  have hpt : IsTable s roots pt := ⟨r, hr, _, tablePath_ptPath _, ht⟩
  refine ⟨hspaces₂.of_frames (fun _ _ => rfl) (fun _ _ => rfl) rfl fun f hf => ?_, fun r' hr' m hm => ?_,
    fun f hf hfz => ?_, ?_, rfl⟩
  · refine not_free_pmmFreeFrame ?_ (hspaces₂.tables.used hf)
    rintro rfl
    rw [hspaces₁.isTable_setLeaf hr hn ht₁, isTable_of_frames htables] at hf
    exact hf.elim hdata.1 hdata.2
  · exact (hspaces₁.leaf_setLeaf hr hn ht₁ hr' hm).trans (by rw [leaf_of_frames htables hr'])
  · have hfpt : f ≠ pt := by
      rintro rfl
      exact hf hpt
    change update _ pt _ f = _
    rw [update_of_ne hfpt]
    exact update_of_ne hfz _ _
  · change update _ pt _ z = _
    rw [update_of_ne (hz.ne (h.tables.kept pt hpt)).symm]
    exact update_self _ _ _

theorem UserSpaces.resolution (h : UserSpaces s roots kernel) (hr : r ∈ roots) (hn : n < userPages)
    (hpresent : hasFlag (leaf s r n) ptePresent) (hres : Resolution s r n s') :
    UserSpaces s' roots kernel ∧ ∃ e, hasFlag e pteWritable ∧ ∀ r' ∈ roots, ∀ m < userPages,
      leaf s' r' m = if r' = r ∧ m = n then e else leaf s r' m := by
  cases hres with
  | takeOver ht _ =>
    have hsame := samePage_soleEntry (leaf s r n)
    refine ⟨h.setLeaf hr hn ht fun _ => ?_, soleEntry (leaf s r n), hasFlag_soleEntry_writable _,
      fun r' hr' m hm => h.leaf_setLeaf hr hn ht hr' hm⟩
    rw [hsame.frame, hsame.huge]
    exact ⟨h.plain r hr n hn hpresent, h.data r hr n hn hpresent⟩
  | copy ht _ hz =>
    have hcopy := pageCopied_copyPage h hr hn ht hpresent hz
    exact ⟨hcopy.spaces, _, (privateEntry_spec hz.1 (leaf s r n)).2.2.2, hcopy.leaf_eq⟩

end

/-! ## Copy-on-write states -/

section

def frameOf (s : Machine) (r n : ℕ) : Option ℕ :=
  if n < userPages ∧ hasFlag (leaf s r n) ptePresent = true then some (tableOf (leaf s r n)) else none

def pageOf (s : Machine) (r n : ℕ) : Option (ℕ → BitVec 64) := (frameOf s r n).map s.mem

def refs (s : Machine) (f : ℕ) : ℕ := (s.pmm.refcounts f).toNat

structure CowState (s : Machine) (live : Finset ℕ) (kernel : Set ℕ) : Prop where
  spaces : UserSpaces s live kernel
  held : ∀ r ∈ live, ∀ n d, frameOf s r n = some d → d < maxFrames ∧ ¬ Free s.pmm d
  counted : Counted live (frameOf s) (refs s)
  writable : ∀ r ∈ live, ∀ n d, frameOf s r n = some d → hasFlag (leaf s r n) pteWritable = true →
    refs s d = 1

variable {s s' : Machine} {live : Finset ℕ} {kernel : Set ℕ} {r r' n d z pt v : ℕ}

theorem frameOf_eq_some : frameOf s r n = some d ↔
    n < userPages ∧ hasFlag (leaf s r n) ptePresent ∧ tableOf (leaf s r n) = d := by
  rw [frameOf]
  split_ifs with h
  · simp [h]
  · simp only [false_iff]
    exact fun hbad => h ⟨hbad.1, hbad.2.1⟩

theorem EmptySpace.frameOf_eq_none (h : EmptySpace s r) (n : ℕ) : frameOf s r n = none := by
  rw [frameOf, if_neg]
  rintro ⟨hn, hpresent⟩
  rw [h.leaf_eq_zero hn, hasFlag_zero] at hpresent
  cases hpresent

theorem frameOf_congr (h : n < userPages → SamePage (leaf s r n) (leaf s' r' n)) :
    frameOf s' r' n = frameOf s r n := by
  simp only [frameOf]
  by_cases hn : n < userPages
  · rw [(h hn).present, (h hn).frame]
  · simp [hn]

theorem SamePage.refl (e : BitVec 64) : SamePage e e := ⟨rfl, rfl, rfl⟩

theorem frameOf_of_leaf (h : n < userPages → leaf s' r' n = leaf s r n) : frameOf s' r' n = frameOf s r n :=
  frameOf_congr fun hn => h hn ▸ .refl _

theorem pageOf_congr (hframe : frameOf s' r' n = frameOf s r n)
    (hmem : ∀ d, frameOf s r n = some d → s'.mem d = s.mem d) : pageOf s' r' n = pageOf s r n := by
  rw [pageOf, pageOf, hframe]
  cases hd : frameOf s r n with
  | none => rfl
  | some d => rw [map_some, map_some, hmem d hd]

namespace CowState

variable (h : CowState s live kernel)

include h

theorem frames_held : Held s live := fun r hr n hn hpresent =>
  (h.held r hr n _ (frameOf_eq_some.mpr ⟨hn, hpresent, rfl⟩)).2

section

variable (hr : r ∈ live) (hd : frameOf s r n = some d)

include hr hd

theorem not_table : ¬ IsTable s live d ∧ d ∉ kernel := by
  obtain ⟨hn, hpresent, rfl⟩ := frameOf_eq_some.mp hd
  exact h.spaces.data r hr n hn hpresent

theorem storePage (hwritable : hasFlag (leaf s r n) pteWritable) (page : ℕ → BitVec 64):
    let s' : Machine := { s with mem := update s.mem d page }
    CowState s' live kernel ∧
      ∀ r' ∈ live, ∀ m, pageOf s' r' m = if r' = r ∧ m = n then some page else pageOf s r' m := by
  intro s'
  have hdata := h.not_table hr hd
  have htables (f : ℕ) (hf : IsTable s live f) : s'.mem f = s.mem f := by
    refine update_of_ne ?_ _ _
    rintro rfl
    exact hdata.1 hf
  have hkernel (f : ℕ) (hf : f ∈ kernel) : s'.mem f = s.mem f := by
    refine update_of_ne ?_ _ _
    rintro rfl
    exact hdata.2 hf
  have hleaf (x : ℕ) (hx : x ∈ live) (m : ℕ) : leaf s' x m = leaf s x m := leaf_of_frames htables hx
  have hframe (x : ℕ) (hx : x ∈ live) (m : ℕ) : frameOf s' x m = frameOf s x m :=
    frameOf_of_leaf fun _ => hleaf x hx m
  refine ⟨⟨?_, fun x hx m f hf => ?_, ?_, fun x hx m f hf hw => ?_⟩, fun x hx m => ?_⟩
  · exact h.spaces.of_frames htables hkernel rfl fun f hf =>
      h.spaces.tables.used hf
  · exact h.held x hx m f ((hframe x hx m).symm.trans hf)
  · exact h.counted.congr hframe fun _ _ _ _ _ => rfl
  · rw [hframe x hx] at hf
    rw [hleaf x hx] at hw
    exact h.writable x hx m f hf hw
  · split_ifs with heq
    · obtain ⟨rfl, rfl⟩ := heq
      rw [pageOf, hframe x hx, hd]
      exact congrArg some (update_self _ _ _)
    · refine pageOf_congr (hframe x hx m) fun f hf => update_of_ne ?_ _ _
      rintro rfl
      exact heq (h.counted.backed.sole hr hd (h.writable r hr n f hd hwritable).le hx hf)

theorem takeOver (hsole : refs s d = 1) (ht : tableAt s r (ptPath (n * pageSize)) = some pt):
    let s' := setEntry pt (ptIndex (n * pageSize)) (soleEntry (leaf s r n)) s
    CowState s' live kernel ∧ ∀ r' ∈ live, ∀ m, pageOf s' r' m = pageOf s r' m := by
  intro s'
  obtain ⟨hn, hpresent, hdframe⟩ := frameOf_eq_some.mp hd
  have hsame := samePage_soleEntry (leaf s r n)
  have hdata := h.spaces.data r hr n hn hpresent
  have hpt : IsTable s live pt := ⟨r, hr, _, tablePath_ptPath _, ht⟩
  have hspaces : UserSpaces s' live kernel := h.spaces.setLeaf hr hn ht fun _ => by
    rw [hsame.frame, hsame.huge]
    exact ⟨h.spaces.plain r hr n hn hpresent, hdata⟩
  have hleaf (x : ℕ) (hx : x ∈ live) (m : ℕ) (hm : m < userPages) :
      leaf s' x m = if x = r ∧ m = n then soleEntry (leaf s r n) else leaf s x m :=
    h.spaces.leaf_setLeaf hr hn ht hx hm
  have hframe (x : ℕ) (hx : x ∈ live) (m : ℕ) : frameOf s' x m = frameOf s x m :=
    frameOf_congr fun hm => by
      rw [hleaf x hx m hm]
      split_ifs with heq
      · rw [heq.1, heq.2]
        exact hsame
      · exact .refl _
  refine ⟨⟨hspaces, fun x hx m f hf => h.held x hx m f ((hframe x hx m).symm.trans hf),
    h.counted.congr hframe fun _ _ _ _ _ => rfl, fun x hx m f hf hw => ?_⟩, fun x hx m => ?_⟩
  · rw [hframe x hx] at hf
    rw [hleaf x hx m (frameOf_eq_some.mp hf).1] at hw
    split_ifs at hw with heq
    · obtain ⟨rfl, rfl⟩ := heq
      obtain rfl := some.inj (hd.symm.trans hf)
      exact hsole
    · exact h.writable x hx m f hf hw
  · refine pageOf_congr (hframe x hx m) fun f hf => update_of_ne ?_ _ _
    rintro rfl
    exact (h.not_table hx hf).1 hpt

theorem copied (hshared : refs s d ≠ 1) (hz : Free s.pmm z) (hcopy : PageCopied live kernel r n z s s'):
    CowState s' live kernel ∧ ∀ r' ∈ live, ∀ m, pageOf s' r' m = pageOf s r' m := by
  obtain ⟨hn, hpresent, hdframe⟩ := frameOf_eq_some.mp hd
  obtain ⟨hzframe, hzpresent, -, hzwritable⟩ := privateEntry_spec hz.1 (leaf s r n)
  obtain ⟨hdlt, hdused⟩ := h.held r hr n d hd
  have hpmm := hcopy.pmm
  rw [hdframe] at hpmm
  have hmany : 1 < refs s d := by
    have := h.counted.pos hr hd
    omega
  have hframe (x : ℕ) (hx : x ∈ live) (m : ℕ) :
      frameOf s' x m = if x = r ∧ m = n then some z else frameOf s x m := by
    split_ifs with heq
    · rw [frameOf_eq_some, hcopy.leaf_eq x hx m (heq.2 ▸ hn), if_pos heq, heq.2]
      exact ⟨hn, hzpresent.trans hpresent, hzframe⟩
    · exact frameOf_congr fun hm => by rw [hcopy.leaf_eq x hx m hm, if_neg heq]; exact .refl _
  have hdrefs : ((takeFrame z s.pmm).refcounts d).toNat = refs s d := by
    rw [refcounts_takeFrame hz hdused]
    rfl
  obtain ⟨hdused', hdrefs'⟩ := pmmFreeFrame_shared hdlt (not_free_takeFrame hdused) (hdrefs ▸ hmany)
  have hzrefs : refs s' z = 1 := by
    rw [refs, hpmm, refcounts_pmmFreeFrame (hz.ne hdused).symm]
    simp [takeFrame]
  have hrefs (f : ℕ) (hf : ¬ Free s.pmm f) : refs s' f = if f = d then refs s f - 1 else refs s f := by
    rw [refs, hpmm]
    split_ifs with heq
    · subst heq
      rw [hdrefs', hdrefs]
    · rw [refcounts_pmmFreeFrame heq, refcounts_takeFrame hz hf]
      rfl
  have hused (f : ℕ) (hf : ¬ Free s.pmm f) : ¬ Free s'.pmm f := by
    rw [hpmm]
    by_cases hfd : f = d
    · subst hfd
      exact hdused'
    · exact not_free_pmmFreeFrame hfd (not_free_takeFrame hf)
  refine ⟨⟨hcopy.spaces, fun x hx m f hf => ?_, ?_, fun x hx m f hf hw => ?_⟩, fun x hx m => ?_⟩
  · rw [hframe x hx] at hf
    split at hf
    · obtain rfl := some.inj hf
      refine ⟨hz.1, ?_⟩
      rw [hpmm]
      exact not_free_pmmFreeFrame (hz.ne hdused).symm not_free_takeFrame_self
    · obtain ⟨hlt, hf⟩ := h.held x hx m f hf
      exact ⟨hlt, hused f hf⟩
  · refine h.counted.move hr hd (fun x hx m hf => (h.held x hx m z hf).2 hz) hframe hzrefs
      fun x hx m f hf => hrefs f (h.held x hx m f hf).2
  · rw [hframe x hx] at hf
    split_ifs at hf with hne'
    · obtain rfl := some.inj hf
      exact hzrefs
    · rw [hcopy.leaf_eq x hx m (frameOf_eq_some.mp hf).1, if_neg hne'] at hw
      have hone := h.writable x hx m f hf hw
      rw [hrefs f (h.held x hx m f hf).2, if_neg, hone]
      rintro rfl
      exact hshared hone
  · by_cases heq : x = r ∧ m = n
    · obtain ⟨rfl, rfl⟩ := heq
      rw [pageOf, pageOf, hframe x hx, if_pos ⟨rfl, rfl⟩, hd, map_some, map_some,
        hcopy.copy, hdframe]
    · refine pageOf_congr (by rw [hframe x hx, if_neg heq]) fun f hf => ?_
      exact hcopy.memory f (h.not_table hx hf).1 (hz.ne (h.held x hx m f hf).2)

end

theorem fault {errorCode : BitVec 64} (hr : r ∈ live) (hv : v < userPages * pageSize)
    (hfault : vmmHandlePageFault r v errorCode s = .resolved s') :
    CowState s' live kernel ∧ ∀ r' ∈ live, ∀ m, pageOf s' r' m = pageOf s r' m := by
  have hn := page_lt hv
  obtain ⟨hpresent, hres⟩ := h.spaces.tables.resolution hr hfault
  have hd := frameOf_eq_some.mpr ⟨hn, hpresent, rfl⟩
  have hcount := pmmGetRefcount_eq (m := s.pmm) (h.held r hr _ _ hd).1
  cases hres with
  | takeOver ht hsole =>
    refine h.takeOver hr hd ?_ ht
    rw [refs, ← hcount, hsole]
    rfl
  | copy ht hshared hz =>
    refine h.copied hr hd (fun hone => hshared ?_) hz (pageCopied_copyPage h.spaces hr hn ht hpresent hz)
    rw [hcount]
    exact BitVec.eq_of_toNat_eq hone

end CowState

end

end AetherOs.Paging
