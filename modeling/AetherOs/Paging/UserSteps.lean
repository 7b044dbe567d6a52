import AetherOs.Paging.MapLaw
import AetherOs.Paging.UserAccess

/-! # Steps of user processes -/

namespace AetherOs.Paging

open Base Base.Radix Function

/-! ## States of user processes and what they share with the kernel -/

section

def Space (s : Machine) (live : Finset ℕ) (r : ℕ) : Prop := r ∈ live ∨ r = s.kernelPml4

def KernelPage (s : Machine) (r v : ℕ) : Prop :=
  ¬ userIndex (pml4Index v) ∧ hasFlag (entryOf s r (ptPath v) (ptIndex v)) ptePresent = true

structure UserState (s : Machine) (live : Finset ℕ) (kernel : Set ℕ) : Prop where
  spaces : UserSpaces s live kernel
  pointers : ∀ t, OwnTable s userIndex live t → physToVirt (t * pageSize) ≠ 0
  held : ∀ r ∈ live, ∀ n d, frameOf s r n = some d → d < maxFrames ∧ ¬ Free s.pmm d
  backed : Backed live (frameOf s) (refs s)
  pages : ∀ r, Space s live r → ∀ v, KernelPage s r v → tableOf (entryOf s r (ptPath v) (ptIndex v)) ∈ kernel

structure KernelKept (live : Finset ℕ) (kernel : Set ℕ) (s s' : Machine) : Prop where
  root : ∀ r ∈ live, ∀ i, ¬ userIndex i → s'.mem r i = s.mem r i
  memory : ∀ f ∈ kernel, s'.mem f = s.mem f
  refcounts : ∀ f ∈ kernel, s'.pmm.refcounts f = s.pmm.refcounts f
  kernelPml4 : s'.kernelPml4 = s.kernelPml4

structure Keeps (live : Finset ℕ) (kernel : Set ℕ) (s s' : Machine) : Prop where
  state : UserState s' live kernel
  kernel : KernelKept live kernel s s'

def Claimed (s : Machine) (live : Finset ℕ) (kernel : Set ℕ) (f : ℕ) : Prop :=
  IsTable s live f ∨ f ∈ kernel ∨ ∃ r ∈ live, ∃ n, frameOf s r n = some f

structure Spare (s : Machine) (live : Finset ℕ) (kernel : Set ℕ) (z : ℕ) : Prop where
  lt : z < maxFrames
  used : ¬ Free s.pmm z
  unclaimed : ¬ Claimed s live kernel z
  refs_pos : 1 ≤ refs s z

variable {s s' s'' : Machine} {live : Finset ℕ} {kernel : Set ℕ} {r v i t : ℕ} {p q : List ℕ}

namespace KernelKept

theorem refl (live : Finset ℕ) (kernel : Set ℕ) (s : Machine) : KernelKept live kernel s s :=
  ⟨fun _ _ _ _ => rfl, fun _ _ => rfl, fun _ _ => rfl, rfl⟩

theorem trans (h : KernelKept live kernel s s') (h' : KernelKept live kernel s' s'') :
    KernelKept live kernel s s'' where
  root := fun r hr i hi => (h'.root r hr i hi).trans (h.root r hr i hi)
  memory := fun f hf => (h'.memory f hf).trans (h.memory f hf)
  refcounts := fun f hf => (h'.refcounts f hf).trans (h.refcounts f hf)
  kernelPml4 := h'.kernelPml4.trans h.kernelPml4

theorem not_owned_of_initial (hq : q ++ [i] <+: p) (hp : ¬ Owned userIndex p) :
    ¬ Owned userIndex (q ++ [i]) := by
  obtain ⟨rest, rfl⟩ := hq
  cases q with
  | nil => simpa [Owned] using hp
  | cons a q => simpa [Owned] using hp

theorem mem_eq (hkept : KernelKept live kernel s s') (h : UserSpaces s live kernel) (hr : Space s live r)
    (hq : TablePath q) (hown : ¬ Owned userIndex (q ++ [i])) (ht : tableAt s r q = some t) :
    s'.mem t i = s.mem t i := by
  rcases not_owned_initial List.prefix_rfl hown with rfl | hqown
  · obtain rfl := Option.some.inj ht
    rcases hr with hr | rfl
    · exact hkept.root r hr i (by simpa [Owned] using hown)
    · rw [hkept.memory _ h.kernelHalf.root]
  · have hmem : t ∈ kernel := by
      rcases hr with hr | rfl
      · exact h.tables.forest.shared_of_walk r hr q t hq hqown ht
      · exact h.kernelHalf.reach q t hq hqown ht
    rw [hkept.memory t hmem]

theorem entryOf_eq (hkept : KernelKept live kernel s s') (h : UserSpaces s live kernel)
    (hr : Space s live r) (hp : TablePath p) (hown : ¬ Owned userIndex (p ++ [i])) :
    entryOf s' r p i = entryOf s r p i := by
  refine entryOf_congr (walk_congr fun q j t hq ht => ?_) fun t ht => hkept.mem_eq h hr hp hown ht
  have hqp := hp.initial ((List.prefix_append q [j]).trans hq)
  refine hkept.mem_eq h hr hqp (not_owned_of_initial (hq.trans (List.prefix_append p [i])) hown) ht

end KernelKept

theorem UserSpaces.kernel_upper (h : UserSpaces s live kernel) (hr : Space s live r)
    (hp : TablePath (p ++ [i])) (hown : ¬ Owned userIndex (p ++ [i])) (hlen : p.length ≤ 1)
    (hpresent : hasFlag (entryOf s r p i) ptePresent) : hasFlag (entryOf s r p i) pteHuge = false := by
  rcases hr with hr | rfl
  · exact h.tables.upper r hr p i hp hlen hpresent
  · exact h.kernelHalf.upper p i hp hown hlen hpresent

theorem UserSpaces.vmmGetPhysical_kernel (h : UserSpaces s live kernel) (hr : Space s live r)
    (hv : ¬ userIndex (pml4Index v)) : vmmGetPhysical s r v =
      translate (entryOf s r (pdPath v) (pdIndex v)) (entryOf s r (ptPath v) (ptIndex v)) v := by
  have hown : ¬ Owned userIndex (ptPath v) := by simpa [Owned, ptPath] using hv
  exact vmmGetPhysical_eq_translate fun p i hp hlen =>
    h.kernel_upper hr ((tablePath_ptPath v).initial hp) (KernelKept.not_owned_of_initial hp hown) hlen

theorem KernelKept.space_iff (h : KernelKept live kernel s s') : Space s' live r ↔ Space s live r := by
  rw [Space, Space, h.kernelPml4]

theorem Keeps.vmmGetPhysical_eq (hkeeps : Keeps live kernel s s') (h : UserState s live kernel)
    (hr : Space s live r) (hv : ¬ userIndex (pml4Index v)) :
    vmmGetPhysical s' r v = vmmGetPhysical s r v := by
  have hown (p : List ℕ) : ¬ Owned userIndex (pml4Index v :: p) := by simpa [Owned] using hv
  rw [h.spaces.vmmGetPhysical_kernel hr hv,
    hkeeps.state.spaces.vmmGetPhysical_kernel (hkeeps.kernel.space_iff.mpr hr) hv,
    hkeeps.kernel.entryOf_eq h.spaces hr (tablePath_pdPath v) (hown _),
    hkeeps.kernel.entryOf_eq h.spaces hr (tablePath_ptPath v) (hown _)]

namespace Keeps

theorem refl (h : UserState s live kernel) : Keeps live kernel s s := ⟨h, .refl live kernel s⟩

theorem trans (h : Keeps live kernel s s') (h' : Keeps live kernel s' s'') : Keeps live kernel s s'' :=
  ⟨h'.state, h.kernel.trans h'.kernel⟩

end Keeps

end

/-! ## Steps of user processes -/

section

variable {s s' : Machine} {live : Finset ℕ} {kernel : Set ℕ} {r n d z f v pt : ℕ} {e flags : BitVec 64}

def clearEntry (s : Machine) (t i d : ℕ) : Machine :=
  { s with mem := store s.mem t i 0, pmm := pmmFreeFrame (d * pageSize) s.pmm }

namespace UserState

variable (h : UserState s live kernel)

include h

theorem claimed_used (hf : Claimed s live kernel f) : ¬ Free s.pmm f := by
  rcases hf with htable | hkernel | ⟨r, hr, n, hd⟩
  · exact h.spaces.tables.kept f htable
  · exact h.spaces.tables.shared_kept f hkernel
  · exact (h.held r hr n f hd).2

theorem not_table (hr : r ∈ live) (hd : frameOf s r n = some d) : ¬ IsTable s live d ∧ d ∉ kernel := by
  obtain ⟨hn, hpresent, rfl⟩ := frameOf_eq_some.mp hd
  exact h.spaces.data r hr n hn hpresent

theorem pages_of_kept (hkept : KernelKept live kernel s s') (hr : Space s' live r)
    (hv : KernelPage s' r v) : tableOf (entryOf s' r (ptPath v) (ptIndex v)) ∈ kernel := by
  have hr := hkept.space_iff.mp hr
  have hown : ¬ Owned userIndex (ptPath v ++ [ptIndex v]) := by simpa [Owned, ptPath] using hv.1
  have hentry := hkept.entryOf_eq h.spaces hr (tablePath_ptPath v) hown
  rw [hentry]
  exact h.pages r hr v ⟨hv.1, hentry ▸ hv.2⟩

theorem of_frames (s' : Machine) (hmem : ∀ f, IsTable s live f ∨ f ∈ kernel → s'.mem f = s.mem f)
    (hroot : s'.kernelPml4 = s.kernelPml4) (hkept : ∀ f, Claimed s live kernel f → ¬ Free s'.pmm f)
    (hrefs : ∀ f, Claimed s live kernel f → s'.pmm.refcounts f = s.pmm.refcounts f) :
    Keeps live kernel s s' ∧ ∀ r ∈ live, ∀ n, frameOf s' r n = frameOf s r n := by
  have htables (f : ℕ) (hf : IsTable s live f) : s'.mem f = s.mem f := hmem f (.inl hf)
  have hframe (r : ℕ) (hr : r ∈ live) (n : ℕ) : frameOf s' r n = frameOf s r n :=
    frameOf_of_leaf fun _ => leaf_of_frames htables hr
  have hkernel : KernelKept live kernel s s' :=
    ⟨fun r hr i _ => congrFun (htables r ⟨r, hr, [], .nil, rfl⟩) i,
      fun f hf => hmem f (.inr hf), fun f hf => hrefs f (.inr (.inl hf)), hroot⟩
  refine ⟨⟨⟨?_, ?_, ?_, ?_, fun r hr v hv => h.pages_of_kept hkernel hr hv⟩, hkernel⟩, hframe⟩
  · exact h.spaces.of_frames htables (fun f hf => hmem f (.inr hf)) hroot fun f hf =>
      hkept f (hf.elim .inl fun hf => .inr (.inl hf))
  · exact fun t ht => h.pointers t ((ownTable_of_frames htables).mp ht)
  · intro r hr n d hd
    rw [hframe r hr] at hd
    exact ⟨(h.held r hr n d hd).1, hkept d (.inr (.inr ⟨r, hr, n, hd⟩))⟩
  · refine h.backed.congr hframe fun r hr n d hd => ?_
    exact (congrArg BitVec.toNat (hrefs d (.inr (.inr ⟨r, hr, n, hd⟩)))).ge

theorem takeFrame (hz : Free s.pmm z) : Keeps live kernel s { s with pmm := takeFrame z s.pmm } ∧
    Spare { s with pmm := Paging.takeFrame z s.pmm } live kernel z := by
  refine ⟨(h.of_frames { s with pmm := Paging.takeFrame z s.pmm } (fun _ _ => rfl) rfl
    (fun f hf => not_free_takeFrame (h.claimed_used hf))
    fun f hf => refcounts_takeFrame hz (h.claimed_used hf)).1, hz.1, not_free_takeFrame_self, ?_, ?_⟩
  · exact fun hclaimed => h.claimed_used hclaimed hz
  · simp [refs, Paging.takeFrame]

theorem alloc : Keeps live kernel s { s with pmm := (pmmAllocFrame s.pmm).2 } ∧
    ((pmmAllocFrame s.pmm).1 ≠ 0 → ∃ z, (pmmAllocFrame s.pmm).1 = z * pageSize ∧
      Spare { s with pmm := (pmmAllocFrame s.pmm).2 } live kernel z) := by
  rcases pmmAllocFrame_cases s.pmm with hnone | ⟨z, hz, hsome⟩
  · rw [hnone]
    exact ⟨.refl h, fun hne => absurd rfl hne⟩
  · rw [hsome]
    obtain ⟨hkeeps, hspare⟩ := h.takeFrame hz
    exact ⟨hkeeps, fun _ => ⟨z, rfl, hspare⟩⟩

theorem storeSpare (hz : Spare s live kernel z) (page : ℕ → BitVec 64) :
    Keeps live kernel s { s with mem := update s.mem z page } ∧
      Spare { s with mem := update s.mem z page } live kernel z := by
  have hsame (f : ℕ) (hf : IsTable s live f ∨ f ∈ kernel) : update s.mem z page f = s.mem f := by
    refine update_of_ne ?_ _ _
    rintro rfl
    exact hz.unclaimed (hf.elim .inl fun hf => .inr (.inl hf))
  obtain ⟨hkeeps, hframe⟩ := h.of_frames { s with mem := update s.mem z page } hsame rfl
    (fun f hf => h.claimed_used hf) fun _ _ => rfl
  refine ⟨hkeeps, hz.lt, hz.used, ?_, hz.refs_pos⟩
  rintro (htable | hkernel | ⟨r, hr, n, hd⟩)
  · exact hz.unclaimed (.inl ((isTable_of_frames fun f hf => hsame f (.inl hf)).mp htable))
  · exact hz.unclaimed (.inr (.inl hkernel))
  · exact hz.unclaimed (.inr (.inr ⟨r, hr, n, (hframe r hr n).symm.trans hd⟩))

theorem freeSpare (hz : Spare s live kernel z) :
    Keeps live kernel s { s with pmm := pmmFreeFrame (z * pageSize) s.pmm } := by
  have hne (f : ℕ) (hf : Claimed s live kernel f) : f ≠ z := by
    rintro rfl
    exact hz.unclaimed hf
  exact (h.of_frames { s with pmm := pmmFreeFrame (z * pageSize) s.pmm } (fun _ _ => rfl) rfl
    (fun f hf => not_free_pmmFreeFrame (hne f hf) (h.claimed_used hf))
    fun f hf => refcounts_pmmFreeFrame (hne f hf)).1

theorem storeFrame (hr : r ∈ live) (hd : frameOf s r n = some d) (page : ℕ → BitVec 64) :
    Keeps live kernel s { s with mem := update s.mem d page } ∧
      ∀ r ∈ live, ∀ n, frameOf { s with mem := update s.mem d page } r n = frameOf s r n := by
  obtain ⟨htable, hkernel⟩ := h.not_table hr hd
  refine h.of_frames _ (fun f hf => update_of_ne ?_ _ _) rfl (fun f hf => h.claimed_used hf)
    fun _ _ => rfl
  rintro rfl
  exact hf.elim htable hkernel

theorem frames_held : Held s live := fun r hr n hn hpresent =>
  (h.held r hr n _ (frameOf_eq_some.mpr ⟨hn, hpresent, rfl⟩)).2

theorem grow (hext : Extends userIndex live kernel s s') :
    Keeps live kernel s s' ∧ (∀ r ∈ live, ∀ n, frameOf s' r n = frameOf s r n) ∧
      ∀ z, Spare s live kernel z → Spare s' live kernel z := by
  have hframe (r : ℕ) (hr : r ∈ live) (n : ℕ) : frameOf s' r n = frameOf s r n :=
    frameOf_of_leaf fun _ => leaf_of_extends hext hr
  have hkernel : KernelKept live kernel s s' := by
    refine ⟨hext.root, fun f hf => ?_, fun f hf => ?_, hext.kernel⟩
    · refine hext.memory f (h.spaces.tables.shared_kept f hf) ?_
      rintro ⟨r, hr, p, hp, hown, ht⟩
      exact h.spaces.tables.forest.not_shared r hr p f hp hown ht hf
    · exact hext.refcounts f (h.spaces.tables.shared_kept f hf)
  refine ⟨⟨⟨h.spaces.extends h.frames_held hext, fun t ht => ?_, fun r hr n d hd => ?_, ?_,
    fun r hr v hv => h.pages_of_kept hkernel hr hv⟩, hkernel⟩, hframe, fun z hz => ?_⟩
  · exact (hext.pointers t ht).elim (h.pointers t) id
  · obtain ⟨hlt, hused⟩ := h.held r hr n d ((hframe r hr n).symm.trans hd)
    exact ⟨hlt, hext.kept d hused⟩
  · refine h.backed.congr hframe fun r hr n d hd => ?_
    exact (congrArg BitVec.toNat (hext.refcounts d (h.held r hr n d hd).2)).ge
  · refine ⟨hz.lt, hext.kept z hz.used, ?_, ?_⟩
    · rintro (htable | hmem | ⟨r, hr, n, hd⟩)
      · exact not_isTable_of_extends hext hz.used
          ⟨fun ht => hz.unclaimed (.inl ht), fun hk => hz.unclaimed (.inr (.inl hk))⟩ htable
      · exact hz.unclaimed (.inr (.inl hmem))
      · exact hz.unclaimed (.inr (.inr ⟨r, hr, n, (hframe r hr n).symm.trans hd⟩))
    · rw [refs, hext.refcounts z hz.used]
      exact hz.refs_pos

section SetLeaf

variable (hr : r ∈ live) (hn : n < userPages) (ht : tableAt s r (ptPath (n * pageSize)) = some pt)

include hr hn ht

theorem kept_setLeaf (m : Pmm) (hrefs : ∀ f ∈ kernel, m.refcounts f = s.pmm.refcounts f) :
    KernelKept live kernel s { s with mem := store s.mem pt (ptIndex (n * pageSize)) e, pmm := m } := by
  have hown : Owned userIndex (ptPath (n * pageSize)) := by simpa using owned_ptPath (p := []) hn
  refine ⟨fun x hx i _ => congrFun (update_of_ne ?_ _ _) i,
    fun f hf => update_of_ne ?_ _ _, hrefs, rfl⟩
  · rintro rfl
    have hpath := (h.spaces.tables.forest.unique x hx r hr [] (ptPath (n * pageSize)) x .nil
      (tablePath_ptPath _) (by simp [Owned]) hown rfl ht).2
    simp [ptPath] at hpath
  · rintro rfl
    exact h.spaces.table_not_mem hr hn ht hf

theorem pointers_setLeaf {m : Pmm} {t : ℕ}
    (ht' : OwnTable { s with mem := store s.mem pt (ptIndex (n * pageSize)) e, pmm := m } userIndex live t) :
    physToVirt (t * pageSize) ≠ 0 := h.pointers t ((h.spaces.ownTable_setLeaf hr hn ht).mp ht')

theorem putPage (hz : Spare s live kernel z) (hpresent : hasFlag e ptePresent)
    (hplain : hasFlag e pteHuge = false) (hframe : tableOf e = z) :
    Keeps live kernel s (setEntry pt (ptIndex (n * pageSize)) e s) := by
  have hkernel : KernelKept live kernel s (setEntry pt (ptIndex (n * pageSize)) e s) :=
    h.kept_setLeaf hr hn ht s.pmm fun _ _ => rfl
  have hmap (x : ℕ) (hx : x ∈ live) (i : ℕ) : frameOf (setEntry pt (ptIndex (n * pageSize)) e s) x i =
      if x = r ∧ i = n then some z else frameOf s x i := by
    have := h.spaces.frameOf_setLeaf (e := e) (m := s.pmm) (i := i) hr hn ht hx
    rwa [hpresent, if_pos rfl, hframe] at this
  refine ⟨⟨?_, fun t ht' => h.pointers_setLeaf (m := s.pmm) hr hn ht ht', fun x hx i d hd => ?_, ?_,
    fun x hx v hv => h.pages_of_kept hkernel hx hv⟩, hkernel⟩
  · refine h.spaces.setLeaf hr hn ht fun _ => ⟨hplain, ?_⟩
    rw [hframe]
    exact ⟨fun ht => hz.unclaimed (.inl ht), fun hk => hz.unclaimed (.inr (.inl hk))⟩
  · rw [hmap x hx] at hd
    split at hd
    · obtain rfl := Option.some.inj hd
      exact ⟨hz.lt, hz.used⟩
    · exact h.held x hx i d hd
  · exact h.backed.put hr (fun x hx i hd => hz.unclaimed (.inr (.inr ⟨x, hx, i, hd⟩))) hmap hz.refs_pos
      fun _ _ _ _ _ => le_rfl

theorem dropPage (hd : frameOf s r n = some d) :
    Keeps live kernel s (clearEntry s pt (ptIndex (n * pageSize)) d) := by
  set s' := clearEntry s pt (ptIndex (n * pageSize)) d
  obtain ⟨htable, hdk⟩ := h.not_table hr hd
  obtain ⟨hlt, hused⟩ := h.held r hr n d hd
  have hne {f : ℕ} (hf : f ∈ kernel) : f ≠ d := by
    rintro rfl
    exact hdk hf
  have hkernel : KernelKept live kernel s s' :=
    h.kept_setLeaf hr hn ht _ fun f hf => refcounts_pmmFreeFrame (hne hf)
  have hmap (x : ℕ) (hx : x ∈ live) (i : ℕ) :
      frameOf s' x i =
        if x = r ∧ i = n then none else frameOf s x i := by
    have := h.spaces.frameOf_setLeaf (e := 0) (m := pmmFreeFrame (d * pageSize) s.pmm) (i := i) hr hn ht hx
    simp only [hasFlag_zero, Bool.false_eq_true, if_false] at this
    exact this
  have hold {x i f : ℕ} (hx : x ∈ live)
      (hf : frameOf s' x i = some f) :
      frameOf s x i = some f ∧ ¬ (x = r ∧ i = n) := by
    rw [hmap x hx] at hf
    split at hf
    · cases hf
    · rename_i hxi
      exact ⟨hf, hxi⟩
  have hmany {x i : ℕ} (hx : x ∈ live)
      (hf : frameOf s' x i = some d) : 1 < refs s d := by
    by_contra hone
    exact (hold hx hf).2 (h.backed.sole hr hd (by omega) hx (hold hx hf).1)
  refine ⟨⟨?_, fun t ht' => h.pointers_setLeaf hr hn ht ht', fun x hx i f hf => ?_, ?_,
    fun x hx v hv => h.pages_of_kept hkernel hx hv⟩, hkernel⟩
  · have hstored := h.spaces.setLeaf (e := 0) hr hn ht fun hpresent => by
      rw [hasFlag_zero] at hpresent
      cases hpresent
    refine hstored.of_frames (fun _ _ => rfl) (fun _ _ => rfl) rfl fun f hf => ?_
    rw [h.spaces.isTable_setLeaf hr hn ht] at hf
    refine not_free_pmmFreeFrame ?_ (h.claimed_used (hf.elim .inl fun hf => .inr (.inl hf)))
    rintro rfl
    exact hf.elim htable hdk
  · obtain ⟨hlt', hused'⟩ := h.held x hx i f (hold hx hf).1
    refine ⟨hlt', ?_⟩
    by_cases hfd : f = d
    · subst hfd
      exact (pmmFreeFrame_shared hlt hused (hmany hx hf)).1
    · exact not_free_pmmFreeFrame hfd hused'
  · refine h.backed.drop hr hd hmap fun x hx i f hf => ?_
    split
    · rename_i hfd
      subst hfd
      exact (pmmFreeFrame_shared hlt hused (hmany hx hf)).2.ge
    · rename_i hfd
      exact (congrArg BitVec.toNat (refcounts_pmmFreeFrame hfd)).ge

end SetLeaf

theorem unmap (hr : r ∈ live) (hv : userIndex (pml4Index v)) (hphys : vmmGetPhysical s r v ≠ 0) :
    Keeps live kernel s { (vmmUnmapPage r v s).2 with
      pmm := pmmFreeFrame (vmmGetPhysical s r v) (vmmUnmapPage r v s).2.pmm } := by
  obtain ⟨-, -, hpath, hidx⟩ := path_userPage v
  obtain ⟨d, hd, heq⟩ := h.spaces.vmmGetPhysical_user hr hv hphys
  obtain ⟨pt, ht, hunmap⟩ := h.spaces.vmmUnmapPage_eq h.pointers hr hv hd
  rw [heq, hunmap, pmmFreeFrame_offset (Nat.mod_lt _ (by decide)), ← hidx]
  exact h.dropPage hr (userPage_lt hv) (hpath.symm ▸ ht) hd

theorem map (hr : r ∈ live) (hv : userIndex (pml4Index v)) (hz : Spare s live kernel z)
    (hflags : SmallFlags flags) :
    Keeps live kernel s (vmmMapPage r v (z * pageSize) flags s).2 ∧
      ((vmmMapPage r v (z * pageSize) flags s).1 ≠ 0 →
        Spare (vmmMapPage r v (z * pageSize) flags s).2 live kernel z) := by
  obtain ⟨-, -, hpath, hidx⟩ := path_userPage v
  have hcases := vmmMapPage_cases h.spaces.tables hr hv (z * pageSize) flags
  generalize vmmMapPage r v (z * pageSize) flags s = res at hcases ⊢
  cases hcases with
  | failed hext =>
    obtain ⟨hkeeps, _, hspare⟩ := h.grow hext
    exact ⟨hkeeps, fun _ => hspare z hz⟩
  | huge hhuge => exact absurd hhuge (by rw [hflags.small]; decide)
  | small _ hext ht =>
    obtain ⟨hkeeps, _, hspare⟩ := h.grow hext
    obtain ⟨hpresent, hframe⟩ := smallEntry_frame hz.lt hflags.only
    refine ⟨hkeeps.trans ?_, fun hne => absurd rfl hne⟩
    rw [← hidx]
    exact hkeeps.state.putPage hr (userPage_lt hv) (hpath.symm ▸ ht) (hspare z hz) hpresent
      ((hasFlag_smallEntry_huge _ _).trans hflags.small) hframe

theorem create (hcreate : vmmCreateAddressSpace s = (some z, s')) :
    UserState s' (insert z live) kernel ∧ KernelKept live kernel s s' := by
  obtain ⟨hz, hptr, rfl⟩ :=
    vmmCreateAddressSpace_eq (h.spaces.tables.shared_kept _ h.spaces.kernelHalf.root) hcreate
  obtain ⟨hspaces, -, hempty⟩ := h.spaces.create h.frames_held hz
  obtain ⟨htake, hspare⟩ := h.takeFrame hz
  have hkeeps : Keeps live kernel s (newSpace s z) := htake.trans (htake.state.storeSpare hspare _).1
  have hnone := hempty.frameOf_eq_none
  refine ⟨⟨by rwa [Finset.coe_insert], ?_, ?_, hkeeps.state.backed.join hnone, ?_⟩, hkeeps.kernel⟩
  · rintro t ⟨r, hr, p, hp, hown, ht⟩
    rcases Finset.mem_insert.mp hr with rfl | hr
    · obtain ⟨-, rfl⟩ := hempty.tableAt_user hown ht
      exact hptr
    · exact hkeeps.state.pointers t ⟨r, hr, p, hp, hown, ht⟩
  · intro r hr n d hd
    rcases Finset.mem_insert.mp hr with rfl | hr
    · rw [hnone] at hd
      cases hd
    · exact hkeeps.state.held r hr n d hd
  · rintro r (hr | rfl) v hv
    · rcases Finset.mem_insert.mp hr with rfl | hr
      · have hentry := hempty.entryOf_ptPath v hv.1
        rw [hentry]
        exact hkeeps.state.pages _ (.inr rfl) v ⟨hv.1, hentry ▸ hv.2⟩
      · exact hkeeps.state.pages r (.inl hr) v hv
    · exact hkeeps.state.pages _ (.inr rfl) v hv

end UserState

theorem UserState.none (hkernel : KernelHalf s kernel) (hkept : ∀ t ∈ kernel, ¬ Free s.pmm t)
    (hpages : ∀ v, KernelPage s s.kernelPml4 v →
      tableOf (entryOf s s.kernelPml4 (ptPath v) (ptIndex v)) ∈ kernel) :
    UserState s ∅ kernel := by
  refine ⟨⟨⟨⟨?_, ?_, ?_⟩, ?_, hkept, ?_⟩, hkernel, ?_, ?_, ?_⟩, ?_, ?_, ⟨?_, ?_⟩, ?_⟩ <;>
    try simp [IsTable, Node, OwnTable]
  rintro r (hr | rfl) v hv
  · simp at hr
  · exact hpages v hv

end

/-! ## What user pages hold after a step -/

section

variable {s : Machine} {live : Finset ℕ} {kernel : Set ℕ} {r n m d z v : ℕ} {flags : BitVec 64}

theorem Spare.pageOf_store (hz : Spare s live kernel z) (hr : r ∈ live) (page : ℕ → BitVec 64) :
    pageOf { s with mem := update s.mem z page } r m = pageOf s r m := by
  let s' : Machine := { s with mem := update s.mem z page }
  have hsame (f : ℕ) (hf : IsTable s live f) : s'.mem f = s.mem f := by
    refine update_of_ne ?_ _ _
    rintro rfl
    exact hz.unclaimed (.inl hf)
  refine pageOf_congr (frameOf_of_leaf fun _ => leaf_of_frames hsame hr) fun f hf => update_of_ne ?_ _ _
  rintro rfl
  exact hz.unclaimed (.inr (.inr ⟨r, hr, m, hf⟩))

namespace UserState

variable (h : UserState s live kernel) (hr : r ∈ live)

include h hr

theorem pageOf_storeFrame (hd : frameOf s r n = some d) (page : ℕ → BitVec 64) :
    pageOf { s with mem := update s.mem d page } r m = if m = n then some page else pageOf s r m := by
  have hframe := (h.storeFrame hr hd page).2 r hr
  split_ifs with hmn
  · rw [pageOf, hframe, hmn, hd]
    exact congrArg some (update_self _ _ _)
  · refine pageOf_congr (hframe m) fun f hf => update_of_ne ?_ _ _
    rintro rfl
    exact hmn (h.backed.same_page r hr r hr m n f hf hd)

theorem pageOf_map (hv : userIndex (pml4Index v)) (hz : Spare s live kernel z) (hflags : SmallFlags flags) (hok : (vmmMapPage r v (z * pageSize) flags s).1 = 0) :
    pageOf (vmmMapPage r v (z * pageSize) flags s).2 r m =
      if m = userPage v then some (s.mem z) else pageOf s r m := by
  obtain ⟨-, -, hpath, hidx⟩ := path_userPage v
  have hcases := vmmMapPage_cases h.spaces.tables hr hv (z * pageSize) flags
  generalize vmmMapPage r v (z * pageSize) flags s = res at hcases hok ⊢
  cases hcases with
  | failed hext => exact absurd hok (by decide : (-1 : ℤ) ≠ 0)
  | huge hhuge => exact absurd hhuge (by rw [hflags.small]; decide)
  | @small s₁ pt _ hext ht =>
    obtain ⟨hkeeps, hframes, hspare⟩ := h.grow hext
    obtain ⟨hpresent, hframe⟩ := smallEntry_frame hz.lt hflags.only
    rw [← hidx]
    rw [← hpath] at ht
    have hmapped : frameOf (setEntry pt (ptIndex (userPage v * pageSize)) (smallEntry (z * pageSize) flags) s₁) r m =
        if r = r ∧ m = userPage v then some z else frameOf s₁ r m := by
      have := hkeeps.state.spaces.frameOf_setLeaf (e := smallEntry (z * pageSize) flags) (m := s₁.pmm) (i := m) hr
        (userPage_lt hv) ht hr
      rwa [hpresent, if_pos rfl, hframe] at this
    have hpt : IsTable s₁ live pt := ⟨r, hr, _, tablePath_ptPath _, ht⟩
    have hmem (f : ℕ) (hf : f = z ∨ ∃ n, frameOf s r n = some f) :
        (setEntry pt (ptIndex (userPage v * pageSize)) (smallEntry (z * pageSize) flags) s₁).mem f = s.mem f := by
      have hne : f ≠ pt := by
        rintro rfl
        rcases hf with rfl | ⟨n, hn⟩
        · exact (hspare f hz).unclaimed (.inl hpt)
        · exact (hkeeps.state.not_table hr ((hframes r hr n).trans hn)).1 hpt
      refine (update_of_ne hne _ _).trans ?_
      rcases hf with rfl | ⟨n, hn⟩
      · exact hext.memory f hz.used fun hown => hz.unclaimed (.inl hown.isTable)
      · exact hext.memory f (h.held r hr n f hn).2 fun hown => (h.not_table hr hn).1 hown.isTable
    split_ifs with hm
    · rw [pageOf, hmapped, if_pos ⟨rfl, hm⟩, Option.map_some, hmem z (.inl rfl)]
    · rw [if_neg fun heq => hm heq.2, hframes r hr] at hmapped
      exact pageOf_congr hmapped fun f hf => hmem f (.inr ⟨m, hf⟩)

end UserState

end

end AetherOs.Paging
