import AetherOs.Shm.Lifetimes

/-! # Several regions in one process -/

namespace AetherOs.Shm

open Base Base.Radix Paging Function Option List

inductive RegionCall
  | open (name : Option (List UInt8)) (size : ℕ)
  | map (shmId : ℕ) (flags : BitVec 64)
  | unmap (vaddr : ℕ)

namespace RegionCall

def call : RegionCall → Call
  | .open name size => .shmOpen name size
  | .map shmId flags => .shmMap shmId flags
  | .unmap vaddr => .shmUnmap vaddr

def result (task : Task) (k : ShmKernel) : RegionCall → ℤ
  | .open name size => (sysShmOpen name size k).1
  | .map shmId flags => (sysShmMap (some task) shmId flags k).1
  | .unmap vaddr => (sysShmUnmap (some task) vaddr k).1

end RegionCall

structure Mapping where
  region : ℕ
  flags : BitVec 32
  deriving DecidableEq

def track (task : Task) (k : ShmKernel) (mapped : List Mapping) (c : RegionCall) : List Mapping :=
  if c.result task k < 0 then mapped
  else
    match c with
    | .open _ _ => mapped
    | .map shmId flags => ⟨shmId, flags.setWidth 32⟩ :: mapped
    | .unmap _ => mapped.tail

def RegionStep (p : ℕ) (s : ShmKernel × List Mapping) (c : RegionCall) (s' : ShmKernel × List Mapping) : Prop :=
  Step s.1 (p, c.call) s'.1 ∧ ∀ task ∈ s.1.processTable p, s'.2 = track task s.1 s.2 c

structure Intact (k : ShmKernel) (pml4 : ℕ) (m : Mapping) : Prop where
  lt : m.region < shmMaxRegions
  valid : (k.shmTable m.region).valid = true
  page : ∀ i < (k.shmTable m.region).numPages,
    leaf k.machine pml4 (shmPage + i) = smallEntry ((k.shmTable m.region).physPages i) (mapFlags m.flags)

def Undisturbed (p : ℕ) (s : ShmKernel × List Mapping) (c : RegionCall) (s' : ShmKernel × List Mapping) : Prop :=
  ∀ task ∈ s.1.processTable p,
    (∀ m ∈ s'.2, Intact s'.1 task.addressSpace m) ∧
    ∀ v m rest, c = .unmap v → s.2 = m :: rest → 0 ≤ c.result task s.1 → ∀ n < userPages,
      if ∃ i < (s.1.shmTable m.region).numPages, n = shmPage + i
      then hasFlag (leaf s'.1.machine task.addressSpace n) ptePresent = false
      else leaf s'.1.machine task.addressSpace n = leaf s.1.machine task.addressSpace n

def OneAtATime (p : ℕ) (s : ShmKernel × List Mapping) (c : RegionCall) : Prop :=
  Safe s.1 (p, c.call) ∧
    match c with
    | .open _ _ => True
    | .map _ _ => s.2 = []
    | .unmap v => v = shmBase

instance (p : ℕ) (s : ShmKernel × List Mapping) : DecidablePred (OneAtATime p s)
  | .open _ _ => inferInstanceAs (Decidable (_ ∧ True))
  | .map _ _ => inferInstanceAs (Decidable (_ ∧ _ = _))
  | .unmap _ => inferInstanceAs (Decidable (_ ∧ _ = _))

variable {kernel : Set ℕ} {k k' : ShmKernel} {p a n count : ℕ} {task : Task} {m : Mapping} {c : RegionCall} {pml4 : ℕ}
  {s s' : ShmKernel × List Mapping}

theorem free_allocPage {m₀ : Pmm} {i : ℕ} {st : Pmm × (ℕ → ℕ)} (hfree : ∀ f, Free st.1 f → Free m₀ f)
    (hpages : ∀ j < i, Free m₀ (st.2 j / pageSize)) :
    Ends (fun st' => (∀ f, Free st'.1 f → Free m₀ f) ∧ ∀ j < i + 1, Free m₀ (st'.2 j / pageSize))
      (fun _ => True) (allocPage st i) := by
  rw [allocPage]
  rcases pmmAllocFrame_cases st.1 with hnone | ⟨f, hf, hsome⟩
  · rw [hnone]
    trivial
  · rw [hsome]
    dsimp only
    split
    · trivial
    · refine ⟨fun g hg => hfree g (not_imp_not.mp not_free_takeFrame hg), fun j hj => ?_⟩
      dsimp only
      rw [update_apply]
      split_ifs with heq
      · rw [frame_div]
        exact hfree f hf
      · exact hpages j (by omega)

theorem free_allocPages (m₀ : Pmm) (pages : ℕ → ℕ) (count : ℕ) :
    Ends (fun st' : Pmm × (ℕ → ℕ) => (∀ f, Free st'.1 f → Free m₀ f) ∧ ∀ j < count, Free m₀ (st'.2 j / pageSize))
      (fun _ => True) ((range count).foldlM allocPage (m₀, pages)) := by
  refine foldlM_range_outcomes (f := allocPage) (s := (m₀, pages))
    (fun i st => (∀ f, Free st.1 f → Free m₀ f) ∧ ∀ j < i, Free m₀ (st.2 j / pageSize))
    ⟨fun _ hf => hf, fun j hj => absurd hj (Nat.not_lt_zero j)⟩ ?_ rfl
  intro i _ st hst
  exact free_allocPage hst.1 hst.2

structure Opened (k k' : ShmKernel) : Prop where
  tasks : k'.processTable = k.processTable
  regions : ∀ a, (k.shmTable a).valid = true → k'.shmTable a = k.shmTable a
  mem : ∀ f, ¬ Free k.machine.pmm f → k'.machine.mem f = k.machine.mem f

theorem Opened.refl (k : ShmKernel) : Opened k k := ⟨rfl, fun _ _ => rfl, fun _ _ => rfl⟩

theorem zeroPages_of_used {pages : ℕ → ℕ} {f : ℕ} (mem : ℕ → ℕ → BitVec 64)
    (hpages : ∀ j < count, Free k.machine.pmm (pages j / pageSize)) (hf : ¬ Free k.machine.pmm f) :
    zeroPages pages count mem f = mem f := by
  refine foldl_range_invariant (fun _ (mem' : ℕ → ℕ → BitVec 64) => mem' f = mem f) rfl
    fun j hj mem' hmem => (fill_of_ne ?_).trans hmem
  rintro rfl
  exact hf (hpages j hj)

theorem opened_shmCreate (name : List UInt8) (size : ℕ) (k : ShmKernel) : Opened k (shmCreate name size k).2 := by
  rw [shmCreate]
  split_ifs
  · exact .refl k
  · exact .refl k
  cases hslot : shmAllocSlot k with
  | none => exact .refl k
  | some b =>
    obtain ⟨-, -, hempty, -⟩ := search_some hslot
    have htable (r : Region) (a : ℕ) (ha : (k.shmTable a).valid) :
        (k.setRegion b r).shmTable a = k.shmTable a := by
      refine update_of_ne ?_ _ _
      rintro rfl
      rw [ha] at hempty
      cases hempty
    have hloop := free_allocPages k.machine.pmm (k.shmTable b).physPages (alignUp size pageSize / pageSize)
    dsimp only
    cases hres : (range (alignUp size pageSize / pageSize)).foldlM allocPage
      (k.machine.pmm, (k.shmTable b).physPages) with
    | error e => exact ⟨rfl, htable _, fun _ _ => rfl⟩
    | ok st =>
      rw [hres] at hloop
      exact ⟨rfl, htable _, fun f hf => zeroPages_of_used k.machine.mem hloop.2 hf⟩

theorem opened_sysShmOpen (name : Option (List UInt8)) (size : ℕ) (k : ShmKernel) :
    Opened k (sysShmOpen name size k).2 := by
  cases name with
  | none => exact .refl k
  | some name =>
    simp only [sysShmOpen]
    cases shmFindByName name k with
    | some a => exact .refl k
    | none =>
      dsimp only
      split
      · exact .refl k
      · have hname := opened_shmCreate name size k
        generalize shmCreate name size k = res at hname ⊢
        obtain ⟨_ | a, k'⟩ := res
        · exact hname
        · exact hname

theorem Intact.congr {pml4 : ℕ} (h : Intact k pml4 m) (hregion : k'.shmTable m.region = k.shmTable m.region)
    (hleaf : ∀ n, leaf k'.machine pml4 n = leaf k.machine pml4 n) : Intact k' pml4 m := by
  refine ⟨h.lt, by rw [hregion]; exact h.valid, fun i hi => ?_⟩
  rw [hregion] at hi ⊢
  rw [hleaf]
  exact h.page i hi

theorem Intact.open {pml4 : ℕ} (h : Intact k pml4 m) (hs : Sound kernel k) (hspace : pml4 ∈ liveSpaces k)
    (name : Option (List UInt8)) (size : ℕ) : Intact (sysShmOpen name size k).2 pml4 m := by
  have hopen := opened_sysShmOpen name size k
  refine h.congr (hopen.regions _ h.valid) fun n => ?_
  exact leaf_of_frames (fun f hf => hopen.mem f (hs.state.spaces.tables.kept f hf)) hspace

theorem shmTable_setRegion_self (k : ShmKernel) (a : ℕ) (r : Region) : (k.setRegion a r).shmTable a = r :=
  update_self _ _ _

theorem sysShmMap_cases (task : Task) (shmId : ℕ) (flags : BitVec 64) (k : ShmKernel) :
    (sysShmMap (some task) shmId flags k).2.processTable = k.processTable ∧
    ((sysShmMap (some task) shmId flags k).1 < 0 ∨
      shmId < shmMaxRegions ∧ (k.shmTable shmId).valid ∧ ∃ t,
        (range (k.shmTable shmId).numPages).foldlM
          (shmMapPage (k.shmTable shmId).physPages task.addressSpace (mapFlags (flags.setWidth 32))) k.machine = .ok t ∧
        (sysShmMap (some task) shmId flags k).2 = (k.setRegion shmId
          { k.shmTable shmId with refcount := (k.shmTable shmId).refcount + 1 }).withMachine t) := by
  rw [sysShmMap]
  split_ifs with hvalid
  · exact ⟨rfl, .inl (show (-einval : ℤ) < 0 by decide)⟩
  · obtain ⟨hid, hvalid⟩ := not_or.mp hvalid
    dsimp only
    cases hres : (range (k.shmTable shmId).numPages).foldlM
      (shmMapPage (k.shmTable shmId).physPages task.addressSpace (mapFlags (flags.setWidth 32))) k.machine with
    | error e =>
      have hmap : shmMap shmId task.addressSpace (flags.setWidth 32) k =
          (0, k.withMachine (unmapPages task.addressSpace shmBase e.1 e.2)) := by simp only [shmMap, hres]
      rw [hmap]
      exact ⟨rfl, .inl (show (-enomem : ℤ) < 0 by decide)⟩
    | ok t =>
      have hmap : shmMap shmId task.addressSpace (flags.setWidth 32) k = (shmBase, (k.setRegion shmId
          { k.shmTable shmId with refcount := (k.shmTable shmId).refcount + 1 }).withMachine t) := by
        simp only [shmMap, hres]
      rw [hmap]
      exact ⟨rfl, .inr ⟨by omega, by simpa using hvalid, t, rfl, rfl⟩⟩

theorem intact_sysShmMap {shmId : ℕ} {flags : BitVec 64} (hs : Sound kernel k) (hspace : task.addressSpace ∈ liveSpaces k)
    (hok : ¬ (sysShmMap (some task) shmId flags k).1 < 0) :
    Intact (sysShmMap (some task) shmId flags k).2 task.addressSpace ⟨shmId, flags.setWidth 32⟩ := by
  obtain ⟨hid, hvalid, t, hres, hmap⟩ := (sysShmMap_cases task shmId flags k).2.resolve_left hok
  have hloop := hs.mapPages hspace hid hvalid (flags.setWidth 32)
  rw [hres] at hloop
  rw [hmap]
  have hself := shmTable_setRegion_self k shmId { k.shmTable shmId with refcount := (k.shmTable shmId).refcount + 1 }
  have hpages := congrArg Region.physPages hself
  have hcount := congrArg Region.numPages hself
  refine ⟨hid, ?_, fun i hi => ?_⟩
  · exact (congrArg Region.valid hself).trans hvalid
  · have hi : i < (k.shmTable shmId).numPages := lt_of_lt_of_eq hi hcount
    exact (hloop.2 i hi).trans (congrArg (fun pages : ℕ → ℕ => smallEntry (pages i) _) hpages.symm)

theorem shmDestroy_other (a : ℕ) (k : ShmKernel) : (shmDestroy a k).processTable = k.processTable ∧
    ∀ r n, leaf (shmDestroy a k).machine r n = leaf k.machine r n := by
  rw [shmDestroy]
  split
  · exact ⟨rfl, fun _ _ => rfl⟩
  · exact ⟨rfl, fun _ _ => rfl⟩

theorem sysShmUnmap_cases (task : Task) (v : ℕ) (k : ShmKernel) :
    sysShmUnmap (some task) v k = (-einval, k) ∨ ∃ a, regionAt task.addressSpace v k = some a ∧
      (sysShmUnmap (some task) v k).2.processTable = k.processTable ∧
      ∀ n, leaf (sysShmUnmap (some task) v k).2.machine task.addressSpace n =
        leaf (unmapPages task.addressSpace v (k.shmTable a).numPages k.machine) task.addressSpace n := by
  simp only [sysShmUnmap]
  cases regionAt task.addressSpace v k with
  | none => exact .inl rfl
  | some a =>
    refine .inr ⟨a, rfl, ?_⟩
    simp only [shmUnmap]
    generalize (if 0 < (k.shmTable a).refcount then (k.shmTable a).refcount - 1 else (k.shmTable a).refcount) = c
    split
    · obtain ⟨htasks, hmem⟩ := shmDestroy_other a ((k.setRegion a { k.shmTable a with refcount := c }).withMachine
        (unmapPages task.addressSpace v (k.shmTable a).numPages k.machine))
      exact ⟨htasks, hmem task.addressSpace⟩
    · exact ⟨rfl, fun _ => rfl⟩

theorem sysShmUnmap_failed {v : ℕ} (herr : (sysShmUnmap (some task) v k).1 < 0) :
    (sysShmUnmap (some task) v k).2 = k := by
  simp only [sysShmUnmap] at herr ⊢
  cases hat : regionAt task.addressSpace v k with
  | none => rfl
  | some a =>
    rw [hat] at herr
    exact absurd herr (lt_irrefl 0)

theorem Intact.region_eq (h : Intact k pml4 m) (hs : Sound kernel k) (hspace : pml4 ∈ liveSpaces k)
    (hat : regionAt pml4 shmBase k = some a) : a = m.region := by
  obtain ⟨ha, hvalid, hpage⟩ := hs.regionAt_spec hspace hat
  have hfound := (hpage (by decide)).2
  have hframe : RegionFrame k m.region 0 ((k.shmTable m.region).frame 0) :=
    ⟨h.lt, h.valid, hs.pages_pos _ h.lt h.valid, rfl⟩
  have hlt := (hs.state.kept _ (.inl ⟨_, _, hframe⟩)).1
  have hentry := h.page 0 hframe.2.2.1
  rw [hs.aligned _ _ _ hframe] at hentry
  obtain ⟨-, hd⟩ := smallEntry_frame hlt (smallFlags_mapFlags m.flags).1
  rw [← hentry] at hd
  obtain ⟨-, -, hframe'⟩ := frameOf_eq_some.mp hfound
  have hsame : (k.shmTable a).frame 0 = (k.shmTable m.region).frame 0 := hframe'.symm.trans hd
  exact (hs.regions_apart a 0 m.region 0 _ ⟨ha, hvalid, hs.pages_pos a ha hvalid, hsame⟩ hframe).1

theorem inPages_shmBase (hcount : count ≤ shmMaxPages) :
    InPages shmBase count n ↔ ∃ i < count, n = shmPage + i := by
  refine exists_congr fun i => and_congr_right fun hi => ?_
  obtain ⟨huser, hpage⟩ := userPage_addWord (v := shmBase) (by decide) (lt_of_lt_of_le hi hcount)
  rw [hpage]
  exact and_iff_right huser

structure Single (kernel : Set ℕ) (p : ℕ) (s : ShmKernel × List Mapping) : Prop where
  sound : Sound kernel s.1
  single : s.2.length ≤ 1
  intact : ∀ task ∈ s.1.processTable p, ∀ m ∈ s.2, Intact s.1 task.addressSpace m

theorem processTable_serve (p : ℕ) (task : Task) (k : ShmKernel) (c : RegionCall) :
    (serve p task k c.call).processTable = k.processTable := by
  cases c with
  | «open» name size => exact (opened_sysShmOpen name size k).tasks
  | map shmId flags => exact (sysShmMap_cases task shmId flags k).1
  | unmap v =>
    change (sysShmUnmap (some task) v k).2.processTable = _
    obtain heq | ⟨a, -, htasks, -⟩ := sysShmUnmap_cases task v k
    · rw [heq]
    · exact htasks

theorem Single.intact_serve (h : Single kernel p s) (hc : OneAtATime p s c) (htask : s.1.processTable p = some task)
    (hspace : task.addressSpace ∈ liveSpaces s.1) :
    (track task s.1 s.2 c).length ≤ 1 ∧
      ∀ m ∈ track task s.1 s.2 c, Intact (serve p task s.1 c.call) task.addressSpace m := by
  have hintact := h.intact task htask
  cases c with
  | «open» name size =>
    change (ite _ s.2 s.2).length ≤ 1 ∧ ∀ m ∈ ite _ s.2 s.2, _
    rw [ite_self]
    exact ⟨h.single, fun m hm => (hintact m hm).open h.sound hspace name size⟩
  | map shmId flags =>
    rw [track, hc.2]
    split
    · exact ⟨Nat.zero_le 1, fun m hm => absurd hm not_mem_nil⟩
    · rename_i hok
      refine ⟨le_rfl, fun m hm => ?_⟩
      rw [mem_singleton.mp hm]
      exact intact_sysShmMap h.sound hspace hok
  | unmap v =>
    have htail : s.2.tail = [] := length_eq_zero_iff.mp (by rw [length_tail, Nat.sub_eq_zero_of_le h.single])
    rw [track, htail]
    split
    · rename_i herr
      refine ⟨h.single, fun m hm => ?_⟩
      change Intact (sysShmUnmap (some task) v s.1).2 _ _
      rw [sysShmUnmap_failed herr]
      exact hintact m hm
    · exact ⟨Nat.zero_le 1, fun m hm => absurd hm not_mem_nil⟩

theorem Single.unmap (h : Single kernel p s) (hspace : task.addressSpace ∈ liveSpaces s.1)
    (hm : Intact s.1 task.addressSpace m) (hok : 0 ≤ (sysShmUnmap (some task) shmBase s.1).1) (hn : n < userPages) :
    if ∃ i < (s.1.shmTable m.region).numPages, n = shmPage + i
    then hasFlag (leaf (sysShmUnmap (some task) shmBase s.1).2.machine task.addressSpace n) ptePresent = false
    else leaf (sysShmUnmap (some task) shmBase s.1).2.machine task.addressSpace n =
      leaf s.1.machine task.addressSpace n := by
  obtain heq | ⟨a, hat, -, hleaf⟩ := sysShmUnmap_cases task shmBase s.1
  · rw [heq] at hok
    exact absurd hok (show ¬ (0 : ℤ) ≤ -einval by decide)
  · obtain rfl := hm.region_eq h.sound hspace hat
    obtain ⟨-, -, hpages⟩ := unmapPages_state hspace h.sound.state shmBase (s.1.shmTable m.region).numPages
    obtain ⟨hin, hout⟩ := hpages _ hspace n hn
    rw [inPages_shmBase (h.sound.pages_le _ hm.lt hm.valid)] at hin hout
    rw [hleaf]
    split_ifs with hpage
    · exact hin ⟨rfl, hpage⟩
    · exact hout fun hbad => hpage hbad.2

theorem Single.step (h : Single kernel p s) (hstep : guarded (OneAtATime p) (RegionStep p) s c s') :
    Single kernel p s' ∧ Undisturbed p s c s' := by
  obtain ⟨hc, hstep, htrack⟩ := hstep
  have hsound := h.sound.step ⟨hc.1, hstep⟩
  obtain ⟨k, mapped⟩ := s'
  generalize hcall : (p, c.call) = call at hstep
  cases hstep with
  | @call q task c' hp htask hidle huser =>
    obtain ⟨rfl, rfl⟩ := Prod.mk.inj hcall
    have hspace : task.addressSpace ∈ liveSpaces s.1 :=
      space_mem hp htask (huser.resolve_left (by cases c <;> exact Call.noConfusion))
    obtain rfl : mapped = track task s.1 s.2 c := htrack task htask
    obtain ⟨hlength, hintact⟩ := h.intact_serve hc htask hspace
    refine ⟨⟨hsound, hlength, fun task' htask' => ?_⟩, fun task' htask' => ?_⟩
    · have htask' := (congrFun (processTable_serve p task s.1 c) p).symm.trans htask'
      rw [htask] at htask'
      obtain rfl := some.inj htask'
      exact hintact
    · rw [htask] at htask'
      obtain rfl := some.inj htask'
      refine ⟨hintact, ?_⟩
      rintro v m rest rfl hmapped hok n hn
      obtain rfl : v = shmBase := hc.2
      exact h.unmap hspace (h.intact task htask m (by rw [hmapped]; exact mem_cons_self)) hok hn

def regionExec (p : ℕ) (s : ShmKernel × List Mapping) (c : RegionCall) : Option (ShmKernel × List Mapping) :=
  (s.1.processTable p).bind fun task => (exec s.1 (p, c.call)).map fun k => (k, track task s.1 s.2 c)

theorem regionStep_of_exec (h : regionExec p s c = some s') : RegionStep p s c s' := by
  obtain ⟨task, htask, h⟩ := bind_eq_some_iff.mp h
  obtain ⟨k, hk, rfl⟩ := map_eq_some_iff.mp h
  refine ⟨step_of_exec hk, fun task' htask' => ?_⟩
  rw [htask] at htask'
  rw [some.inj htask']

theorem guarded_of_exec (h : (if OneAtATime p s c then regionExec p s c else none) = some s') :
    guarded (OneAtATime p) (RegionStep p) s c s' := by
  split at h
  · rename_i hc
    exact ⟨hc, regionStep_of_exec h⟩
  · cases h

end AetherOs.Shm
