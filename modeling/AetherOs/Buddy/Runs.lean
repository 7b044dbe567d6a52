import AetherOs.Base.Run
import AetherOs.Buddy.Calls

/-! # Runs of the buddy allocator -/

namespace AetherOs.Buddy

open Base List Block

section

structure BuddyConfig where
  buddy : BuddyAllocator
  live : List (ℕ × ℤ)

inductive BuddyCall
  | alloc (order : ℤ)
  | free (virtAddr : ℕ) (order : ℤ)

def BuddyCall.exec (s : BuddyConfig) : BuddyCall → Option BuddyConfig
  | .alloc order =>
    let r := buddyAlloc order s.buddy
    some ⟨r.2, if r.1 = 0 then s.live else (r.1, order) :: s.live⟩
  | .free virtAddr order =>
    if (virtAddr, order) ∈ s.live then
      some ⟨buddyFree virtAddr order s.buddy, s.live.erase (virtAddr, order)⟩
    else none

def BuddyStep (s : BuddyConfig) (c : BuddyCall) (s' : BuddyConfig) : Prop := c.exec s = some s'

def handle (b : BuddyAllocator) (x : Block) : ℕ × ℤ := (pageAddr b x.start, x.order)

structure BuddySafe (s : BuddyConfig) (frees held : List Block) : Prop where
  live : s.live.Perm (held.map (handle s.buddy))
  lists : ∀ o ≤ buddyMaxOrder, LinkedList s.buddy.next s.buddy.prev 0 (s.buddy.free o).head
    ((ofOrder o frees).map (nodeOf s.buddy))
  count : ∀ o ≤ buddyMaxOrder, (s.buddy.free o).count = (ofOrder o frees).length
  order_map : ∀ p < s.buddy.totalPages, ∀ o ≤ buddyMaxOrder,
    s.buddy.orderMap p = o ↔ ∃ x ∈ frees, x.start = p ∧ x.order = o
  order_map_other : ∀ p < s.buddy.totalPages, (∀ x ∈ frees, x.start ≠ p) →
    s.buddy.orderMap p = 0xFF
  inside : ∀ x ∈ frees ++ held, x.order ≤ buddyMaxOrder ∧ 2 ^ x.order ∣ x.start ∧
    mapPages s.buddy.totalPages ≤ x.start ∧ x.start + 2 ^ x.order ≤ s.buddy.totalPages
  disjoint : (frees ++ held).Pairwise fun x y =>
    x.start + 2 ^ x.order ≤ y.start ∨ y.start + 2 ^ y.order ≤ x.start

structure Held (P : Set ℕ) (s : BuddyConfig) (frees held : List Block) : Prop where
  inv : Inv s.buddy P frees held
  initialized : s.buddy.initialized = true
  live : s.live.Perm (held.map (handle s.buddy))

variable {P : Set ℕ} {s s' : BuddyConfig} {frees held : List Block}

theorem handle_congr {b b' : BuddyAllocator} (h : fixedPart b' = fixedPart b) :
    handle b' = handle b := by
  funext x
  rw [handle, handle, pageAddr_congr h]

theorem initialized_congr {b b' : BuddyAllocator} (h : fixedPart b' = fixedPart b)
    (hinit : b.initialized) : b'.initialized := by
  have : b'.initialized = b.initialized := congrArg (fun t => t.2.2) h
  rw [this, hinit]

theorem Held.step {c : BuddyCall} (h : Held P s frees held) (hstep : BuddyStep s c s') :
    ∃ frees' held', Held P s' frees' held' := by
  cases c with
  | alloc order =>
    simp only [BuddyStep, BuddyCall.exec, Option.some.injEq] at hstep
    subst hstep
    by_cases hvalid : order < 0 ∨ (buddyMaxOrder : ℤ) < order
    · have hcall : buddyAlloc order s.buddy = (0, s.buddy) := by
        rw [buddyAlloc, h.initialized, if_neg (by simp), if_pos hvalid]
      rw [hcall]
      exact ⟨frees, held, h⟩
    · obtain ⟨n, rfl⟩ := Int.eq_ofNat_of_zero_le (show 0 ≤ order by omega)
      rcases h.inv.buddyAlloc h.initialized (show n ≤ buddyMaxOrder by omega) with
        ⟨hcall, _⟩ | ⟨x, frees', hxo, haddr, hne, hfixed, hinv⟩
      · rw [hcall]
        exact ⟨frees, held, h⟩
      · refine ⟨frees', x :: held, hinv, initialized_congr hfixed h.initialized, ?_⟩
        simp only [haddr, if_neg hne, handle_congr hfixed, map_cons]
        rw [← hxo]
        exact h.live.cons _
  | free virtAddr order =>
    simp only [BuddyStep, BuddyCall.exec] at hstep
    split at hstep
    · rename_i hmem
      obtain rfl := Option.some.inj hstep
      obtain ⟨x, hx, hhandle⟩ := mem_map.mp (h.live.mem_iff.mp hmem)
      obtain ⟨rfl, rfl⟩ := Prod.mk.inj hhandle
      have hperm := perm_cons_erase hx
      obtain ⟨frees', hfixed, hinv⟩ := (h.inv.perm hperm).buddyFree h.initialized
      refine ⟨frees', held.erase x, hinv, initialized_congr hfixed h.initialized, ?_⟩
      have hlive : s.live.Perm (handle s.buddy x :: (held.erase x).map (handle s.buddy)) :=
        h.live.trans (hperm.map _)
      simp only [nodeOf] at hfixed
      rw [handle_congr hfixed]
      simpa [handle] using hlive.erase (handle s.buddy x)
    · cases hstep

theorem ranges_disjoint {x y : Block} (h : ∀ p, x.Has p → ¬ y.Has p) :
    x.start + 2 ^ x.order ≤ y.start ∨ y.start + 2 ^ y.order ≤ x.start := by
  by_contra hover
  have hx := Nat.two_pow_pos x.order
  have hy := Nat.two_pow_pos y.order
  exact h (max x.start y.start) (has_iff.mpr (by omega)) (has_iff.mpr (by omega))

theorem Held.safe (h : Held P s frees held) : BuddySafe s frees held where
  live := h.live
  lists := fun o _ => h.inv.lists o
  count := fun o _ => h.inv.count o
  order_map := fun p hp o ho => by
    constructor
    · intro hmap
      by_contra hnone
      have hother : ∀ x ∈ frees, x.start ≠ p := by
        rintro x hx rfl
        rw [h.inv.map_free x hx] at hmap
        exact hnone ⟨x, hx, rfl, hmap⟩
      rw [h.inv.map_other p hp hother] at hmap
      simp only [allocated, buddyMaxOrder] at *
      omega
    · rintro ⟨x, hx, rfl, rfl⟩
      exact h.inv.map_free x hx
  order_map_other := h.inv.map_other
  inside := fun x hx => by
    have hpos := Nat.two_pow_pos x.order
    have hlast : x.Has (x.start + 2 ^ x.order - 1) := has_iff.mpr (by omega)
    have hbound := (h.inv.bounds _ (h.inv.partition.only x hx _ hlast)).2
    exact ⟨h.inv.order_le x hx, Nat.dvd_mul_left _ _, (h.inv.start_bounds hx).1, by omega⟩
  disjoint := h.inv.partition.pairwise.imp ranges_disjoint

def bootConfig (basePhys baseVirt sizeBytes : ℕ) (orderMap next prev : ℕ → ℕ) : BuddyConfig :=
  ⟨buddyInit basePhys baseVirt sizeBytes orderMap next prev, []⟩

section Runs

variable (basePhys : ℕ) {baseVirt sizeBytes : ℕ} (orderMap next prev : ℕ → ℕ)

theorem held_bootConfig (hregion : baseVirt + managedPages sizeBytes * pageSize ≤ wordSize) :
    ∃ P frees, Held P (bootConfig basePhys baseVirt sizeBytes orderMap next prev) frees [] := by
  obtain ⟨P, frees, hinv, hfixed⟩ := inv_buddyInit basePhys orderMap next prev hregion
  exact ⟨P, frees, hinv, congrArg (fun t => t.2.2) hfixed, .refl _⟩

theorem Held.run {calls : List BuddyCall} (h : Held P s frees held) (hrun : Run BuddyStep s calls s') :
    ∃ frees' held', Held P s' frees' held' :=
  hrun.invariant (I := fun s => ∃ frees held, Held P s frees held)
    (fun _ _ _ ⟨_, _, hs⟩ hstep => hs.step hstep) ⟨frees, held, h⟩

/-- After every run from `buddy_init`, over a region of any size that lies in the address
space, held and free blocks are disjoint and the allocator's data agree with each other. -/
theorem buddySafe_of_run (hregion : baseVirt + managedPages sizeBytes * pageSize ≤ wordSize)
    {calls : List BuddyCall} {s : BuddyConfig}
    (hrun : Run BuddyStep (bootConfig basePhys baseVirt sizeBytes orderMap next prev) calls s) :
    ∃ frees held, BuddySafe s frees held := by
  obtain ⟨P, frees₀, hboot⟩ := held_bootConfig basePhys orderMap next prev hregion
  obtain ⟨frees, held, hs⟩ := hboot.run hrun
  exact ⟨frees, held, hs.safe⟩

end Runs

def kernelBuddy : BuddyConfig :=
  bootConfig 0x2000000 0xFFFFFFFF82000000 (16 * 1024 * 1024) (fun _ => 0) (fun _ => 0) (fun _ => 0)

def kernelRun (calls : List BuddyCall) : BuddyConfig :=
  (calls.foldlM BuddyCall.exec kernelBuddy).getD kernelBuddy

theorem run_kernelRun {calls : List BuddyCall}
    (h : (calls.foldlM BuddyCall.exec kernelBuddy).isSome) :
    Run BuddyStep kernelBuddy calls (kernelRun calls) := by
  obtain ⟨s, hs⟩ := Option.isSome_iff_exists.mp h
  rw [kernelRun, hs]
  exact .of_foldlM (fun _ _ _ hexec => hexec) hs

/-- Two allocations and a release, after which the second block is still held. -/
theorem buddySafe_kernelRun :
    (kernelRun [.alloc 0, .alloc 3, .free 0xFFFFFFFF82C00000 0]).live = [(0xFFFFFFFF82C08000, 3)] ∧
      ∃ frees held, BuddySafe (kernelRun [.alloc 0, .alloc 3, .free 0xFFFFFFFF82C00000 0]) frees held :=
  ⟨by decide +kernel, buddySafe_of_run 0x2000000 (fun _ => 0) (fun _ => 0) (fun _ => 0)
    (by decide) (run_kernelRun (by decide +kernel))⟩

end

/-! ## The free blocks are canonical -/

section

def OnFreeList (b : BuddyAllocator) (x : Block) : Prop :=
  x.order ≤ buddyMaxOrder ∧ x.start < b.totalPages ∧
    ∃ l, Chain b.next 0 (b.free x.order).head l ∧ pageAddr b x.start ∈ l

def LivePage (s : BuddyConfig) (p : ℕ) : Prop :=
  ∃ r ∈ s.live, pageIdx s.buddy r.1 ≤ p ∧ p < pageIdx s.buddy r.1 + 2 ^ r.2.toNat

def SeededPage (b : BuddyAllocator) (p : ℕ) : Prop := ∃ x, OnFreeList b x ∧ x.Has p

variable {P : Set ℕ} {s s₀ : BuddyConfig} {frees frees₀ held : List Block} {x : Block} {p : ℕ}

namespace Held

theorem onFreeList_iff (h : Held P s frees held) : OnFreeList s.buddy x ↔ x ∈ frees := by
  constructor
  · rintro ⟨_, hlt, l, hchain, hmem⟩
    rw [hchain.unique (h.inv.lists x.order).forward] at hmem
    obtain ⟨y, hy, heq⟩ := mem_map.mp hmem
    obtain ⟨hyf, hyo⟩ := mem_ofOrder.mp hy
    rw [nodeOf, h.inv.pageAddr_eq hlt, h.inv.pageAddr_eq (h.inv.start_bounds (by simp [hyf])).2] at heq
    have hstart : y.start = x.start := by
      simp only [pageSize] at heq
      omega
    exact eq_of_start hyo hstart ▸ hyf
  · intro hx
    exact ⟨h.inv.order_le x (by simp [hx]), (h.inv.start_bounds (by simp [hx])).2, _,
      (h.inv.lists x.order).forward, mem_map_of_mem (mem_ofOrder.mpr ⟨hx, rfl⟩)⟩

theorem livePage_iff (h : Held P s frees held) : LivePage s p ↔ ∃ y ∈ held, y.Has p := by
  have hidx {y : Block} (hy : y ∈ held) : pageIdx s.buddy (handle s.buddy y).1 = y.start :=
    h.inv.pageIdx_pageAddr (h.inv.start_bounds (by simp [hy])).2
  constructor
  · rintro ⟨r, hr, hlow, hhigh⟩
    obtain ⟨y, hy, rfl⟩ := mem_map.mp (h.live.mem_iff.mp hr)
    rw [hidx hy] at hlow hhigh
    exact ⟨y, hy, has_iff.mpr ⟨hlow, hhigh⟩⟩
  · rintro ⟨y, hy, hp⟩
    refine ⟨handle s.buddy y, h.live.mem_iff.mpr (mem_map_of_mem hy), ?_⟩
    rw [hidx hy]
    exact has_iff.mp hp

theorem seededPage_iff (h : Held P s frees []) : SeededPage s.buddy p ↔ p ∈ P := by
  have hpart := h.inv.partition
  rw [append_nil] at hpart
  constructor
  · rintro ⟨x, hx, hp⟩
    exact hpart.only x (h.onFreeList_iff.mp hx) p hp
  · intro hp
    obtain ⟨x, hx, hhas⟩ := hpart.exists_has hp
    exact ⟨x, h.onFreeList_iff.mpr hx, hhas⟩

section

variable (h : Held P s frees held) (h₀ : Held P s₀ frees₀ [])

include h h₀

theorem free_partition :
    Partitions frees {p | SeededPage s₀.buddy p ∧ ¬ LivePage s p} := by
  have hset : {p | SeededPage s₀.buddy p ∧ ¬ LivePage s p} =
      {p | p ∈ P ∧ ∀ y ∈ held, ¬ y.Has p} := by
    ext p
    simp only [Set.mem_ofPred_eq, h₀.seededPage_iff, h.livePage_iff, not_exists, not_and]
  rw [hset]
  exact h.inv.partition.left

theorem onFreeList_iff_maximalIn :
    OnFreeList s.buddy x ↔
      MaximalIn buddyMaxOrder {p | SeededPage s₀.buddy p ∧ ¬ LivePage s p} x := by
  rw [h.onFreeList_iff]
  exact (h.free_partition h₀).mem_iff_maximalIn h.inv.coalesced
    (fun y hy => h.inv.order_le y (by simp [hy])) x

theorem not_free_of_alloc_fails {order : ℕ}
    (horder : order ≤ buddyMaxOrder) (hfail : (buddyAlloc order s.buddy).1 = 0) (n : ℕ) :
    ¬ ∀ p, p / 2 ^ order = n → SeededPage s₀.buddy p ∧ ¬ LivePage s p := by
  intro hrun
  rcases h.inv.buddyAlloc h.initialized horder with ⟨_, hnone⟩ | ⟨x, _, _, haddr, hne, _⟩
  · obtain ⟨y, hy, hle, _⟩ :=
      (h.free_partition h₀).exists_containing h.inv.coalesced horder n hrun
    exact absurd (hnone y hy) (by omega)
  · rw [haddr] at hfail
    exact hne hfail

end

end Held

/-- After every run from `buddy_init` no two buddies below the top order are both free; the
free blocks are a function of the pages held; an allocation fails only when no aligned run
of its size is free; and with nothing held the free blocks are the initial ones. -/
theorem buddy_canonical_of_run (basePhys : ℕ) {baseVirt sizeBytes : ℕ} (orderMap next prev : ℕ → ℕ)
    (hregion : baseVirt + managedPages sizeBytes * pageSize ≤ wordSize)
    {calls : List BuddyCall} {s : BuddyConfig}
    (hrun : Run BuddyStep (bootConfig basePhys baseVirt sizeBytes orderMap next prev) calls s) :
    let b₀ := buddyInit basePhys baseVirt sizeBytes orderMap next prev
    (∀ x, x.order < buddyMaxOrder → OnFreeList s.buddy x → ¬ OnFreeList s.buddy x.buddy) ∧
      (∀ x, OnFreeList s.buddy x ↔
        MaximalIn buddyMaxOrder {p | SeededPage b₀ p ∧ ¬ LivePage s p} x) ∧
      (∀ order ≤ buddyMaxOrder, (buddyAlloc (order : ℕ) s.buddy).1 = 0 →
        ∀ n, ¬ ∀ p, p / 2 ^ order = n → SeededPage b₀ p ∧ ¬ LivePage s p) ∧
      (s.live = [] → ∀ x, OnFreeList s.buddy x ↔ OnFreeList b₀ x) := by
  obtain ⟨P, frees₀, h₀⟩ := held_bootConfig basePhys orderMap next prev hregion
  obtain ⟨frees, held, hs⟩ := h₀.run hrun
  refine ⟨fun x hlt hx hb => ?_, fun x => hs.onFreeList_iff_maximalIn h₀,
    fun order horder hfail n => hs.not_free_of_alloc_fails h₀ horder hfail n, fun hlive x => ?_⟩
  · exact hs.inv.coalesced x (hs.onFreeList_iff.mp hx) hlt (hs.onFreeList_iff.mp hb)
  · have hnone : LivePage s = LivePage (bootConfig basePhys baseVirt sizeBytes orderMap next prev) := by
      funext p
      simp [LivePage, hlive, bootConfig]
    rw [hs.onFreeList_iff_maximalIn h₀, hnone]
    exact (h₀.onFreeList_iff_maximalIn h₀).symm

/-- After an allocation and its release the kernel's free blocks are the initial ones. -/
theorem buddy_canonical_kernelRun :
    Run BuddyStep kernelBuddy [.alloc 0, .free 0xFFFFFFFF82C00000 0]
        (kernelRun [.alloc 0, .free 0xFFFFFFFF82C00000 0]) ∧
      ∀ x, OnFreeList (kernelRun [.alloc 0, .free 0xFFFFFFFF82C00000 0]).buddy x ↔
        OnFreeList kernelBuddy.buddy x := by
  have hrun : Run BuddyStep kernelBuddy [.alloc 0, .free 0xFFFFFFFF82C00000 0] _ :=
    run_kernelRun (by decide +kernel)
  exact ⟨hrun, (buddy_canonical_of_run 0x2000000 (fun _ => 0) (fun _ => 0) (fun _ => 0) (by decide)
    hrun).2.2.2 (by decide +kernel)⟩

end

end AetherOs.Buddy
