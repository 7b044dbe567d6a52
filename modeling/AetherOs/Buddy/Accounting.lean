import AetherOs.Buddy.Runs
import Mathlib.Algebra.Order.BigOperators.Group.Finset

/-! # The number of free pages -/

namespace AetherOs.Buddy

open Base Function Finset

section

def listPages (b : BuddyAllocator) : ℕ := ∑ o ∈ Finset.range (buddyMaxOrder + 1), (b.free o).count * 2 ^ o

def Accounted (b : BuddyAllocator) : Prop := b.freePages = listPages b

def Unmerged (s : BuddyConfig) : BuddyCall → Prop
  | .alloc _ => True
  | .free virtAddr order => order = buddyMaxOrder ∨
      isFree s.buddy (buddyIdx (pageIdx s.buddy virtAddr) order.toNat) order.toNat = false

instance (b : BuddyAllocator) : Decidable (Accounted b) := inferInstanceAs (Decidable (_ = _))

instance (s : BuddyConfig) (c : BuddyCall) : Decidable (Unmerged s c) := by
  cases c
  · exact inferInstanceAs (Decidable True)
  · exact inferInstanceAs (Decidable (_ ∨ _))

variable {b : BuddyAllocator} {P : Set ℕ} {frees frees' live live' : List Block} {order p : ℕ}
  {s s' : BuddyConfig} {held : List Block}

/-! ## The pages on the lists -/

theorem Inv.listPages_eq (h : Inv b P frees live) : listPages b = blockPages frees := by
  have horder (x : Block) (hx : x ∈ frees) : x.order ∈ Finset.range (buddyMaxOrder + 1) := by
    have := h.order_le x (by simp [hx])
    exact mem_range.mpr (by omega)
  simp only [listPages, h.count]
  clear h
  induction frees with
  | nil => simp [ofOrder, blockPages]
  | cons x frees ih =>
    have hcons : blockPages (x :: frees) = 2 ^ x.order + blockPages frees := List.sum_cons
    have hone : ∑ o ∈ Finset.range (buddyMaxOrder + 1), (if x.order = o then 2 ^ o else 0) = 2 ^ x.order :=
      (sum_ite_eq _ _ _).trans (if_pos (horder x (by simp)))
    rw [hcons, ← ih fun y hy => horder y (by simp [hy]), ← hone, ← sum_add_distrib]
    refine sum_congr rfl fun o _ => ?_
    rw [ofOrder_cons]
    split
    · rw [List.length_cons, Nat.add_mul, Nat.one_mul, Nat.add_comm]
    · rw [Nat.zero_add]

theorem Inv.blockPages_add (h : Inv b P frees live) {b' : BuddyAllocator} (h' : Inv b' P frees' live')
    (htotal : b'.totalPages = b.totalPages) :
    blockPages frees' + blockPages live' = blockPages frees + blockPages live := by
  have happend (bs cs : List Block) : blockPages (bs ++ cs) = blockPages bs + blockPages cs := by simp [blockPages]
  rw [← happend, ← happend, h'.partition.blockPages_eq (fun p hp => htotal ▸ (h'.bounds p hp).2),
    h.partition.blockPages_eq fun p hp => (h.bounds p hp).2]

theorem Inv.blockPages_le (h : Inv b P frees live) : blockPages frees ≤ buddyMaxPages :=
  (h.partition.left.blockPages_le fun p hp => (h.bounds p hp.1).2).trans h.total_le

/-! ## One call -/

theorem mergeUp_order (steps order idx : ℕ) (b : BuddyAllocator) :
    (order ≤ (mergeUp steps order idx b).1 ∧ (mergeUp steps order idx b).1 ≤ order + steps) ∧
    ((mergeUp steps order idx b).1 = order ↔ steps = 0 ∨ isFree b (buddyIdx idx order) order = false) := by
  have hle (steps order idx : ℕ) (b : BuddyAllocator) :
      order ≤ (mergeUp steps order idx b).1 ∧ (mergeUp steps order idx b).1 ≤ order + steps := by
    induction steps generalizing order idx b with
    | zero => exact ⟨le_rfl, le_rfl⟩
    | succ steps ih =>
      rw [mergeUp]
      split
      · have := ih (order + 1) (if buddyIdx idx order < idx then buddyIdx idx order else idx)
          (remove order (buddyIdx idx order) b)
        omega
      · exact ⟨le_rfl, by omega⟩
  refine ⟨hle steps order idx b, ?_⟩
  cases steps with
  | zero => simp [mergeUp]
  | succ steps =>
    rw [mergeUp]
    split
    · rename_i hfree
      have := hle steps (order + 1) (if buddyIdx idx order < idx then buddyIdx idx order else idx)
        (remove order (buddyIdx idx order) b)
      simp only [hfree, Nat.succ_ne_zero, Bool.true_eq_false, or_self, iff_false]
      omega
    · rename_i hused
      simpa using hused

theorem freePages_mergeUp (steps order idx : ℕ) (b : BuddyAllocator) :
    (mergeUp steps order idx b).2.2.freePages = b.freePages := by
  induction steps generalizing order idx b with
  | zero => rfl
  | succ steps ih =>
    rw [mergeUp]
    split
    · rw [ih]
      rfl
    · rfl

theorem freePages_splitDown (order idx steps : ℕ) (b : BuddyAllocator) :
    (splitDown order idx steps b).freePages = b.freePages := by
  induction steps generalizing b with
  | zero => rfl
  | succ steps ih =>
    rw [splitDown, ih]
    rfl

theorem freePages_buddyAlloc (order : ℤ) (b : BuddyAllocator) : buddyAlloc order b = (0, b) ∨
    (buddyAlloc order b).2.freePages = subWord b.freePages (2 ^ order.toNat) := by
  rw [buddyAlloc]
  split
  · exact .inl rfl
  split
  · exact .inl rfl
  dsimp only
  split
  · exact .inl rfl
  · have hpop (avail : ℕ) : (pop avail b).2.freePages = b.freePages := by
      rw [pop]
      split <;> rfl
    refine .inr ?_
    simp only [takeFrom, freePages_splitDown, hpop]

theorem Held.accounted_alloc (h : Held P s frees held) (hacc : Accounted s.buddy) (order : ℤ) :
    Accounted (buddyAlloc order s.buddy).2 := by
  rcases freePages_buddyAlloc order s.buddy with hfail | hpages
  · rw [hfail]
    exact hacc
  by_cases hvalid : order < 0 ∨ (buddyMaxOrder : ℤ) < order
  · have hcall : buddyAlloc order s.buddy = (0, s.buddy) := by
      rw [buddyAlloc, h.initialized, if_neg (by simp), if_pos hvalid]
    rw [hcall]
    exact hacc
  obtain ⟨n, rfl⟩ := Int.eq_ofNat_of_zero_le (show 0 ≤ order by omega)
  rcases h.inv.buddyAlloc h.initialized (show n ≤ buddyMaxOrder by omega) with
    ⟨hcall, -⟩ | ⟨x, frees', hxo, -, -, hfixed, hinv⟩
  · rw [hcall]
    exact hacc
  · have hsum := h.inv.blockPages_add hinv (congrArg (fun t => t.2.1) hfixed)
    have hcons : blockPages (x :: held) = 2 ^ x.order + blockPages held := List.sum_cons
    have hle := h.inv.blockPages_le
    have hbefore : s.buddy.freePages = blockPages frees := hacc.trans h.inv.listPages_eq
    rw [Accounted, hinv.listPages_eq, hpages, hbefore, Int.toNat_natCast, ← hxo,
      subWord_eq (by simp only [buddyMaxPages, wordSize] at *; omega) (by omega)]
    omega

theorem Held.accounted_free (h : Held P s frees (x :: held)) (hacc : Accounted s.buddy) :
    Accounted (buddyFree (nodeOf s.buddy x) x.order s.buddy) ↔
      Unmerged s (.free (nodeOf s.buddy x) x.order) := by
  obtain ⟨frees', hfixed, hinv⟩ := h.inv.buddyFree h.initialized
  have hsum := h.inv.blockPages_add hinv (congrArg (fun t => t.2.1) hfixed)
  have hcons : blockPages (x :: held) = 2 ^ x.order + blockPages held := List.sum_cons
  have hle := h.inv.blockPages_le
  have hbefore : s.buddy.freePages = blockPages frees := hacc.trans h.inv.listPages_eq
  have hxo : x.order ≤ buddyMaxOrder := h.inv.order_le x (by simp)
  have hidx : pageIdx s.buddy (nodeOf s.buddy x) = x.start := h.inv.pageIdx_pageAddr (h.inv.start_bounds (by simp)).2
  obtain ⟨hup, hsame⟩ := mergeUp_order (buddyMaxOrder - x.order) x.order x.start s.buddy
  set top := mergeUp (buddyMaxOrder - x.order) x.order x.start s.buddy
  have hpages : (buddyFree (nodeOf s.buddy x) x.order s.buddy).freePages =
      addWord s.buddy.freePages (2 ^ top.1) := by
    rw [h.inv.buddyFree_eq h.initialized, giveBack]
    change addWord (mergeUp _ _ _ _).2.2.freePages _ = _
    rw [freePages_mergeUp]
  have hpow : 2 ^ top.1 ≤ 2 ^ buddyMaxOrder :=
    Nat.pow_le_pow_right (by decide) (by omega)
  have hiff : Accounted (buddyFree (nodeOf s.buddy x) x.order s.buddy) ↔
      top.1 = x.order := by
    have hinj : 2 ^ top.1 = 2 ^ x.order ↔ _ :=
      Nat.pow_right_inj (by decide)
    rw [Accounted, hinv.listPages_eq, hpages, hbefore, ← hinj,
      addWord_eq (by simp only [buddyMaxPages, buddyMaxOrder, wordSize] at *; omega)]
    omega
  rw [hiff, hsame, Unmerged, hidx, Int.toNat_natCast]
  exact or_congr (by omega) Iff.rfl

theorem Held.accounted_step {c : BuddyCall} (h : Held P s frees held) (hacc : Accounted s.buddy)
    (hstep : BuddyStep s c s') : Accounted s'.buddy ↔ Unmerged s c := by
  cases c with
  | alloc order =>
    obtain rfl := Option.some.inj hstep
    exact iff_of_true (h.accounted_alloc hacc order) trivial
  | free virtAddr order =>
    simp only [BuddyStep, BuddyCall.exec] at hstep
    split at hstep
    · rename_i hmem
      obtain rfl := Option.some.inj hstep
      obtain ⟨x, hx, hhandle⟩ := List.mem_map.mp (h.live.mem_iff.mp hmem)
      obtain ⟨rfl, rfl⟩ := Prod.mk.inj hhandle
      have hperm := List.perm_cons_erase hx
      exact Held.accounted_free ⟨h.inv.perm hperm, h.initialized, h.live.trans (hperm.map _)⟩ hacc
    · cases hstep

/-! ## The account at the start -/

theorem listPages_push (horder : order ≤ buddyMaxOrder) (hle : listPages b ≤ buddyMaxPages) (idx : ℕ) :
    listPages (push order idx b) = listPages b + 2 ^ order := by
  have hmem : order ∈ Finset.range (buddyMaxOrder + 1) := mem_range.mpr (by omega)
  have hcount : (b.free order).count ≤ buddyMaxPages := by
    have hterm : (b.free order).count * 2 ^ order ≤ listPages b :=
      single_le_sum (f := fun o => (b.free o).count * 2 ^ o) (fun _ _ => Nat.zero_le _) hmem
    have hpos := Nat.two_pow_pos order
    have := Nat.le_mul_of_pos_right (b.free order).count hpos
    omega
  have hnew (o : ℕ) : ((push order idx b).free o).count = (b.free o).count + if order = o then 1 else 0 := by
    by_cases ho : order = o
    · subst ho
      have hself : (push order idx b).free order = ⟨pageAddr b idx, ((b.free order).count + 1) % countSize⟩ :=
        update_self _ _ _
      rw [hself, if_pos rfl]
      exact Nat.mod_eq_of_lt (by simp only [buddyMaxPages, countSize] at *; omega)
    · have hother : (push order idx b).free o = b.free o := update_of_ne (Ne.symm ho) _ _
      rw [hother, if_neg ho, Nat.add_zero]
  have hone : ∑ o ∈ Finset.range (buddyMaxOrder + 1), (if order = o then 2 ^ o else 0) = 2 ^ order :=
    (sum_ite_eq _ _ _).trans (if_pos hmem)
  rw [listPages, listPages, ← hone, ← sum_add_distrib]
  refine sum_congr rfl fun o _ => ?_
  rw [hnew]
  split <;> ring

theorem accounted_seedBlocks {limit alignedP : ℕ} (fuel : ℕ) (horder : order ≤ buddyMaxOrder) (hlimit : limit ≤ buddyMaxPages)
    (hacc : Accounted b) (hp : listPages b ≤ p) (hle : p ≤ alignedP) :
    Accounted (seedBlocks order limit fuel p alignedP b).2 ∧
      listPages (seedBlocks order limit fuel p alignedP b).2 ≤ (seedBlocks order limit fuel p alignedP b).1 := by
  induction fuel generalizing b p alignedP with
  | zero => exact ⟨hacc, hp⟩
  | succ fuel ih =>
    rw [seedBlocks]
    split_ifs with hfit
    · have hpos := Nat.two_pow_pos order
      have hpush := listPages_push (b := b) horder (by omega) alignedP
      have hpages : listPages { push order alignedP b with
          freePages := addWord (push order alignedP b).freePages (2 ^ order) } = listPages b + 2 ^ order := hpush
      refine ih ?_ (hpages.le.trans (by omega)) le_rfl
      rw [Accounted, hpages]
      change addWord b.freePages (2 ^ order) = _
      rw [hacc, addWord_eq (by simp only [buddyMaxPages, wordSize] at *; omega)]
    · exact ⟨hacc, hp⟩

theorem accounted_seed {limit : ℕ} (horder : order ≤ buddyMaxOrder + 1) (hlimit : limit ≤ buddyMaxPages)
    (hacc : Accounted b) (hp : listPages b ≤ p) : Accounted (seed limit order p b) := by
  induction order generalizing b p with
  | zero => exact hacc
  | succ order ih =>
    rw [seed]
    split
    · have hsum : p + (2 ^ order - 1) < wordSize := by
        have hpow : 2 ^ order ≤ 2 ^ buddyMaxOrder := Nat.pow_le_pow_right (by decide) (by omega)
        simp only [buddyMaxPages, buddyMaxOrder, wordSize] at *
        omega
      have horder' : order ≤ buddyMaxOrder := by omega
      obtain ⟨hacc', hp'⟩ := accounted_seedBlocks (limit + 1) horder' hlimit hacc hp
        (le_alignUp (Nat.two_pow_pos order) hsum)
      exact ih (by omega) hacc' hp'
    · exact hacc

theorem accounted_buddyInit (basePhys baseVirt sizeBytes : ℕ) (orderMap next prev : ℕ → ℕ) :
    Accounted (buddyInit basePhys baseVirt sizeBytes orderMap next prev) := by
  have hlimit : mapPages (managedPages sizeBytes) + (managedPages sizeBytes - mapPages (managedPages sizeBytes)) ≤
      buddyMaxPages := by
    have : managedPages sizeBytes ≤ buddyMaxPages := min_le_right _ _
    simp only [mapPages, pageSize]
    omega
  let b : BuddyAllocator :=
    { basePhys := basePhys, baseVirt := baseVirt, totalPages := managedPages sizeBytes, freePages := 0
      free := fun _ => ⟨0, 0⟩
      orderMap := fun p => if p < managedPages sizeBytes then allocated else orderMap p
      initialized := false, next := next, prev := prev }
  have hempty : listPages b = 0 := by simp [listPages, b]
  exact accounted_seed (b := b) le_rfl hlimit hempty.symm (hempty.le.trans (Nat.zero_le _))

/-! ## Runs -/

section Runs

variable (basePhys : ℕ) {baseVirt sizeBytes : ℕ} (orderMap next prev : ℕ → ℕ)

/-- After `buddy_init` and after every call of a run the free pages are accounted for exactly if no release of the run
merges. -/
theorem accounted_iff_unmerged (hregion : baseVirt + managedPages sizeBytes * pageSize ≤ wordSize)
    (calls : List BuddyCall) (s : BuddyConfig) :
    Accounted (bootConfig basePhys baseVirt sizeBytes orderMap next prev).buddy ∧
    (Run (fun s c s' => BuddyStep s c s' ∧ Accounted s'.buddy)
        (bootConfig basePhys baseVirt sizeBytes orderMap next prev) calls s ↔
      Run (guarded Unmerged BuddyStep) (bootConfig basePhys baseVirt sizeBytes orderMap next prev) calls s) := by
  obtain ⟨P, frees, hboot⟩ := held_bootConfig basePhys orderMap next prev hregion
  have hacc := accounted_buddyInit basePhys baseVirt sizeBytes orderMap next prev
  refine ⟨hacc, Run.iff_of_invariant (I := fun s => (∃ frees held, Held P s frees held) ∧ Accounted s.buddy)
    ⟨⟨frees, [], hboot⟩, hacc⟩ ?_ ?_⟩
  · rintro s c s' ⟨⟨frees, held, h⟩, hacc⟩
    constructor
    · rintro ⟨hstep, hend⟩
      exact ⟨(h.accounted_step hacc hstep).mp hend, hstep⟩
    · rintro ⟨hcall, hstep⟩
      exact ⟨hstep, (h.accounted_step hacc hstep).mpr hcall⟩
  · rintro s c s' ⟨⟨frees, held, h⟩, -⟩ ⟨hstep, hend⟩
    exact ⟨h.step hstep, hend⟩

end Runs

/-- A block that is handed out leaves the pages accounted for. -/
theorem accounted_iff_unmerged_alloc : ∃ s, Run (fun s c s' => BuddyStep s c s' ∧ Accounted s'.buddy) kernelBuddy
    [.alloc 0, .alloc 3] s := by
  have hrun : Run (guarded Unmerged BuddyStep) kernelBuddy [.alloc 0, .alloc 3] _ :=
    .cons ⟨trivial, rfl⟩ (.cons ⟨trivial, rfl⟩ (.nil _))
  exact ⟨_, (accounted_iff_unmerged 0x2000000 (fun _ => 0) (fun _ => 0) (fun _ => 0) (by decide) _ _).2.mpr hrun⟩

/-- A page that is handed out and given back: its block merges up to the largest order, and so many pages are added. -/
theorem exists_unaccounted : ∃ s, Run BuddyStep kernelBuddy [.alloc 0, .free 0xFFFFFFFF82C00000 0] s ∧
    ¬ Accounted s.buddy ∧ s.buddy.freePages ≠ kernelBuddy.buddy.freePages :=
  ⟨_, run_kernelRun (by decide +kernel), by decide +kernel, by decide +kernel⟩

end

/-! ## What seeding leaves out -/

section

variable {b : BuddyAllocator} {P : Set ℕ} {frees : List Block} {order p q limit fuel alignedP : ℕ}

theorem orderMap_seedBlocks (hq : q < alignedP) (hle : p ≤ alignedP) :
    (seedBlocks order limit fuel p alignedP b).2.orderMap q = b.orderMap q ∧
      p ≤ (seedBlocks order limit fuel p alignedP b).1 := by
  induction fuel generalizing b p alignedP with
  | zero => exact ⟨rfl, le_rfl⟩
  | succ fuel ih =>
    rw [seedBlocks]
    split
    · have hpos := Nat.two_pow_pos order
      have hq' : q < alignedP + 2 ^ order := by omega
      refine ⟨(ih hq' le_rfl).1.trans ?_, (show p ≤ alignedP + 2 ^ order by omega).trans (ih hq' le_rfl).2⟩
      exact update_of_ne (by omega) _ _
    · exact ⟨rfl, le_rfl⟩

theorem lt_seedBlocks (hfit : alignedP + 2 ^ order ≤ limit) :
    alignedP < (seedBlocks order limit (fuel + 1) p alignedP b).1 := by
  have hpos := Nat.two_pow_pos order
  have hlt : alignedP < alignedP + 2 ^ order := by omega
  rw [seedBlocks, if_pos hfit]
  exact hlt.trans_le (orderMap_seedBlocks hlt le_rfl).2

theorem alignUp_add_le {n o : ℕ} (hdvd : 2 ^ o ∣ n) (hn : 0 < n) : alignUp n (2 ^ (o + 1)) + 2 ^ (o + 1) ≤ 4 * n := by
  obtain ⟨k, rfl⟩ := hdvd
  have hpos := Nat.two_pow_pos o
  have hk : 0 < k := Nat.pos_of_mul_pos_left hn
  have hle : 2 ^ o ≤ 2 ^ o * k := Nat.le_mul_of_pos_right _ hk
  have hup : alignUp (2 ^ o * k) (2 ^ (o + 1)) ≤ 2 ^ o * k + 2 ^ o := by
    rcases Nat.even_or_odd' k with ⟨j, rfl | rfl⟩
    · refine (alignUp_le_of_dvd (Nat.two_pow_pos _) le_rfl ⟨j, ?_⟩).trans (Nat.le_add_right _ _)
      rw [Nat.pow_succ, Nat.mul_assoc]
    · refine alignUp_le_of_dvd (Nat.two_pow_pos _) (Nat.le_add_right _ _) ⟨j + 1, ?_⟩
      rw [Nat.pow_succ]
      ring
  rw [Nat.pow_succ] at hup ⊢
  omega

theorem orderMap_seed {n total : ℕ} (hn : 0 < n) (hsmall : n < 2 ^ buddyMaxOrder) (htotal : 4 * n ≤ total)
    (hlimit : total ≤ buddyMaxPages) (horder : order ≤ buddyMaxOrder + 1)
    (hp : n < p ∨ p = n ∧ (order ≤ buddyMaxOrder → total < alignUp n (2 ^ order) + 2 ^ order)) :
    (seed total order p b).orderMap n = b.orderMap n := by
  induction order generalizing b p with
  | zero => rfl
  | succ order ih =>
    rw [seed]
    split_ifs with hlt
    · have hpow : 2 ^ order ≤ 2 ^ buddyMaxOrder := Nat.pow_le_pow_right (by decide) (by omega)
      have hword : p + (2 ^ order - 1) < wordSize := by
        simp only [buddyMaxPages, buddyMaxOrder, wordSize] at *
        omega
      have halign : p ≤ alignUp p (2 ^ order) := le_alignUp (Nat.two_pow_pos order) hword
      have hpast : n < alignUp p (2 ^ order) := by
        rcases hp with hp | ⟨rfl, hfull⟩
        · omega
        · -- Were the page a multiple, then a block of the next order would have fitted.
          refine lt_of_le_of_ne halign fun heq => ?_
          have hdvd : 2 ^ order ∣ p := heq ▸ dvd_alignUp p (2 ^ order)
          have hlarge := alignUp_add_le hdvd hn
          by_cases htop : order + 1 ≤ buddyMaxOrder
          · have := hfull htop
            omega
          · have hle := Nat.le_of_dvd hn hdvd
            rw [show order = buddyMaxOrder by omega] at hle
            omega
      refine (ih (by omega) ?_).trans (orderMap_seedBlocks hpast halign).1
      by_cases hfit : alignUp p (2 ^ order) + 2 ^ order ≤ total
      · exact .inl (hpast.trans (lt_seedBlocks hfit))
      · have hstay : seedBlocks order total (total + 1) p (alignUp p (2 ^ order)) b = (p, b) := by
          rw [seedBlocks, if_neg hfit]
        rw [hstay]
        refine hp.imp_right fun hsame => ⟨hsame.1, fun _ => ?_⟩
        rw [← hsame.1]
        omega
    · rfl

structure Lists (b : BuddyAllocator) (frees : List Block) : Prop where
  order_le : ∀ x ∈ frees, x.order ≤ buddyMaxOrder
  lists : ∀ o ≤ buddyMaxOrder, LinkedList b.next b.prev 0 (b.free o).head ((ofOrder o frees).map (nodeOf b))

def Covers (b : BuddyAllocator) (frees : List Block) : Prop :=
  (∀ q, mapPages b.totalPages ≤ q → q < b.totalPages → frees.countP (fun x => x.Has q) = 1) ∧
    b.freePages = b.totalPages - mapPages b.totalPages

theorem freePages_small (basePhys baseVirt : ℕ) {sizeBytes : ℕ} (orderMap next prev : ℕ → ℕ)
    (hsmall : managedPages sizeBytes ≤ 3) : (buddyInit basePhys baseVirt sizeBytes orderMap next prev).freePages =
      managedPages sizeBytes - mapPages (managedPages sizeBytes) := by
  simp only [buddyInit]
  generalize managedPages sizeBytes = total at hsmall ⊢
  obtain rfl | rfl | rfl | rfl : total = 0 ∨ total = 1 ∨ total = 2 ∨ total = 3 := by omega
  all_goals simp [seed, seedBlocks, alignUp, addWord, wordSize, mapPages, pageSize, buddyMaxOrder, push]

theorem Inv.covers (h : Inv b P frees []) (hacc : Accounted b)
    (hpages : b.freePages = b.totalPages - mapPages b.totalPages) : Covers b frees := by
  classical
  have hpart : Partitions frees P := by simpa using h.partition
  have hsub : (Finset.range b.totalPages).filter (· ∈ P) ⊆ Finset.Ico (mapPages b.totalPages) b.totalPages := fun q hq =>
    mem_Ico.mpr (h.bounds q (mem_filter.mp hq).2)
  have hcard : b.freePages = ((Finset.range b.totalPages).filter (· ∈ P)).card :=
    hacc.trans (h.listPages_eq.trans (hpart.blockPages_eq fun q hq => (h.bounds q hq).2))
  have heq := eq_of_subset_of_card_le hsub (by rw [Nat.card_Ico]; omega)
  refine ⟨fun q hlow hhigh => hpart.once q ?_, hpages⟩
  have hmem : q ∈ (Finset.range b.totalPages).filter (· ∈ P) := heq.symm ▸ mem_Ico.mpr ⟨hlow, hhigh⟩
  exact (mem_filter.mp hmem).2

theorem orderMap_buddyInit (basePhys baseVirt : ℕ) {sizeBytes : ℕ} (orderMap next prev : ℕ → ℕ)
    (hlarge : 4 ≤ managedPages sizeBytes) : (buddyInit basePhys baseVirt sizeBytes orderMap next prev).orderMap
      (mapPages (managedPages sizeBytes)) = allocated := by
  have hle : managedPages sizeBytes ≤ buddyMaxPages := min_le_right _ _
  have hmap : mapPages (managedPages sizeBytes) < managedPages sizeBytes ∧ 4 * mapPages (managedPages sizeBytes) ≤
      managedPages sizeBytes ∧ mapPages (managedPages sizeBytes) < 2 ^ buddyMaxOrder := by
    simp only [mapPages, pageSize, buddyMaxPages, buddyMaxOrder] at *
    omega
  simp only [buddyInit]
  rw [Nat.add_sub_cancel' hmap.1.le, orderMap_seed (mapPages_pos (by omega)) hmap.2.2 hmap.2.1 hle le_rfl
    (.inr ⟨rfl, fun h => absurd h (by simp)⟩)]
  exact if_pos hmap.1

/-- `buddy_init` covers its region exactly if the region has at most three pages. -/
theorem buddyInit_covers_iff (basePhys : ℕ) {baseVirt sizeBytes : ℕ} (orderMap next prev : ℕ → ℕ)
    (hregion : baseVirt + managedPages sizeBytes * pageSize ≤ wordSize) :
    ∃ frees, Lists (buddyInit basePhys baseVirt sizeBytes orderMap next prev) frees ∧
      (Covers (buddyInit basePhys baseVirt sizeBytes orderMap next prev) frees ↔ managedPages sizeBytes ≤ 3) := by
  obtain ⟨P, frees, hinv, hfixed⟩ := inv_buddyInit basePhys orderMap next prev hregion
  have hacc := accounted_buddyInit basePhys baseVirt sizeBytes orderMap next prev
  have htotal : (buddyInit basePhys baseVirt sizeBytes orderMap next prev).totalPages = managedPages sizeBytes :=
    congrArg (fun t => t.2.1) hfixed
  refine ⟨frees, ⟨fun x hx => hinv.order_le x (by simp [hx]), fun o _ => hinv.lists o⟩, fun hcovers => ?_, fun hsmall => ?_⟩
  · by_contra hlarge
    have hmap := orderMap_buddyInit basePhys baseVirt orderMap next prev (show 4 ≤ managedPages sizeBytes by omega)
    have hlt : mapPages (managedPages sizeBytes) < managedPages sizeBytes := by
      simp only [mapPages, pageSize]
      omega
    have hone := hcovers.1 (mapPages (managedPages sizeBytes)) (by rw [htotal]) (by rw [htotal]; exact hlt)
    -- The block of that page would start there.
    obtain ⟨x, hx, hhas⟩ := List.countP_pos_iff.mp (hone ▸ Nat.one_pos)
    have hhas := Block.has_iff.mp (of_decide_eq_true hhas)
    have hstart := (hinv.start_bounds (x := x) (by simp [hx])).1
    have horder := hinv.order_le x (by simp [hx])
    rw [htotal] at hstart
    have hfree := hinv.map_free x hx
    rw [show x.start = mapPages (managedPages sizeBytes) by omega, hmap] at hfree
    simp only [allocated, buddyMaxOrder] at *
    omega
  · refine hinv.covers hacc ?_
    rw [htotal]
    exact freePages_small basePhys baseVirt orderMap next prev hsmall

/-- A region of three pages. -/
theorem buddyInit_covers_iff_three : ∃ frees,
    Covers (buddyInit 0 0x1000000 0x3000 (fun _ => 0) (fun _ => 0) fun _ => 0) frees := by
  obtain ⟨frees, -, hiff⟩ := buddyInit_covers_iff 0 (fun _ => 0) (fun _ => 0) (fun _ => 0)
    (show 0x1000000 + managedPages 0x3000 * pageSize ≤ wordSize by decide)
  exact ⟨frees, hiff.mpr (by decide)⟩

/-- The kernel's region has 4095 pages after its order map, and 3072 of them become free. -/
theorem exists_page_left_out : kernelBuddy.buddy.totalPages - mapPages kernelBuddy.buddy.totalPages = 4095 ∧
    kernelBuddy.buddy.freePages = 3072 ∧ ∀ frees, ¬ Covers kernelBuddy.buddy frees := by
  have hpages : kernelBuddy.buddy.totalPages - mapPages kernelBuddy.buddy.totalPages = 4095 := by decide +kernel
  have hfree : kernelBuddy.buddy.freePages = 3072 := by decide +kernel
  refine ⟨hpages, hfree, fun frees hcovers => ?_⟩
  have := hcovers.2
  omega

end

end AetherOs.Buddy
