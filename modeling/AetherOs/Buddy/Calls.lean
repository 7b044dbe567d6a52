import AetherOs.Buddy.Invariant

/-! # Allocating and releasing blocks -/

namespace AetherOs.Buddy

open Base Block

section

def fixedPart (b : BuddyAllocator) : ℕ × ℕ × Bool := (b.baseVirt, b.totalPages, b.initialized)

variable {b : BuddyAllocator} {P : Set ℕ} {frees live : List Block} {x y : Block} {order : ℕ}

theorem pageAddr_congr {b b' : BuddyAllocator} (h : fixedPart b' = fixedPart b) (p : ℕ) :
    pageAddr b' p = pageAddr b p := by
  have hbase : b'.baseVirt = b.baseVirt := congrArg Prod.fst h
  rw [pageAddr, pageAddr, hbase]

theorem fixedPart_setFreePages (b : BuddyAllocator) (n : ℕ) :
    fixedPart { b with freePages := n } = fixedPart b := rfl

theorem fixedPart_remove (order idx : ℕ) (b : BuddyAllocator) :
    fixedPart (remove order idx b) = fixedPart b := rfl

theorem fixedPart_push (order idx : ℕ) (b : BuddyAllocator) :
    fixedPart (push order idx b) = fixedPart b := rfl

theorem findAvail_spec (b : BuddyAllocator) (steps avail : ℕ) :
    avail ≤ findAvail b steps avail ∧ findAvail b steps avail ≤ avail + steps ∧
      (∀ o, avail ≤ o → o < findAvail b steps avail → (b.free o).count = 0) ∧
      (findAvail b steps avail < avail + steps → (b.free (findAvail b steps avail)).count ≠ 0) := by
  induction steps generalizing avail with
  | zero =>
    exact ⟨le_rfl, le_rfl, fun o h h' => absurd (h.trans_lt h') (lt_irrefl _),
      fun h => absurd h (lt_irrefl _)⟩
  | succ steps ih =>
    by_cases hcount : (b.free avail).count = 0
    · rw [findAvail, if_pos hcount]
      obtain ⟨hle, hup, hempty, hfound⟩ := ih (avail + 1)
      refine ⟨by omega, by omega, fun o ho ho' => ?_, fun h => hfound (by omega)⟩
      rcases ho.eq_or_lt with rfl | ho
      · exact hcount
      · exact hempty o ho ho'
    · rw [findAvail, if_neg hcount]
      exact ⟨le_rfl, by omega, fun o h h' => absurd (h.trans_lt h') (lt_irrefl _), fun _ => hcount⟩

theorem fixedPart_splitDown (order idx steps : ℕ) (b : BuddyAllocator) :
    fixedPart (splitDown order idx steps b) = fixedPart b := by
  induction steps generalizing b with
  | zero => rfl
  | succ steps ih => rw [splitDown, ih, fixedPart_push]

theorem fixedPart_mergeUp (steps order idx : ℕ) (b : BuddyAllocator) :
    fixedPart (mergeUp steps order idx b).2.2 = fixedPart b := by
  induction steps generalizing order idx b with
  | zero => rfl
  | succ steps ih =>
    rw [mergeUp]
    split
    · rw [ih, fixedPart_remove]
    · rfl

namespace Inv

theorem splitDown (steps : ℕ) (h : Inv b P frees (x :: live)) (hx : x.order = order + steps) :
    ∃ y frees', y.order = order ∧ y.start = x.start ∧
      Inv (splitDown order x.start steps b) P frees' (y :: live) := by
  induction steps generalizing b frees x with
  | zero => exact ⟨x, frees, hx, rfl, h⟩
  | succ steps ih =>
    let y : Block := ⟨order + steps, 2 * x.num⟩
    have hparent : y.parent = x := by
      obtain ⟨o, n⟩ := x
      obtain rfl : o = order + (steps + 1) := hx
      simp only [y, parent, mk.injEq]
      omega
    have hstart : y.start = x.start := by
      simp only [y, start, hx, ← Nat.add_assoc, Nat.pow_succ]
      ring
    have hbuddy : y.buddy.start = x.start + 2 ^ (order + steps) := by
      rw [buddy_even, ← hstart]
      simp only [y, start]
      ring
    rw [← hparent] at h
    have hsplit := h.split
    have hheld : y ∉ frees := (hsplit.perm (.swap _ _ _)).not_mem_frees
    have hpush := hsplit.push fun _ => by
      rw [buddy_buddy]
      exact hheld
    obtain ⟨z, frees', horder, hz, hinv⟩ := ih hpush rfl
    refine ⟨z, frees', horder, hz.trans hstart, ?_⟩
    rw [hstart] at hinv
    rw [Buddy.splitDown, ← hbuddy]
    exact hinv

theorem isFree_buddy (h : Inv b P frees (x :: live)) :
    isFree b (buddyIdx x.start x.order) x.order ↔ x.buddy ∈ frees := by
  have hxo : x.order ≤ buddyMaxOrder := h.order_le x (by simp)
  have hmod : x.order % 256 = x.order := Nat.mod_eq_of_lt (by simp only [buddyMaxOrder] at hxo; omega)
  rw [buddyIdx, ← start_buddy]
  simp only [isFree, hmod, Bool.and_eq_true, decide_eq_true_eq, beq_iff_eq]
  constructor
  · rintro ⟨hlt, hmap⟩
    by_contra hnot
    by_cases hother : ∀ z ∈ frees, z.start ≠ x.buddy.start
    · rw [h.map_other _ hlt hother] at hmap
      simp only [allocated, buddyMaxOrder] at *
      omega
    · push Not at hother
      obtain ⟨z, hz, hstart⟩ := hother
      rw [← hstart, h.map_free z hz] at hmap
      exact hnot (Block.eq_of_start (b := z) (c := x.buddy) hmap hstart ▸ hz)
  · intro hb
    exact ⟨(h.start_bounds (by simp [hb])).2, h.map_free x.buddy hb⟩

theorem mergeUp (steps : ℕ) (h : Inv b P frees (x :: live)) (hx : x.order + steps = buddyMaxOrder) :
    ∃ y frees', (mergeUp steps x.order x.start b).1 = y.order ∧
      (mergeUp steps x.order x.start b).2.1 = y.start ∧
      Inv (mergeUp steps x.order x.start b).2.2 P frees' (y :: live) ∧
      (y.order < buddyMaxOrder → y.buddy ∉ frees') := by
  induction steps generalizing b frees x with
  | zero => exact ⟨x, frees, rfl, rfl, h, fun hlt => absurd hx (by omega)⟩
  | succ steps ih =>
    rw [Buddy.mergeUp]
    by_cases hfree : isFree b (buddyIdx x.start x.order) x.order
    · rw [if_pos hfree]
      obtain ⟨pre, post, rfl⟩ := List.append_of_mem (h.isFree_buddy.mp hfree)
      have hjoin := h.remove.join (by omega)
      have hmin : (if buddyIdx x.start x.order < x.start then buddyIdx x.start x.order else x.start) =
          x.parent.start := by
        rw [start_parent, start_buddy, ← buddyIdx]
        split <;> omega
      rw [hmin, buddyIdx, ← start_buddy]
      exact ih hjoin (by simp only [parent]; omega)
    · rw [if_neg hfree]
      exact ⟨x, frees, rfl, rfl, h, fun _ hb => hfree (h.isFree_buddy.mpr hb)⟩

theorem setFreePages (h : Inv b P frees live) (n : ℕ) :
    Inv { b with freePages := n } P frees live :=
  { h with }

theorem takeFrom {avail : ℕ} (h : Inv b P frees live) (hle : order ≤ avail)
    (hne : (b.free avail).count ≠ 0) :
    ∃ x frees', x.order = order ∧ (takeFrom order avail b).1 = nodeOf b x ∧ nodeOf b x ≠ 0 ∧
      fixedPart (takeFrom order avail b).2 = fixedPart b ∧
      Inv (takeFrom order avail b).2 P frees' (x :: live) := by
  obtain ⟨x, frees', hpop, hxo, hx, hinv⟩ := h.pop hne
  obtain ⟨y, frees'', hyo, hys, hsplit⟩ := hinv.splitDown (avail - order)
    (show x.order = order + (avail - order) by omega)
  have hfixed := (fixedPart_splitDown order x.start (avail - order)
    (Buddy.remove avail x.start b)).trans (fixedPart_remove avail x.start b)
  rw [Buddy.takeFrom, hpop]
  refine ⟨y, frees'', hyo, ?_, ?_, ?_, ?_⟩
  · rw [nodeOf, hys, pageAddr_congr hfixed]
  · rw [nodeOf, hys]
    exact h.nodeOf_ne_zero (by simp [hx])
  · rw [fixedPart_setFreePages, hfixed]
  · exact hsplit.setFreePages _

theorem buddyAlloc (h : Inv b P frees live) (hinit : b.initialized)
    (horder : order ≤ buddyMaxOrder) :
    (buddyAlloc order b = (0, b) ∧ ∀ x ∈ frees, x.order < order) ∨
      ∃ x frees', x.order = order ∧ (buddyAlloc order b).1 = nodeOf b x ∧ nodeOf b x ≠ 0 ∧
        fixedPart (buddyAlloc order b).2 = fixedPart b ∧
        Inv (buddyAlloc order b).2 P frees' (x :: live) := by
  have hvalid : ¬ ((order : ℤ) < 0 ∨ (buddyMaxOrder : ℤ) < order) := by omega
  obtain ⟨hle, hup, hempty, hfound⟩ := findAvail_spec b (buddyMaxOrder + 1 - order) order
  by_cases hfail : buddyMaxOrder < findAvail b (buddyMaxOrder + 1 - order) order
  · refine .inl ⟨?_, fun x hx => ?_⟩
    · rw [Buddy.buddyAlloc, hinit, if_neg (by simp), if_neg hvalid]
      exact if_pos hfail
    by_contra hge
    have hxo := h.order_le x (by simp [hx])
    have hcount := hempty x.order (by omega) (by omega)
    rw [h.count, List.length_eq_zero_iff] at hcount
    exact absurd (mem_ofOrder.mpr ⟨hx, rfl⟩) (by simp [hcount])
  · have hcall : Buddy.buddyAlloc order b =
        Buddy.takeFrom order (findAvail b (buddyMaxOrder + 1 - order) order) b := by
      rw [Buddy.buddyAlloc, hinit, if_neg (by simp), if_neg hvalid]
      exact if_neg hfail
    rw [hcall]
    exact .inr (h.takeFrom hle (hfound (by omega)))

theorem buddyFree_eq (h : Inv b P frees (x :: live)) (hinit : b.initialized) :
    Buddy.buddyFree (nodeOf b x) x.order b = giveBack x.order x.start b := by
  have hx : x ∈ frees ++ x :: live := by simp
  have hxo := h.order_le x hx
  have hbound := (h.start_bounds hx).2
  have hvalid : ¬ ((x.order : ℤ) < 0 ∨ (buddyMaxOrder : ℤ) < x.order) := by omega
  rw [Buddy.buddyFree, hinit, if_neg (by simp), if_neg hvalid, nodeOf, h.pageIdx_pageAddr hbound]
  exact if_neg (by omega)

theorem buddyFree (h : Inv b P frees (x :: live)) (hinit : b.initialized) :
    ∃ frees', fixedPart (buddyFree (nodeOf b x) x.order b) = fixedPart b ∧
      Inv (buddyFree (nodeOf b x) x.order b) P frees' live := by
  have hxo := h.order_le x (by simp)
  obtain ⟨y, frees', hyo, hys, hinv, hbuddy⟩ := h.mergeUp (buddyMaxOrder - x.order) (by omega)
  rw [h.buddyFree_eq hinit]
  refine ⟨y :: frees', ?_, ?_⟩
  · rw [giveBack, fixedPart_setFreePages, fixedPart_push, fixedPart_mergeUp]
  · simp only [giveBack, hyo, hys]
    exact (hinv.push hbuddy).setFreePages _

end Inv

end

/-! ## Seeding the free lists -/

section

variable {b : BuddyAllocator} {P : Set ℕ} {frees live : List Block} {x : Block} {order p p₀ : ℕ}

theorem Inv.acquire (h : Inv b P frees live) (hnew : ∀ q, x.Has q → q ∉ P)
    (hx : x.order ≤ buddyMaxOrder)
    (hbounds : ∀ q, x.Has q → mapPages b.totalPages ≤ q ∧ q < b.totalPages) :
    Inv b (P ∪ {q | x.Has q}) frees (x :: live) :=
  { h with
    order_le := fun y hy => by
      rcases List.mem_cons.mp (List.perm_middle.mem_iff.mp hy) with rfl | hy
      · exact hx
      · exact h.order_le y hy
    partition := (h.partition.cons hnew).perm List.perm_middle.symm
    bounds := fun q hq => hq.elim (h.bounds q) (hbounds q) }

structure Seeding (b : BuddyAllocator) (P : Set ℕ) (frees : List Block) (order p₀ p : ℕ) : Prop where
  inv : Inv b P frees []
  order_le : order ≤ buddyMaxOrder
  low : mapPages b.totalPages ≤ p
  below : ∀ q ∈ P, q < p
  orders : ∀ x ∈ frees, order ≤ x.order
  recent : ∀ x ∈ frees, x.order = order → p₀ ≤ x.start
  full : order < buddyMaxOrder → ∀ m, p₀ ≤ m → 2 ^ (order + 1) ∣ m → b.totalPages < m + 2 ^ (order + 1)

theorem Seeding.buddy_not_mem (h : Seeding b P frees order p₀ p) (hxo : x.order = order)
    (hp : p ≤ x.start) (hfit : x.start + 2 ^ order ≤ b.totalPages) (hlt : order < buddyMaxOrder) :
    x.buddy ∉ frees := by
  intro hb
  have hstart : x.buddy.start < x.start :=
    (h.below _ (h.inv.partition.only _ (by simp [hb]) _ x.buddy.has_start)).trans_le hp
  have hlimit := parent_limit hstart
  have hlow : p₀ ≤ x.parent.start := by
    rw [start_parent, min_eq_right hstart.le]
    exact h.recent _ hb hxo
  have hfull := h.full hlt x.parent.start hlow (by rw [← hxo]; exact Nat.dvd_mul_left _ _)
  have hporder : x.parent.order = order + 1 := by rw [← hxo]; rfl
  rw [hporder, hxo] at hlimit
  omega

theorem Seeding.push (h : Seeding b P frees order p₀ p) (hxo : x.order = order)
    (hp : p ≤ x.start) (hp₀ : p₀ ≤ p) (hfit : x.start + 2 ^ order ≤ b.totalPages) (n : ℕ) :
    Seeding { push order x.start b with freePages := n } (P ∪ {q | x.Has q}) (x :: frees) order p₀
      (x.start + 2 ^ order) := by
  have hhas (q : ℕ) (hq : x.Has q) : x.start ≤ q ∧ q < x.start + 2 ^ order := by
    rw [← hxo]
    exact has_iff.mp hq
  have hlow := h.low
  have hpos := Nat.two_pow_pos order
  have hheld := h.inv.acquire (x := x) (fun q hq hP => absurd (h.below q hP) (by have := hhas q hq; omega))
    (hxo ▸ h.order_le) (fun q hq => by have := hhas q hq; omega)
  have hinv := (hheld.push fun hlt => h.buddy_not_mem hxo hp hfit (hxo ▸ hlt)).setFreePages n
  rw [hxo] at hinv
  refine
    { inv := hinv
      order_le := h.order_le
      low := hlow.trans (by omega)
      below := fun q hq => ?_
      orders := fun y hy => ?_
      recent := fun y hy hyo => ?_
      full := h.full }
  · rcases hq with hq | hq
    · have := h.below q hq
      omega
    · exact (hhas q hq).2
  · rcases List.mem_cons.mp hy with rfl | hy
    · exact hxo.ge
    · exact h.orders y hy
  · rcases List.mem_cons.mp hy with rfl | hy
    · omega
    · exact h.recent y hy hyo

structure Seeded (b : BuddyAllocator) (P : Set ℕ) (frees : List Block) (order p : ℕ) : Prop where
  inv : Inv b P frees []
  low : mapPages b.totalPages ≤ p
  below : ∀ q ∈ P, q < p
  orders : ∀ x ∈ frees, order ≤ x.order
  full : order ≤ buddyMaxOrder → ∀ m, p ≤ m → 2 ^ order ∣ m → b.totalPages < m + 2 ^ order

theorem fixedPart_seedBlocks (order limit fuel p alignedP : ℕ) (b : BuddyAllocator) :
    fixedPart (seedBlocks order limit fuel p alignedP b).2 = fixedPart b := by
  induction fuel generalizing p alignedP b with
  | zero => rfl
  | succ fuel ih =>
    rw [seedBlocks]
    split
    · rw [ih, fixedPart_setFreePages, fixedPart_push]
    · rfl

theorem Seeding.seedBlocks {fuel alignedP : ℕ} (h : Seeding b P frees order p₀ p) (hp₀ : p₀ ≤ p)
    (hle : p ≤ alignedP) (hdvd : 2 ^ order ∣ alignedP)
    (hleast : ∀ m, p ≤ m → 2 ^ order ∣ m → alignedP ≤ m) (hfuel : b.totalPages < alignedP + fuel) :
    ∃ P' frees', Seeded (seedBlocks order b.totalPages fuel p alignedP b).2 P' frees' order
      (seedBlocks order b.totalPages fuel p alignedP b).1 := by
  have hdone (hfull : b.totalPages < alignedP + 2 ^ order) : Seeded b P frees order p :=
    ⟨h.inv, h.low, h.below, h.orders, fun _ m hm hmd => by have := hleast m hm hmd; omega⟩
  have hpos := Nat.two_pow_pos order
  induction fuel generalizing b P frees p alignedP with
  | zero => exact ⟨P, frees, hdone (by omega)⟩
  | succ fuel ih =>
    rw [Buddy.seedBlocks]
    by_cases hfit : alignedP + 2 ^ order ≤ b.totalPages
    · rw [if_pos hfit]
      let x : Block := ⟨order, alignedP / 2 ^ order⟩
      have hx : x.start = alignedP := Nat.div_mul_cancel hdvd
      rw [← hx] at hfit hle hdvd hfuel ⊢
      have hnext := h.push (x := x) rfl hle hp₀ hfit
        (addWord (Buddy.push order x.start b).freePages (2 ^ order))
      have hmult : 2 ^ order ∣ x.start + 2 ^ order := Nat.dvd_add hdvd (Nat.dvd_refl _)
      refine ih hnext (by omega) le_rfl hmult (fun m hm _ => hm) ?_ (fun hfull => ?_)
      · change b.totalPages < _
        omega
      · exact ⟨hnext.inv, hnext.low, hnext.below, hnext.orders, fun _ m hm _ =>
          lt_of_lt_of_le hfull (by omega)⟩
    · rw [if_neg hfit]
      exact ⟨P, frees, hdone (by omega)⟩

theorem fixedPart_seed (limit order p : ℕ) (b : BuddyAllocator) :
    fixedPart (seed limit order p b) = fixedPart b := by
  induction order generalizing p b with
  | zero => rfl
  | succ order ih =>
    rw [seed]
    split
    · rw [ih, fixedPart_seedBlocks]
    · rfl

theorem Seeded.seed (h : Seeded b P frees order p) (horder : order ≤ buddyMaxOrder + 1) :
    ∃ P' frees', Inv (seed b.totalPages order p b) P' frees' [] := by
  induction order generalizing b P frees p with
  | zero => exact ⟨P, frees, h.inv⟩
  | succ order ih =>
    rw [Buddy.seed]
    split_ifs with hp
    · have hsum : p + (2 ^ order - 1) < wordSize := by
        have htotal := h.inv.total_le
        have hpow : 2 ^ order ≤ 2 ^ buddyMaxOrder :=
          Nat.pow_le_pow_right (by decide) (by omega)
        simp only [buddyMaxPages, buddyMaxOrder, wordSize] at *
        omega
      have hloop : Seeding b P frees order p p :=
        { inv := h.inv
          order_le := by omega
          low := h.low
          below := h.below
          orders := fun x hx => (Nat.le_succ _).trans (h.orders x hx)
          recent := fun x hx hxo => absurd (h.orders x hx) (by omega)
          full := fun hlt => h.full hlt }
      obtain ⟨P', frees', hdone⟩ := hloop.seedBlocks le_rfl
        (le_alignUp (Nat.two_pow_pos order) hsum) (dvd_alignUp p (2 ^ order))
        (fun m hm hdvd => alignUp_le_of_dvd (Nat.two_pow_pos order) hm hdvd)
        (show b.totalPages < alignUp p (2 ^ order) + (b.totalPages + 1) by omega)
      have hrest := ih hdone (by omega)
      have htotal : (seedBlocks order b.totalPages (b.totalPages + 1) p (alignUp p (2 ^ order)) b).2.totalPages =
          b.totalPages := congrArg (fun t => t.2.1) (fixedPart_seedBlocks _ _ _ _ _ b)
      rwa [htotal] at hrest
    · exact ⟨P, frees, h.inv⟩

theorem Inv.setInitialized (h : Inv b P frees live) (flag : Bool) :
    Inv { b with initialized := flag } P frees live :=
  { h with }

theorem inv_buddyInit (basePhys : ℕ) {baseVirt sizeBytes : ℕ} (orderMap next prev : ℕ → ℕ)
    (hregion : baseVirt + managedPages sizeBytes * pageSize ≤ wordSize) :
    ∃ P frees, Inv (buddyInit basePhys baseVirt sizeBytes orderMap next prev) P frees [] ∧
      fixedPart (buddyInit basePhys baseVirt sizeBytes orderMap next prev) =
        (baseVirt, managedPages sizeBytes, true) := by
  let b : BuddyAllocator :=
    { basePhys := basePhys, baseVirt := baseVirt, totalPages := managedPages sizeBytes, freePages := 0
      free := fun _ => ⟨0, 0⟩
      orderMap := fun p => if p < managedPages sizeBytes then allocated else orderMap p
      initialized := false, next := next, prev := prev }
  have hempty : Inv b ∅ [] [] :=
    { region := hregion
      total_le := min_le_right _ _
      lists := fun _ => ⟨.nil, trivial⟩
      count := fun _ => rfl
      map_free := by simp
      map_other := fun p hp _ => if_pos hp
      order_le := by simp
      partition := ⟨by simp, by simp⟩
      bounds := by simp
      coalesced := by simp [Coalesced] }
  have hseeded : Seeded b ∅ [] (buddyMaxOrder + 1) (mapPages b.totalPages) :=
    ⟨hempty, le_rfl, by simp, by simp, fun h => absurd h (by simp)⟩
  have hlimit : mapPages b.totalPages + (b.totalPages - mapPages b.totalPages) = b.totalPages := by
    simp only [mapPages, pageSize]
    omega
  have hinit : buddyInit basePhys baseVirt sizeBytes orderMap next prev =
      { seed (mapPages b.totalPages + (b.totalPages - mapPages b.totalPages)) (buddyMaxOrder + 1)
          (mapPages b.totalPages) b with initialized := true } := rfl
  obtain ⟨P, frees, hinv⟩ := hseeded.seed le_rfl
  rw [hinit, hlimit]
  refine ⟨P, frees, hinv.setInitialized true, ?_⟩
  have hfixed := fixedPart_seed b.totalPages (buddyMaxOrder + 1) (mapPages b.totalPages) b
  exact congrArg (fun t => (t.1, t.2.1, true)) hfixed

end

end AetherOs.Buddy
