import AetherOs.Heap.Layout

/-! # Allocating a block -/

namespace AetherOs.Heap

open Function List

def roundUp (x align : ℕ) : ℕ := (x + (align - 1)) / align * align

def RequestFits (h : HeapState) (size : ℕ) : Prop :=
  h.heapCurrent + roundUp (roundUp (max size heapMinAlloc) 16 + hdrSize) pageSize < wordSize

instance (h : HeapState) (size : ℕ) : Decidable (RequestFits h size) :=
  inferInstanceAs (Decidable (_ < _))

theorem le_roundUp (x : ℕ) {align : ℕ} (halign : 0 < align) : x ≤ roundUp x align := by
  have hdiv := Nat.div_add_mod (x + (align - 1)) align
  have hmod := Nat.mod_lt (x + (align - 1)) halign
  rw [roundUp, Nat.mul_comm]
  omega

theorem alignUp_eq_roundUp {x align : ℕ} (h : x + (align - 1) < wordSize) :
    alignUp x align = roundUp x align := by
  rw [alignUp, addWord_eq h, roundUp]

theorem sum_lt_roundUp_add (x : ℕ) {align : ℕ} (halign : 0 < align) :
    x + (align - 1) < roundUp x align + align := by
  have hdiv := Nat.div_add_mod (x + (align - 1)) align
  have hmod := Nat.mod_lt (x + (align - 1)) halign
  rw [roundUp, Nat.mul_comm]
  omega

variable {mem : ℕ → HeapBlock} {start current head size : ℕ} {blocks frees rest : List ℕ}

theorem takeBlock_layout {h : HeapState}
    (hl : Layout h.mem start current h.freeList blocks (pre ++ c :: rest))
    (hfit : size ≤ (h.mem c).size) :
    ∃ blocks' frees', Layout (takeBlock h size pre.getLast? c).mem start current
        (takeBlock h size pre.getLast? c).freeList blocks' frees' ∧
      ∀ a, Used (takeBlock h size pre.getLast? c).mem blocks' a ↔ Used h.mem blocks a ∨ a = c := by
  by_cases hsplit : hdrSize + heapMinAlloc ≤ (h.mem c).size - size
  · have hs : Splits h start current blocks pre rest size c (c + hdrSize + size) :=
      ⟨hl, rfl, by simp only [hdrSize] at *; omega⟩
    obtain ⟨blocks', hlayout, hused⟩ := hs.cut
    obtain ⟨hlayout', hused'⟩ := Layout.unlink (h := cutBlock h size c) hlayout
    have hdetach : detachBlock h size pre.getLast? c =
        setLink (cutBlock h size c) pre.getLast? ((cutBlock h size c).mem c).next := by
      rw [detachBlock, if_pos hsplit, splitBlock, hs.newBlock_eq, hs.cut_self]
    simp only [takeBlock, hdetach]
    exact ⟨blocks', _, hlayout', fun a => (hused' a).trans (or_congr_left (hused a))⟩
  · have hdetach : detachBlock h size pre.getLast? c = setLink h pre.getLast? (h.mem c).next := by
      rw [detachBlock, if_neg hsplit]
    obtain ⟨hlayout, hused⟩ := hl.unlink
    simp only [takeBlock, hdetach]
    exact ⟨blocks, _, hlayout, hused⟩

theorem takeBlock_bounds (h : HeapState) (size : ℕ) (prev : Option ℕ) (c : ℕ) :
    (takeBlock h size prev c).heapStartAddr = h.heapStartAddr ∧
      (takeBlock h size prev c).heapEndAddr = h.heapEndAddr ∧
      (takeBlock h size prev c).heapCurrent = h.heapCurrent := by
  unfold takeBlock detachBlock splitBlock
  cases prev <;> split <;> exact ⟨rfl, rfl, rfl⟩

structure Grown (h h' : HeapState) (blocks frees : List ℕ) : Prop where
  start_eq : h'.heapStartAddr = h.heapStartAddr
  end_eq : h'.heapEndAddr = h.heapEndAddr
  current_le : h'.heapCurrent ≤ h.heapEndAddr
  head_eq : h'.freeList = h.heapCurrent
  layout : Layout h'.mem h'.heapStartAddr h'.heapCurrent h'.freeList
    (blocks ++ [h.heapCurrent]) (h.heapCurrent :: frees)
  used : ∀ a, Used h'.mem (blocks ++ [h.heapCurrent]) a ↔ Used h.mem blocks a

theorem Layout.append (hl : Layout mem start current head blocks frees) (needed : ℕ)
    (hneeded : hdrSize ≤ needed) (hlt : current + needed < wordSize) :
    Layout (update mem current
        ⟨heapMagic, blockFree ||| blockLast, needed - hdrSize, head⟩) start (current + needed) current
        (blocks ++ [current]) (current :: frees) ∧
      ∀ a, Used (update mem current
        ⟨heapMagic, blockFree ||| blockLast, needed - hdrSize, head⟩) (blocks ++ [current]) a ↔
        Used mem blocks a := by
  have hpos : 0 < needed := by simp only [hdrSize] at hneeded; omega
  have hnot : current ∉ blocks := fun hmem => by
    have := (hl.tiles.mem_bounds hmem).2
    simp only [blockEnd, hdrSize] at this
    omega
  have hkeep {a : ℕ} (ha : a ∈ blocks) : update mem current
      ⟨heapMagic, blockFree ||| blockLast, needed - hdrSize, head⟩ a = mem a :=
    update_of_ne (ne_of_mem_of_not_mem ha hnot) _ _
  refine ⟨⟨hl.start_pos, hlt, ?_, ?_, fun a => ?_, fun a ha hend => ?_⟩, fun a => ?_⟩
  · refine Tiles.append_cons.mpr ⟨?_, by simp, ?_⟩
    · refine hl.tiles.congr fun a ha => ?_
      rw [hkeep ha]
      exact ⟨rfl, rfl⟩
    · simp only [blockEnd, update_self, Tiles]
      omega
  · refine .cons (by have := hl.tiles.le; have := hl.start_pos; omega) ?_
    rw [update_self]
    refine hl.chain.congr fun a ha => ?_
    rw [hkeep (hl.mem_blocks ha)]
  · rw [mem_cons, mem_append, mem_singleton, hl.mem_frees]
    by_cases hac : a = current
    · subst hac
      simp [isFree_eq, blockFree]
    · simp [hac]
  · rcases mem_append.mp ha with ha | ha
    · have := (hl.tiles.mem_bounds ha).2
      rw [blockEnd, hkeep ha, ← blockEnd] at hend
      omega
    · simp [mem_singleton.mp ha, isLast_eq, blockFree, blockLast]
  · rw [Used, Used, mem_append, mem_singleton]
    by_cases hac : a = current
    · subst hac
      simp [isFree_eq, blockFree, hnot]
    · simp [hac]

theorem alignUp_needed {minSize : ℕ}
    (hfit : current + roundUp (minSize + hdrSize) pageSize < wordSize) :
    alignUp (addWord minSize hdrSize) pageSize = roundUp (minSize + hdrSize) pageSize := by
  have hle := le_roundUp (minSize + hdrSize) (show 0 < pageSize by decide)
  have hsum := sum_lt_roundUp_add (minSize + hdrSize) (show 0 < pageSize by decide)
  obtain ⟨q, hq⟩ : pageSize ∣ roundUp (minSize + hdrSize) pageSize := Nat.dvd_mul_left _ _
  rw [addWord_eq (by omega), alignUp_eq_roundUp]
  rw [hq] at hsum hfit
  simp only [pageSize, wordSize, hdrSize] at *
  omega

theorem expandHeap_layout {h : HeapState} (frames : ℕ → Bool) (minSize : ℕ)
    (hl : Layout h.mem h.heapStartAddr h.heapCurrent h.freeList blocks frees)
    (hfit : h.heapCurrent + roundUp (minSize + hdrSize) pageSize < wordSize) :
    expandHeap frames minSize h = none ∨
      ∃ h', expandHeap frames minSize h = some h' ∧ Grown h h' blocks frees ∧
        minSize ≤ (h'.mem h.heapCurrent).size := by
  have hle := le_roundUp (minSize + hdrSize) (show 0 < pageSize by decide)
  have hneeded := alignUp_needed hfit
  generalize roundUp (minSize + hdrSize) pageSize = needed at *
  obtain ⟨hlayout, hused⟩ := hl.append needed (by omega) hfit
  have hsize : subWord needed hdrSize = needed - hdrSize := subWord_eq (by omega) (by omega)
  unfold expandHeap
  simp only [hneeded, addWord_eq hfit, hsize]
  split
  · exact .inl rfl
  · rename_i hend
    split
    · refine .inr ⟨_, rfl, ⟨rfl, rfl, by simpa using hend, rfl, hlayout, hused⟩, ?_⟩
      simp only [update_self]
      omega
    · exact .inl rfl

theorem requestSize_eq {h : HeapState} (hfit : RequestFits h size) :
    requestSize size = roundUp (max size heapMinAlloc) 16 := by
  have hle := le_roundUp (roundUp (max size heapMinAlloc) 16 + hdrSize) (show 0 < pageSize by decide)
  have hsum := sum_lt_roundUp_add (max size heapMinAlloc) (show 0 < 16 by decide)
  rw [requestSize, alignUp_eq_roundUp]
  simp only [RequestFits, hdrSize] at *
  omega

theorem requestSize_idem {h : HeapState} (hfit : RequestFits h size) :
    requestSize size ≠ 0 ∧ requestSize (requestSize size) = requestSize size := by
  have heq := requestSize_eq hfit
  have hmin : heapMinAlloc ≤ requestSize size := by
    rw [heq]
    exact (le_max_right _ _).trans (le_roundUp _ (by decide))
  have hdvd : 16 ∣ requestSize size := by
    rw [heq]
    exact Nat.dvd_mul_left _ _
  have hlt : requestSize size + 15 < wordSize := by
    have hle := le_roundUp (requestSize size + hdrSize) (show 0 < pageSize by decide)
    rw [RequestFits, ← heq] at hfit
    simp only [hdrSize] at *
    omega
  generalize requestSize size = r at *
  refine ⟨fun h0 => absurd hmin (by rw [h0]; decide), ?_⟩
  rw [requestSize, max_eq_left hmin, alignUp_eq_roundUp hlt, roundUp]
  omega

structure Allocates (h h' : HeapState) (blocks : List ℕ) (c : ℕ) : Prop where
  start_eq : h'.heapStartAddr = h.heapStartAddr
  end_eq : h'.heapEndAddr = h.heapEndAddr
  current_le : h'.heapCurrent ≤ h'.heapEndAddr
  fresh : ¬ Used h.mem blocks c
  layout : ∃ blocks' frees',
    Layout h'.mem h'.heapStartAddr h'.heapCurrent h'.freeList blocks' frees' ∧
      ∀ a, Used h'.mem blocks' a ↔ Used h.mem blocks a ∨ a = c

theorem takeBlock_allocates {h : HeapState} (pre : List ℕ) (size : ℕ)
    (hl : Layout h.mem h.heapStartAddr h.heapCurrent h.freeList blocks (pre ++ c :: rest))
    (hend : h.heapCurrent ≤ h.heapEndAddr) (hfit : size ≤ (h.mem c).size) :
    Allocates h (takeBlock h size pre.getLast? c) blocks c ∧ blockToPtr c = c + hdrSize := by
  obtain ⟨hstart, hlimit, hcur⟩ := takeBlock_bounds h size pre.getLast? c
  have hlt := hl.blockEnd_lt (hl.mem_blocks (b := c) (by simp))
  refine ⟨⟨hstart, hlimit, by rw [hcur, hlimit]; exact hend, fun hused => ?_, ?_⟩, ?_⟩
  · have := hl.isFree (b := c) (by simp)
    rw [hused.2] at this
    cases this
  · rw [hstart, hcur]
    exact takeBlock_layout hl hfit
  · simp only [blockEnd] at hlt
    exact addWord_eq (by omega)

theorem findFit_grown {h h' : HeapState} (hgrown : Grown h h' blocks frees) (fuel : ℕ)
    (hroom : size ≤ (h'.mem h.heapCurrent).size) :
    findFit h' size fuel none h'.freeList = some (.ok (some (none, h.heapCurrent))) := by
  have hl := hgrown.layout
  have hc : h.heapCurrent ∈ blocks ++ [h.heapCurrent] := by simp
  have h0 : h.heapCurrent ≠ 0 := (hl.block_pos hc).ne'
  unfold findFit
  simp [hgrown.head_eq, h0, hl.tiles.magic hc, hl.isFree (b := h.heapCurrent) (by simp), hroom]

theorem kmalloc_layout {h : HeapState} (frames : ℕ → Bool) (fuel : ℕ)
    (hl : Layout h.mem h.heapStartAddr h.heapCurrent h.freeList blocks frees)
    (hend : h.heapCurrent ≤ h.heapEndAddr) (hfit : RequestFits h size) :
    (kmalloc frames fuel h size = none ∧ fuel < frees.length + 2) ∨
      kmalloc frames fuel h size = some (.ok (0, h)) ∨
      ∃ h' c, kmalloc frames fuel h size = some (.ok (c + hdrSize, h')) ∧ Allocates h h' blocks c := by
  cases fuel with
  | zero => exact .inl ⟨rfl, by omega⟩
  | succ fuel =>
    by_cases hsize : size = 0
    · exact .inr (.inl (by simp [kmalloc, hsize]))
    have hfind := findFit_layout (requestSize size) fuel [] frees hl
    rw [← hl.chain.head_eq_headD, nil_append, List.getLast?_nil] at hfind
    rcases hfind with ⟨hnone, hfuel⟩ | ⟨hnil, -⟩ | ⟨pre, c, rest, rfl, hc, hfound⟩
    · exact .inl ⟨by rw [kmalloc, if_neg hsize, hnone], by omega⟩
    · have hexp := expandHeap_layout frames (requestSize size) hl (by
        rw [requestSize_eq hfit]
        exact hfit)
      rcases hexp with hexp | ⟨h', hexp, hgrown, hroom⟩
      · refine .inr (.inl ?_)
        rw [kmalloc, if_neg hsize, hnil]
        simp only [hexp]
      · have hstep : kmalloc frames (fuel + 1) h size = kmalloc frames fuel h' (requestSize size) := by
          rw [kmalloc, if_neg hsize, hnil]
          simp only [hexp]
        rw [hstep]
        cases fuel with
        | zero => exact .inl ⟨rfl, by omega⟩
        | succ fuel =>
          obtain ⟨hne, hidem⟩ := requestSize_idem hfit
          have hl' := hgrown.layout
          obtain ⟨halloc, hptr⟩ := takeBlock_allocates [] (requestSize size) hl'
            (by rw [hgrown.end_eq]; exact hgrown.current_le) hroom
          obtain ⟨blocks', frees', hlayout, hused⟩ := halloc.layout
          refine .inr (.inr ⟨_, h.heapCurrent, ?_, halloc.start_eq.trans hgrown.start_eq,
            halloc.end_eq.trans hgrown.end_eq, halloc.current_le, fun hu => ?_,
            blocks', frees', hlayout, fun a => (hused a).trans (or_congr_left (hgrown.used a))⟩)
          · rw [kmalloc, if_neg hne, hidem, findFit_grown hgrown fuel hroom]
            simp only [hptr, List.getLast?_nil]
          · exact halloc.fresh ((hgrown.used _).mpr hu)
    · obtain ⟨halloc, hptr⟩ := takeBlock_allocates _ (requestSize size) hl hend hc
      refine .inr (.inr ⟨_, c, ?_, halloc⟩)
      rw [kmalloc, if_neg hsize, hfound]
      simp only [hptr]

end AetherOs.Heap
