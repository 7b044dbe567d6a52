import AetherOs.Heap.Layout

/-! # Releasing a block -/

namespace AetherOs.Heap

open Base Function List

def Ordered (mem : ℕ → HeapBlock) : List ℕ → Prop
  | [] => True
  | x :: rest => (mem x).isLast = true ∨
      ((mergeable mem x = true → rest.head? = some (nextBlock mem x)) ∧ Ordered mem rest)

def OrderedBehind (mem : ℕ → HeapBlock) (b : ℕ) : List ℕ → Prop
  | [] => True
  | x :: rest => (mem x).isLast = true ∨ (nextBlock mem x ≠ b ∧
      (mergeable mem x = true → rest.head? = some (nextBlock mem x)) ∧ OrderedBehind mem b rest)

def FreesInOrder (h : HeapState) (ptr : ℕ) : Prop :=
  ∃ frees, Chain (fun b => (h.mem b).next) 0 h.freeList frees ∧
    ((h.mem (ptrToBlock ptr)).isLast = true ∨
      ((mergeable h.mem (ptrToBlock ptr) = true → h.freeList = nextBlock h.mem (ptrToBlock ptr)) ∧
        OrderedBehind h.mem (ptrToBlock ptr) frees))

def pushedHeader (mem : ℕ → HeapBlock) (b head : ℕ) : ℕ → HeapBlock :=
  update mem b { mem b with flags := (mem b).flags ||| blockFree, next := head }

variable {mem : ℕ → HeapBlock} {start current head b x y : ℕ} {blocks frees rest : List ℕ}

theorem pushedHeader_keeps (a : ℕ) :
    (pushedHeader mem b head a).magic = (mem a).magic ∧
      (pushedHeader mem b head a).size = (mem a).size ∧
      (pushedHeader mem b head a).isLast = (mem a).isLast := by
  by_cases hab : a = b
  · subst hab
    simp [pushedHeader, isLast_eq, blockFree]
  · simp [pushedHeader, update_of_ne hab]

theorem pushedHeader_isFree (a : ℕ) :
    (pushedHeader mem b head a).isFree = (decide (a = b) || (mem a).isFree) := by
  by_cases hab : a = b
  · subst hab
    simp [pushedHeader, isFree_eq, blockFree]
  · simp [pushedHeader, hab]

theorem nextBlock_pushedHeader (a : ℕ) : nextBlock (pushedHeader mem b head) a = nextBlock mem a := by
  simp only [nextBlock, (pushedHeader_keeps a).2.1]

theorem mergeable_pushedHeader (a : ℕ) (h : mergeable (pushedHeader mem b head) a) :
    nextBlock mem a = b ∨ mergeable mem a := by
  simp only [mergeable, nextBlock_pushedHeader, (pushedHeader_keeps _).1, pushedHeader_isFree,
    Bool.and_eq_true, Bool.or_eq_true, decide_eq_true_eq] at h ⊢
  tauto

theorem Layout.push (h : Layout mem start current head blocks frees) (hb : Used mem blocks b) :
    Layout (pushedHeader mem b head) start current b blocks (b :: frees) := by
  have hbfrees : b ∉ frees := fun hmem => by
    have := h.isFree hmem
    rw [hb.2] at this
    cases this
  refine ⟨h.start_pos, h.current_lt, ?_, ?_, fun a => ?_, fun a ha hend => ?_⟩
  · exact h.tiles.congr fun a _ => ⟨(pushedHeader_keeps a).1, (pushedHeader_keeps a).2.1⟩
  · refine .cons (h.block_pos hb.1).ne' ?_
    rw [show (pushedHeader mem b head b).next = head by simp [pushedHeader]]
    exact h.chain.congr fun a ha => by
      rw [pushedHeader, update_of_ne (ne_of_mem_of_not_mem ha hbfrees)]
  · rw [mem_cons, h.mem_frees, pushedHeader_isFree]
    by_cases hab : a = b
    · simp [hab, hb.1]
    · simp [hab]
  · rw [(pushedHeader_keeps a).2.2]
    refine h.last a ha ?_
    rwa [blockEnd, (pushedHeader_keeps a).2.1] at hend

theorem used_pushedHeader (a : ℕ) :
    Used (pushedHeader mem b head) blocks a ↔ Used mem blocks a ∧ a ≠ b := by
  rw [Used, Used, pushedHeader_isFree]
  by_cases hab : a = b <;> simp [hab]

theorem OrderedBehind.pushed (h : OrderedBehind mem b rest) : Ordered (pushedHeader mem b head) rest := by
  induction rest with
  | nil => trivial
  | cons x rest ih =>
    rcases h with hlast | ⟨hne, hmerge, hrest⟩
    · exact .inl ((pushedHeader_keeps x).2.2.trans hlast)
    · refine .inr ⟨fun hm => ?_, ih hrest⟩
      rw [nextBlock_pushedHeader]
      exact hmerge ((mergeable_pushedHeader x hm).resolve_left hne)

theorem mergeNext_of_ne {a : ℕ} (hx : a ≠ x) (hy : a ≠ nextBlock mem x) :
    mergeNext mem x a = mem a := by
  simp [mergeNext, update_of_ne hx, update_of_ne hy]

section

variable (hxy : nextBlock mem x = y) (hne : x ≠ y)
include hxy hne

theorem mergeNext_self :
    mergeNext mem x x = { mem x with
      size := addWord (mem x).size (addWord hdrSize (mem y).size)
      flags := ((mem x).flags &&& ~~~blockLast) ||| ((mem y).flags &&& blockLast)
      next := (mem y).next } := by
  subst hxy
  simp [mergeNext, update_of_ne hne]

theorem mergeNext_next : mergeNext mem x y = { mem y with magic := 0 } := by
  subst hxy
  simp [mergeNext, update_of_ne hne.symm]

theorem mergeNext_flags :
    (mergeNext mem x x).isFree = (mem x).isFree ∧ (mergeNext mem x x).isLast = (mem y).isLast := by
  simp [mergeNext_self hxy hne, isFree_eq, isLast_eq, blockLast]

end

theorem mem_skip_iff {pre : List ℕ} {a : ℕ} (h : (pre ++ x :: y :: rest).Nodup) :
    a ∈ pre ++ x :: rest ↔ a ∈ pre ++ x :: y :: rest ∧ a ≠ y := by
  simp only [nodup_append, nodup_cons, mem_cons, mem_append] at h ⊢
  grind

structure Absorbs (mem : ℕ → HeapBlock) (start current head : ℕ) (blocks pre rest : List ℕ)
    (x y : ℕ) : Prop where
  layout : Layout mem start current head blocks (pre ++ x :: y :: rest)
  next_eq : nextBlock mem x = y
  not_last : (mem x).isLast = false

namespace Absorbs

variable {pre : List ℕ}

section

variable (h : Absorbs mem start current head blocks pre rest x y)

include h

theorem blockEnd_eq : blockEnd mem x = y := by
  rw [← h.layout.nextBlock_eq (h.layout.mem_blocks (by simp)), h.next_eq]

theorem ne : x ≠ y := by
  have := h.blockEnd_eq
  simp only [blockEnd, hdrSize] at this
  omega

theorem exists_blocks :
    ∃ before after, blocks = before ++ x :: y :: after := by
  obtain ⟨before, after, hblocks⟩ := h.layout.exists_next (h.layout.mem_blocks (by simp)) h.not_last
  exact ⟨before, after, by rw [hblocks, h.blockEnd_eq]⟩

theorem blockEnd_merged :
    blockEnd (mergeNext mem x) x = blockEnd mem y := by
  have hend := h.blockEnd_eq
  have hlt := h.layout.blockEnd_lt (h.layout.mem_blocks (b := y) (by simp))
  simp only [blockEnd, hdrSize, mergeNext_self h.next_eq h.ne] at hend hlt ⊢
  rw [addWord_eq (a := 32) (by omega), addWord_eq (by omega)]
  omega

theorem mergeNext_of_ne {a : ℕ} (hx : a ≠ x) (hy : a ≠ y): mergeNext mem x a = mem a :=
  Heap.mergeNext_of_ne hx (h.next_eq ▸ hy)

theorem mergeable_of_merged {a : ℕ} (hx : a ≠ x) (hy : a ≠ y) (hm : mergeable (mergeNext mem x) a): mergeable mem a := by
  have hnext : nextBlock (mergeNext mem x) a = nextBlock mem a := by
    simp only [nextBlock, h.mergeNext_of_ne hx hy]
  rw [mergeable, hnext] at hm
  by_cases hnx : nextBlock mem a = x
  · have hself := mergeNext_self h.next_eq h.ne
    simp only [mergeable, hnx, (mergeNext_flags h.next_eq h.ne).1] at hm ⊢
    rwa [hself] at hm
  · by_cases hny : nextBlock mem a = y
    · rw [hny, mergeNext_next h.next_eq h.ne] at hm
      simp [heapMagic] at hm
    · rwa [h.mergeNext_of_ne hnx hny] at hm

theorem isFree_merged {a : ℕ} (hy : a ≠ y) :
    (mergeNext mem x a).isFree = (mem a).isFree := by
  by_cases hx : a = x
  · rw [hx, (mergeNext_flags h.next_eq h.ne).1]
  · rw [h.mergeNext_of_ne hx hy]

end

theorem merged_tiles {before after : List ℕ}
    (h : Absorbs mem start current head (before ++ x :: y :: after) pre rest x y) :
    Tiles (mergeNext mem x) start (before ++ x :: after) current := by
  have hnodup := h.layout.tiles.nodup
  simp only [nodup_append, nodup_cons, mem_cons] at hnodup
  obtain ⟨hbefore, hmx, htail⟩ := Tiles.append_cons.mp h.layout.tiles
  obtain ⟨_, _, hafter⟩ := htail
  have hkeep {a : ℕ} (hx : a ≠ x) (hy : a ≠ y) : mergeNext mem x a = mem a := h.mergeNext_of_ne hx hy
  refine Tiles.append_cons.mpr ⟨?_, ?_, ?_⟩
  · refine hbefore.congr fun a ha => ?_
    rw [hkeep (by grind) (by grind)]
    exact ⟨rfl, rfl⟩
  · rwa [mergeNext_self h.next_eq h.ne]
  · rw [h.blockEnd_merged]
    refine hafter.congr fun a ha => ?_
    rw [hkeep (by grind) (by grind)]
    exact ⟨rfl, rfl⟩

section

variable (h : Absorbs mem start current head blocks pre rest x y)

include h

theorem merged_chain :
    Chain (fun b => (mergeNext mem x b).next) 0 head (pre ++ x :: rest) := by
  have hnodup := h.layout.chain.nodup
  simp only [nodup_append, nodup_cons, mem_cons] at hnodup
  have hkeep {a : ℕ} (hx : a ≠ x) (hy : a ≠ y) : (mergeNext mem x a).next = (mem a).next := by
    rw [h.mergeNext_of_ne hx hy]
  have hchain : Chain (fun b => (mem b).next) 0 head (pre ++ [x] ++ y :: rest) := by
    simpa using h.layout.chain
  have hrest := (hchain.suffix_cons (pre ++ [x])).head_cons.2.2
  have hgraft := hchain.graft (fun b => (mergeNext mem x b).next)
    (pre ++ [x]) (fun a ha => ?_) (fun a ha => ?_) (hrest.congr fun a ha => ?_)
  · simpa using hgraft
  · rw [dropLast_concat] at ha
    exact hkeep (by grind) (by grind)
  · obtain rfl : x = a := by simpa using ha
    rw [mergeNext_self h.next_eq h.ne]
  · exact hkeep (by grind) (by grind)

theorem merged :
    ∃ blocks', Layout (mergeNext mem x) start current head blocks' (pre ++ x :: rest) ∧
      ∀ a, Used (mergeNext mem x) blocks' a ↔ Used mem blocks a := by
  obtain ⟨before, after, rfl⟩ := h.exists_blocks
  have hfrees := fun a => mem_skip_iff (a := a) h.layout.chain.nodup
  have hblocks := fun a => mem_skip_iff (a := a) h.layout.tiles.nodup
  refine ⟨before ++ x :: after,
    ⟨h.layout.start_pos, h.layout.current_lt, h.merged_tiles, h.merged_chain, fun a => ?_,
      fun a ha hend => ?_⟩, fun a => ?_⟩
  · rw [hfrees, hblocks, h.layout.mem_frees]
    constructor
    · rintro ⟨⟨hin, hfree⟩, hy⟩
      exact ⟨⟨hin, hy⟩, (h.isFree_merged hy).trans hfree⟩
    · rintro ⟨⟨hin, hy⟩, hfree⟩
      exact ⟨⟨hin, (h.isFree_merged hy).symm.trans hfree⟩, hy⟩
  · obtain ⟨hin, hy⟩ := (hblocks a).mp ha
    by_cases hx : a = x
    · subst hx
      rw [(mergeNext_flags h.next_eq h.ne).2]
      exact h.layout.last y (by simp) (h.blockEnd_merged ▸ hend)
    · rw [blockEnd, h.mergeNext_of_ne hx hy] at hend
      rw [h.mergeNext_of_ne hx hy]
      exact h.layout.last a hin hend
  · rw [Used, Used, hblocks]
    have hyfree : (mem y).isFree := h.layout.isFree (by simp)
    constructor
    · rintro ⟨⟨hin, hy⟩, hused⟩
      exact ⟨hin, (h.isFree_merged hy).symm.trans hused⟩
    · rintro ⟨hin, hused⟩
      have hy : a ≠ y := by
        rintro rfl
        rw [hyfree] at hused
        cases hused
      exact ⟨⟨hin, hy⟩, (h.isFree_merged hy).trans hused⟩

theorem ordered_merged (hord : Ordered mem (y :: rest)): Ordered (mergeNext mem x) (x :: rest) := by
  obtain ⟨blocks', hlayout, _⟩ := h.merged
  have hnodup := h.layout.chain.nodup
  simp only [nodup_append, nodup_cons, mem_cons] at hnodup
  have hrest : ∀ l, (∀ a ∈ l, a ≠ x ∧ a ≠ y) → Ordered mem l → Ordered (mergeNext mem x) l := by
    intro l hl hol
    induction l with
    | nil => trivial
    | cons a l ih =>
      obtain ⟨hx, hy⟩ := hl a mem_cons_self
      have hkeep := h.mergeNext_of_ne hx hy
      rcases hol with hlast | ⟨hmerge, hol⟩
      · exact .inl (by rwa [hkeep])
      · refine .inr ⟨fun hm => ?_, ih (fun a ha => hl a (mem_cons_of_mem _ ha)) hol⟩
        rw [nextBlock, hkeep]
        exact hmerge (h.mergeable_of_merged hx hy hm)
  rcases hord with hlast | ⟨hmerge, hord⟩
  · exact .inl ((mergeNext_flags h.next_eq h.ne).2.trans hlast)
  · refine .inr ⟨fun hm => ?_, hrest rest (fun a ha => by grind) hord⟩
    have hxnext : nextBlock (mergeNext mem x) x = nextBlock mem y := by
      rw [hlayout.nextBlock_eq (hlayout.mem_blocks (by simp)), h.blockEnd_merged,
        h.layout.nextBlock_eq (h.layout.mem_blocks (by simp))]
    have hgt : x < nextBlock mem y ∧ y < nextBlock mem y := by
      have hy := h.blockEnd_eq
      rw [h.layout.nextBlock_eq (h.layout.mem_blocks (by simp))]
      simp only [blockEnd, hdrSize] at hy ⊢
      omega
    rw [hxnext]
    refine hmerge ?_
    rwa [mergeable, hxnext, h.mergeNext_of_ne hgt.1.ne' hgt.2.ne'] at hm

end

end Absorbs

theorem coalesce_stop {fuel curr : ℕ} (h : curr = 0 ∨ (mem curr).isLast) :
    coalesce fuel mem curr = some mem := by
  rw [coalesce.eq_def, if_pos h]

theorem coalesce_succ {fuel curr : ℕ} (h0 : curr ≠ 0) (hlast : (mem curr).isLast = false) :
    coalesce (fuel + 1) mem curr =
      if mergeable mem curr then coalesce fuel (mergeNext mem curr) curr
      else coalesce fuel mem (mem curr).next := by
  rw [coalesce.eq_def, if_neg (by simp [h0, hlast])]

theorem coalesce_layout (fuel : ℕ) (pre : List ℕ)
    (h : Layout mem start current head blocks (pre ++ rest)) (hord : Ordered mem rest) :
    (coalesce fuel mem (rest.headD 0) = none ∧ fuel < rest.length) ∨
      ∃ mem' blocks' frees', coalesce fuel mem (rest.headD 0) = some mem' ∧
        Layout mem' start current head blocks' frees' ∧ ∀ a, Used mem' blocks' a ↔ Used mem blocks a := by
  induction fuel generalizing mem blocks pre rest with
  | zero =>
    by_cases hstop : rest.headD 0 = 0 ∨ (mem (rest.headD 0)).isLast
    · exact .inr ⟨mem, blocks, _, coalesce_stop hstop, h, fun _ => Iff.rfl⟩
    · refine .inl ⟨by rw [coalesce.eq_def, if_neg hstop], ?_⟩
      cases rest with
      | nil => simp at hstop
      | cons x rest => simp
  | succ fuel ih =>
    by_cases hstop : rest.headD 0 = 0 ∨ (mem (rest.headD 0)).isLast
    · exact .inr ⟨mem, blocks, _, coalesce_stop hstop, h, fun _ => Iff.rfl⟩
    · cases rest with
      | nil => simp at hstop
      | cons x rest =>
        rw [headD_cons, not_or, Bool.not_eq_true] at hstop
        obtain ⟨hmerge, hrest⟩ := hord.resolve_left (by simp [hstop.2])
        rw [headD_cons, coalesce_succ hstop.1 hstop.2]
        by_cases hm : mergeable mem x
        · obtain ⟨tail, rfl⟩ : ∃ tail, rest = nextBlock mem x :: tail :=
            List.head?_eq_some_iff.mp (hmerge hm)
          have habs : Absorbs mem start current head blocks pre tail x (nextBlock mem x) :=
            ⟨h, rfl, hstop.2⟩
          obtain ⟨blocks', hlayout, hused⟩ := habs.merged
          rw [if_pos hm]
          rcases ih pre hlayout (habs.ordered_merged hrest) with
            ⟨hnone, hfuel⟩ | ⟨mem', bs, fs, hsome, hl, hu⟩
          · exact .inl ⟨hnone, by simpa using hfuel⟩
          · exact .inr ⟨mem', bs, fs, hsome, hl, fun a => (hu a).trans (hused a)⟩
        · rw [if_neg hm, h.chain.next_eq_headD pre]
          rcases ih (pre ++ [x]) (by simpa using h) hrest with ⟨hnone, hfuel⟩ | hdone
          · exact .inl ⟨hnone, by simpa using hfuel⟩
          · exact .inr hdone

theorem kfree_layout {h : HeapState} {frees : List ℕ} (fuel : ℕ)
    (hl : Layout h.mem h.heapStartAddr h.heapCurrent h.freeList blocks frees)
    (hb : Used h.mem blocks b) (hord : FreesInOrder h (b + hdrSize)) :
    (kfree fuel h (b + hdrSize) = none ∧ fuel ≤ frees.length) ∨
      ∃ h' blocks' frees', kfree fuel h (b + hdrSize) = some (.ok h') ∧
        h'.heapStartAddr = h.heapStartAddr ∧ h'.heapEndAddr = h.heapEndAddr ∧
        h'.heapCurrent = h.heapCurrent ∧
        Layout h'.mem h'.heapStartAddr h'.heapCurrent h'.freeList blocks' frees' ∧
        ∀ a, Used h'.mem blocks' a ↔ Used h.mem blocks a ∧ a ≠ b := by
  have hlt : b + hdrSize < wordSize := by
    have := hl.blockEnd_lt hb.1
    simp only [blockEnd] at this
    omega
  have hptr : ptrToBlock (b + hdrSize) = b := by
    rw [ptrToBlock, subWord_eq hlt (by omega)]
    omega
  obtain ⟨frees', hchain, hcond⟩ := hord
  rw [hptr] at hcond
  obtain rfl := hchain.unique hl.chain
  have hordered : Ordered (pushedHeader h.mem b h.freeList) (b :: frees') := by
    rcases hcond with hlast | ⟨hmerge, hrest⟩
    · exact .inl ((pushedHeader_keeps b).2.2.trans hlast)
    · refine .inr ⟨fun hm => ?_, hrest.pushed⟩
      rw [nextBlock_pushedHeader]
      have hnext := hl.nextBlock_eq hb.1
      have hne : nextBlock h.mem b ≠ b := by
        simp only [hnext, blockEnd, hdrSize]
        omega
      have hhead := hmerge ((mergeable_pushedHeader b hm).resolve_left hne)
      obtain ⟨tail, rfl, _⟩ := hchain.of_ne_null (by
        rw [hhead, hnext]
        simp only [blockEnd, hdrSize]
        omega)
      rw [hhead]
      rfl
  have hfree : kfree fuel h (b + hdrSize) =
      (coalesce fuel (pushedHeader h.mem b h.freeList) b).map
        fun mem => .ok { pushFree h b with mem := mem } := by
    have hpos : b + hdrSize ≠ 0 := by simp [hdrSize]
    have hmagic : (h.mem b).magic = heapMagic := hl.tiles.magic hb.1
    simp only [kfree, hptr, hpos, hmagic, hb.2, if_false, ne_eq, not_true_eq_false,
      Bool.false_eq_true]
    rfl
  rw [hfree]
  rcases coalesce_layout fuel [] (hl.push hb) hordered with
    ⟨hnone, hfuel⟩ | ⟨mem', blocks', fs, hsome, hlayout, hused⟩
  · refine .inl ⟨by rw [headD_cons] at hnone; rw [hnone]; rfl, ?_⟩
    simpa using Nat.lt_succ_iff.mp hfuel
  · refine .inr ⟨{ pushFree h b with mem := mem' }, blocks', fs, ?_, rfl, rfl, rfl, hlayout, fun a => ?_⟩
    · rw [headD_cons] at hsome
      rw [hsome]
      rfl
    · exact (hused a).trans (used_pushedHeader a)

end AetherOs.Heap
