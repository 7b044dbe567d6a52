import AetherOs.Base.Chain
import AetherOs.Base.Flags
import AetherOs.Heap.Model
import Mathlib.Data.List.Pairwise

/-! # The layout of the heap -/

namespace AetherOs.Heap

open Base Function List

section

theorem isFree_eq (b : HeapBlock) : b.isFree = b.flags.getLsbD 0 := and_twoPow_bne_zero _ _

theorem isLast_eq (b : HeapBlock) : b.isLast = b.flags.getLsbD 1 := and_twoPow_bne_zero _ _

def Tiles (mem : ℕ → HeapBlock) : ℕ → List ℕ → ℕ → Prop
  | a, [], limit => a = limit
  | a, b :: blocks, limit =>
    a = b ∧ (mem b).magic = heapMagic ∧ Tiles mem (b + hdrSize + (mem b).size) blocks limit

instance Tiles.decidable (mem : ℕ → HeapBlock) :
    ∀ (a : ℕ) (blocks : List ℕ) (limit : ℕ), Decidable (Tiles mem a blocks limit)
  | a, [], limit => inferInstanceAs (Decidable (a = limit))
  | a, b :: blocks, limit =>
    have := Tiles.decidable mem (b + hdrSize + (mem b).size) blocks limit
    inferInstanceAs (Decidable (a = b ∧ (mem b).magic = heapMagic ∧ Tiles mem _ blocks limit))

def blockEnd (mem : ℕ → HeapBlock) (b : ℕ) : ℕ := b + hdrSize + (mem b).size

variable {mem mem' : ℕ → HeapBlock} {a b limit : ℕ} {blocks : List ℕ}

namespace Tiles

section

variable (h : Tiles mem a blocks limit)

include h

theorem le : a ≤ limit := by
  induction blocks generalizing a with
  | nil => exact h.le
  | cons b blocks ih =>
    obtain ⟨rfl, _, htail⟩ := h
    have := ih htail
    omega

theorem mem_bounds (hb : b ∈ blocks) :
    a ≤ b ∧ blockEnd mem b ≤ limit := by
  induction blocks generalizing a with
  | nil => simp at hb
  | cons c blocks ih =>
    obtain ⟨rfl, _, htail⟩ := h
    rcases mem_cons.mp hb with rfl | hb
    · exact ⟨le_rfl, htail.le⟩
    · have := ih htail hb
      omega

theorem magic (hb : b ∈ blocks) : (mem b).magic = heapMagic := by
  induction blocks generalizing a with
  | nil => simp at hb
  | cons c blocks ih =>
    obtain ⟨rfl, hmagic, htail⟩ := h
    rcases mem_cons.mp hb with rfl | hb
    · exact hmagic
    · exact ih htail hb

theorem pairwise :
    blocks.Pairwise fun b c => blockEnd mem b ≤ c := by
  induction blocks generalizing a with
  | nil => exact .nil
  | cons b blocks ih =>
    obtain ⟨rfl, _, htail⟩ := h
    exact pairwise_cons.mpr ⟨fun c hc => (htail.mem_bounds hc).1, ih htail⟩

theorem nodup : blocks.Nodup := by
  refine h.pairwise.imp fun {b c} hbc => ?_
  simp only [blockEnd, hdrSize] at hbc
  omega

theorem congr (hagree : ∀ b ∈ blocks, (mem' b).magic = (mem b).magic ∧ (mem' b).size = (mem b).size):
    Tiles mem' a blocks limit := by
  induction blocks generalizing a with
  | nil => exact h
  | cons b blocks ih =>
    obtain ⟨rfl, hmagic, htail⟩ := h
    obtain ⟨hm, hs⟩ := hagree a mem_cons_self
    refine ⟨rfl, hm.trans hmagic, ?_⟩
    rw [hs]
    exact ih htail fun b hb => hagree b (mem_cons_of_mem _ hb)

end

theorem append_cons {pre post : List ℕ} :
    Tiles mem a (pre ++ b :: post) limit ↔
      Tiles mem a pre b ∧ (mem b).magic = heapMagic ∧ Tiles mem (blockEnd mem b) post limit := by
  induction pre generalizing a with
  | nil => rfl
  | cons c pre ih => simp only [cons_append, Tiles, ih, and_assoc]

theorem disjoint (h : Tiles mem a blocks limit) {c : ℕ} (hb : b ∈ blocks) (hc : c ∈ blocks)
    (hne : b ≠ c) : blockEnd mem b ≤ c ∨ blockEnd mem c ≤ b := by
  let apart := fun b c => blockEnd mem b ≤ c ∨ blockEnd mem c ≤ b
  have hsymm : Std.Symm apart := ⟨fun _ _ => Or.symm⟩
  have hall : blocks.Pairwise apart := h.pairwise.imp Or.inl
  exact hall.forall hb hc hne

theorem unique {blocks' : List ℕ} (h : Tiles mem a blocks limit)
    (h' : Tiles mem a blocks' limit) : blocks = blocks' := by
  induction blocks generalizing a blocks' with
  | nil =>
    cases blocks' with
    | nil => rfl
    | cons c blocks' =>
      obtain ⟨rfl, _, htail⟩ := h'
      have := htail.le
      simp only [Tiles, hdrSize] at h this
      omega
  | cons b blocks ih =>
    obtain ⟨rfl, _, htail⟩ := h
    cases blocks' with
    | nil =>
      have := htail.le
      simp only [Tiles, hdrSize] at h' this
      omega
    | cons c blocks' =>
      obtain ⟨rfl, _, htail'⟩ := h'
      rw [ih htail htail']

end Tiles

structure Layout (mem : ℕ → HeapBlock) (start current head : ℕ) (blocks frees : List ℕ) : Prop where
  start_pos : 0 < start
  current_lt : current < wordSize
  tiles : Tiles mem start blocks current
  chain : Chain (fun b => (mem b).next) 0 head frees
  mem_frees : ∀ b, b ∈ frees ↔ b ∈ blocks ∧ (mem b).isFree = true
  last : ∀ b ∈ blocks, blockEnd mem b = current → (mem b).isLast = true

def Used (mem : ℕ → HeapBlock) (blocks : List ℕ) (b : ℕ) : Prop :=
  b ∈ blocks ∧ (mem b).isFree = false

namespace Layout

variable {start current head : ℕ} {frees : List ℕ}

section

variable (h : Layout mem start current head blocks frees)

include h

theorem blockEnd_lt (hb : b ∈ blocks) :
    blockEnd mem b < wordSize :=
  (h.tiles.mem_bounds hb).2.trans_lt h.current_lt

theorem block_pos (hb : b ∈ blocks) : 0 < b :=
  h.start_pos.trans_le (h.tiles.mem_bounds hb).1

theorem nextBlock_eq (hb : b ∈ blocks) :
    nextBlock mem b = blockEnd mem b := by
  have hlt := h.blockEnd_lt hb
  rw [nextBlock, addWord_eq (a := b) (by simp only [blockEnd] at hlt; omega), addWord_eq hlt]
  rfl

theorem exists_next (hb : b ∈ blocks) (hlast : (mem b).isLast = false):
    ∃ pre post, blocks = pre ++ b :: blockEnd mem b :: post := by
  obtain ⟨pre, post, rfl⟩ := append_of_mem hb
  obtain ⟨_, _, htail⟩ := Tiles.append_cons.mp h.tiles
  cases post with
  | nil =>
    have hflag := h.last b hb htail
    rw [hlast] at hflag
    cases hflag
  | cons c post =>
    obtain ⟨hc, _, _⟩ := htail
    exact ⟨pre, post, by rw [hc]⟩

theorem mem_blocks (hb : b ∈ frees) : b ∈ blocks :=
  ((h.mem_frees b).mp hb).1

theorem isFree (hb : b ∈ frees) :
    (mem b).isFree :=
  ((h.mem_frees b).mp hb).2

end

end Layout

end

/-! ## Searching the free list and taking a block off it -/

section

variable {mem : ℕ → HeapBlock} {start current head c : ℕ} {blocks rest : List ℕ}

theorem findFit_layout {h : HeapState} (size fuel : ℕ) (pre rest : List ℕ)
    (hl : Layout h.mem start current head blocks (pre ++ rest)) :
    (findFit h size fuel pre.getLast? (rest.headD 0) = none ∧ fuel < rest.length) ∨
      (findFit h size fuel pre.getLast? (rest.headD 0) = some (.ok none) ∧ ∀ b ∈ rest, (h.mem b).size < size) ∨
      ∃ pre' c rest', pre ++ rest = pre' ++ c :: rest' ∧ size ≤ (h.mem c).size ∧
        findFit h size fuel pre.getLast? (rest.headD 0) = some (.ok (some (pre'.getLast?, c))) := by
  induction rest generalizing fuel pre with
  | nil =>
    refine .inr (.inl ⟨?_, by simp⟩)
    unfold findFit
    simp
  | cons c rest ih =>
    have hc : c ∈ blocks := hl.mem_blocks (by simp)
    have h0 : c ≠ 0 := (hl.block_pos hc).ne'
    have hmagic := hl.tiles.magic hc
    by_cases hfit : size ≤ (h.mem c).size
    · refine .inr (.inr ⟨pre, c, rest, rfl, hfit, ?_⟩)
      unfold findFit
      simp [h0, hmagic, hl.isFree (b := c) (by simp), hfit]
    · cases fuel with
      | zero => exact .inl ⟨by simp [findFit, h0, hmagic, hfit], by simp⟩
      | succ fuel =>
        have hstep : findFit h size (fuel + 1) pre.getLast? c =
            findFit h size fuel (pre ++ [c]).getLast? (rest.headD 0) := by
          rw [findFit, ← hl.chain.next_eq_headD pre]
          simp [h0, hmagic, hfit]
        rw [headD_cons, hstep]
        rcases ih fuel (pre ++ [c]) (by simpa using hl) with ⟨hnone, hfuel⟩ | ⟨hnil, hless⟩ | ⟨p, d, r, hd⟩
        · exact .inl ⟨hnone, by simpa using hfuel⟩
        · exact .inr (.inl ⟨hnil, forall_mem_cons.mpr ⟨by omega, hless⟩⟩)
        · exact .inr (.inr ⟨p, d, r, by simpa using hd⟩)

theorem setLink_keeps (h : HeapState) (prev : Option ℕ) (target a : ℕ) :
    ((setLink h prev target).mem a).magic = (h.mem a).magic ∧
      ((setLink h prev target).mem a).size = (h.mem a).size ∧
      ((setLink h prev target).mem a).flags = (h.mem a).flags := by
  cases prev with
  | none => exact ⟨rfl, rfl, rfl⟩
  | some p =>
    by_cases hap : a = p
    · subst hap
      simp [setLink]
    · simp [setLink, update_of_ne hap]

theorem setLink_next (h : HeapState) (prev : Option ℕ) (target a : ℕ) :
    ((setLink h prev target).mem a).next = if prev = some a then target else (h.mem a).next := by
  cases prev with
  | none => rfl
  | some p =>
    by_cases hap : a = p
    · subst hap
      simp [setLink]
    · simp [setLink, update_of_ne hap, Ne.symm hap]

theorem setLink_chain {h : HeapState}
    (hchain : Chain (fun b => (h.mem b).next) 0 h.freeList (pre ++ c :: rest)) :
    Chain (fun b => ((setLink h pre.getLast? (h.mem c).next).mem b).next) 0
      (setLink h pre.getLast? (h.mem c).next).freeList (pre ++ rest) := by
  have hnodup := hchain.nodup
  have hrest := (hchain.suffix_cons pre).head_cons.2.2
  simp only [nodup_append, nodup_cons, mem_cons] at hnodup
  have hgraft := hchain.graft (fun b => ((setLink h pre.getLast? (h.mem c).next).mem b).next)
    pre (fun a ha => ?_) (fun a ha => ?_)
    (hrest.congr fun a ha => ?_)
  · rcases eq_nil_or_concat' pre with rfl | ⟨front, p, rfl⟩
    · simpa [setLink] using hgraft
    · simpa [setLink] using hgraft
  · rw [setLink_next, if_neg]
    intro hlast
    rcases eq_nil_or_concat' pre with rfl | ⟨front, p, rfl⟩
    · simp at hlast
    · simp only [List.getLast?_concat, Option.some.injEq, dropLast_concat] at hlast ha
      subst hlast
      simp only [nodup_append, mem_singleton] at hnodup
      exact hnodup.1.2.2 p ha p rfl rfl
  · rw [setLink_next, if_pos (Option.mem_def.mp ha)]
  · rw [setLink_next, if_neg]
    intro hlast
    exact hnodup.2.2 a (mem_of_getLast? hlast) a (.inr ha) rfl

theorem markUsed_keeps (a : ℕ) :
    (markUsed mem c a).magic = (mem a).magic ∧ (markUsed mem c a).size = (mem a).size ∧
      (markUsed mem c a).next = (mem a).next ∧ (markUsed mem c a).isLast = (mem a).isLast ∧
      (markUsed mem c a).isFree = (!decide (a = c) && (mem a).isFree) := by
  by_cases hac : a = c
  · subst hac
    simp [markUsed, isLast_eq, isFree_eq, blockFree]
  · simp [markUsed, hac]

theorem Layout.unlink {h : HeapState} {pre : List ℕ}
    (hl : Layout h.mem start current h.freeList blocks (pre ++ c :: rest)) :
    Layout (markUsed (setLink h pre.getLast? (h.mem c).next).mem c) start current
        (setLink h pre.getLast? (h.mem c).next).freeList blocks (pre ++ rest) ∧
      ∀ a, Used (markUsed (setLink h pre.getLast? (h.mem c).next).mem c) blocks a ↔
        Used h.mem blocks a ∨ a = c := by
  have hc : c ∈ blocks := hl.mem_blocks (by simp)
  have hkeep := setLink_keeps h pre.getLast? (h.mem c).next
  have hfree (a : ℕ) : (markUsed (setLink h pre.getLast? (h.mem c).next).mem c a).isFree =
      (!decide (a = c) && (h.mem a).isFree) := by
    rw [(markUsed_keeps a).2.2.2.2, isFree_eq, isFree_eq, (hkeep a).2.2]
  have hsize (a : ℕ) : (markUsed (setLink h pre.getLast? (h.mem c).next).mem c a).size =
      (h.mem a).size := (markUsed_keeps a).2.1.trans (hkeep a).2.1
  refine ⟨⟨hl.start_pos, hl.current_lt, ?_, ?_, fun a => ?_, fun a ha hend => ?_⟩, fun a => ?_⟩
  · exact hl.tiles.congr fun a _ => ⟨(markUsed_keeps a).1.trans (hkeep a).1, hsize a⟩
  · exact (setLink_chain hl.chain).congr fun a _ => (markUsed_keeps a).2.2.1
  · have hmem := hl.mem_frees a
    have hnodup := hl.chain.nodup
    simp only [nodup_append, nodup_cons, mem_append, mem_cons] at hmem hnodup ⊢
    rw [hfree]
    by_cases hac : a = c
    · subst hac
      simp only [decide_true, Bool.not_true, Bool.false_and, Bool.false_eq_true, and_false, iff_false]
      grind
    · simpa [hac] using hmem
  · rw [(markUsed_keeps a).2.2.2.1, isLast_eq, (hkeep a).2.2, ← isLast_eq]
    refine hl.last a ha ?_
    rwa [blockEnd, hsize] at hend
  · rw [Used, Used, hfree]
    by_cases hac : a = c
    · subst hac
      simp [hc]
    · simp [hac]

end

/-! ## Splitting a free block -/

section

variable {start current c n size : ℕ} {blocks pre rest : List ℕ}

structure Splits (h : HeapState) (start current : ℕ) (blocks pre rest : List ℕ) (size c n : ℕ) :
    Prop where
  layout : Layout h.mem start current h.freeList blocks (pre ++ c :: rest)
  tail_eq : c + hdrSize + size = n
  room : size + hdrSize ≤ (h.mem c).size

namespace Splits

variable {h : HeapState}

section

variable (hs : Splits h start current blocks pre rest size c n)

include hs

theorem newBlock_eq :
    addWord (addWord c hdrSize) size = n := by
  have hlt := hs.layout.blockEnd_lt (hs.layout.mem_blocks (b := c) (by simp))
  have := hs.tail_eq
  have := hs.room
  simp only [blockEnd] at hlt
  rw [addWord_eq (a := c) (by omega), addWord_eq (by omega), hs.tail_eq]

theorem bounds :
    c < n ∧ n + hdrSize ≤ blockEnd h.mem c := by
  have := hs.tail_eq
  have := hs.room
  simp only [blockEnd, hdrSize] at *
  omega

theorem not_mem : n ∉ blocks := by
  intro hn
  have hb := hs.bounds
  have hd := hs.layout.tiles.disjoint hn (hs.layout.mem_blocks (b := c) (by simp)) (by omega)
  simp only [blockEnd, hdrSize] at hb hd
  omega

theorem cut_tail :
    (cutBlock h size c).mem n = ⟨heapMagic, blockFree ||| ((h.mem c).flags &&& blockLast),
      (h.mem c).size - size - hdrSize, (h.mem c).next⟩ := by
  simp [cutBlock, hs.newBlock_eq, update_of_ne hs.bounds.1.ne']

theorem cut_self :
    (cutBlock h size c).mem c = { h.mem c with
      size := size, flags := (h.mem c).flags &&& ~~~blockLast, next := n } := by
  simp [cutBlock, hs.newBlock_eq, update_of_ne hs.bounds.1.ne]

theorem cut_of_ne {a : ℕ} (hc : a ≠ c) (hn : a ≠ n): (cutBlock h size c).mem a = h.mem a := by
  simp [cutBlock, hs.newBlock_eq, update_of_ne hc, update_of_ne hn]

theorem blockEnd_cut :
    blockEnd (cutBlock h size c).mem c = n ∧
      blockEnd (cutBlock h size c).mem n = blockEnd h.mem c := by
  have := hs.tail_eq
  have := hs.room
  simp only [blockEnd, hs.cut_self, hs.cut_tail, hdrSize] at *
  omega

theorem cut_flags :
    ((cutBlock h size c).mem c).isFree ∧ ((cutBlock h size c).mem n).isFree ∧
      ((cutBlock h size c).mem n).isLast = (h.mem c).isLast := by
  have hfree := hs.layout.isFree (b := c) (by simp)
  rw [isFree_eq] at hfree
  simp [hs.cut_self, hs.cut_tail, isFree_eq, isLast_eq, blockFree, blockLast, hfree]

end

theorem cut_tiles {before after : List ℕ}
    (hs : Splits h start current (before ++ c :: after) pre rest size c n) :
    Tiles (cutBlock h size c).mem start (before ++ c :: n :: after) current := by
  have hnodup := hs.layout.tiles.nodup
  have hn := hs.not_mem
  obtain ⟨hbefore, hmagic, hafter⟩ := Tiles.append_cons.mp hs.layout.tiles
  simp only [nodup_append, nodup_cons, mem_cons, mem_append] at hnodup hn
  refine Tiles.append_cons.mpr ⟨?_, ?_, ?_, ?_, ?_⟩
  · refine hbefore.congr fun a ha => ?_
    rw [hs.cut_of_ne (by grind) (by grind)]
    exact ⟨rfl, rfl⟩
  · rwa [hs.cut_self]
  · exact hs.blockEnd_cut.1
  · rw [hs.cut_tail]
  · change Tiles _ (blockEnd _ n) after current
    rw [hs.blockEnd_cut.2]
    refine hafter.congr fun a ha => ?_
    rw [hs.cut_of_ne (by grind) (by grind)]
    exact ⟨rfl, rfl⟩

theorem cut_chain (hs : Splits h start current blocks pre rest size c n) :
    Chain (fun b => ((cutBlock h size c).mem b).next) 0 h.freeList (pre ++ c :: n :: rest) := by
  have hnodup := hs.layout.chain.nodup
  have hn : n ∉ pre ++ c :: rest := fun hmem => hs.not_mem (hs.layout.mem_blocks hmem)
  simp only [nodup_append, nodup_cons, mem_cons, mem_append] at hnodup hn
  have hkeep {a : ℕ} (hc : a ≠ c) (hn : a ≠ n) :
      ((cutBlock h size c).mem a).next = (h.mem a).next := by rw [hs.cut_of_ne hc hn]
  have hchain : Chain (fun b => (h.mem b).next) 0 h.freeList (pre ++ [c] ++ rest) := by
    simpa using hs.layout.chain
  have hrest := (hs.layout.chain.suffix_cons pre).head_cons.2.2
  have htail : Chain (fun b => ((cutBlock h size c).mem b).next) 0 n (n :: rest) := by
    refine .cons (by have := hs.bounds; omega) ?_
    rw [hs.cut_tail]
    exact hrest.congr fun a ha => hkeep (by grind) (by grind)
  have hgraft := hchain.graft (fun b => ((cutBlock h size c).mem b).next)
    (pre ++ [c]) (fun a ha => ?_) (fun a ha => ?_) htail
  · simpa using hgraft
  · rw [dropLast_concat] at ha
    exact hkeep (by grind) (by grind)
  · obtain rfl : c = a := by simpa using ha
    rw [hs.cut_self]

theorem cut (hs : Splits h start current blocks pre rest size c n) :
    ∃ blocks', Layout (cutBlock h size c).mem start current h.freeList blocks' (pre ++ c :: n :: rest) ∧
      ∀ a, Used (cutBlock h size c).mem blocks' a ↔ Used h.mem blocks a := by
  have hc : c ∈ blocks := hs.layout.mem_blocks (by simp)
  have hcfree := hs.layout.isFree (b := c) (by simp)
  obtain ⟨before, after, rfl⟩ := append_of_mem hc
  have hn := hs.not_mem
  have hflags := hs.cut_flags
  have hend := hs.blockEnd_cut
  have hblocks (a : ℕ) : a ∈ before ++ c :: n :: after ↔ a ∈ before ++ c :: after ∨ a = n := by
    simp only [mem_append, mem_cons]
    tauto
  refine ⟨before ++ c :: n :: after,
    ⟨hs.layout.start_pos, hs.layout.current_lt, hs.cut_tiles, hs.cut_chain, fun a => ?_,
      fun a ha haend => ?_⟩, fun a => ?_⟩
  · have hmem := hs.layout.mem_frees a
    rw [hblocks]
    by_cases han : a = n
    · simp [han, hflags.2.1]
    · by_cases hac : a = c
      · simp [hac, hflags.1]
      · rw [hs.cut_of_ne hac han]
        simpa [hac, han] using hmem
  · rcases (hblocks a).mp ha with ha | rfl
    · by_cases hac : a = c
      · subst hac
        have := (hs.layout.tiles.mem_bounds ha).2
        have := hs.bounds
        simp only [hdrSize] at *
        omega
      · have han : a ≠ n := ne_of_mem_of_not_mem ha hn
        rw [blockEnd, hs.cut_of_ne hac han] at haend
        rw [hs.cut_of_ne hac han]
        exact hs.layout.last a ha haend
    · rw [hflags.2.2]
      exact hs.layout.last c hc (hend.2.symm.trans haend)
  · rw [Used, Used, hblocks]
    by_cases han : a = n
    · subst han
      simp [hflags.2.1, hn]
    · by_cases hac : a = c
      · simp [hac, hflags.1, hcfree]
      · simp [hs.cut_of_ne hac han, han]

end Splits

end

end AetherOs.Heap
