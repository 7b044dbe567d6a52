import AetherOs.Heap.Alloc

/-! # What an allocation is good for -/

namespace AetherOs.Heap

open Function Option

structure Serves (h : HeapState) (ptr bytes : ℕ) : Prop where
  size : bytes ≤ (h.mem (ptrToBlock ptr)).size
  start_le : h.heapStartAddr ≤ ptr
  le_current : ptr + (h.mem (ptrToBlock ptr)).size ≤ h.heapCurrent

def KmallocRight (h : HeapState) (size bytes : ℕ) : Prop :=
  ∀ frames fuel ptr h', kmalloc frames fuel h size = some (.ok (ptr, h')) → ptr ≠ 0 → Serves h' ptr bytes

def KcallocRight (h : HeapState) (count size : ℕ) : Prop :=
  ∀ frames fuel ptr h', kcalloc frames fuel h count size = some (.ok (ptr, h')) → ptr ≠ 0 →
    Serves h' ptr (count * size)

def Fits (h : HeapState) (frees : List ℕ) (size : ℕ) : Prop := ∃ b ∈ frees, requestSize size ≤ (h.mem b).size

def growth (size : ℕ) : ℕ := roundUp (roundUp (max size heapMinAlloc) 16 + hdrSize) pageSize

def Refused (h : HeapState) (frees : List ℕ) (size : ℕ) : Prop :=
  size = 0 ∨ (wordSize ≤ size + 15 ∧ frees = []) ∨ (size + 15 < wordSize ∧ requestSize size = wordSize - 16) ∨
    (RequestFits h size ∧ ¬ Fits h frees size ∧ h.heapEndAddr < h.heapCurrent + growth size)

def Honoured (h : HeapState) (frees : List ℕ) (bytes : ℕ) : Prop :=
  Refused h frees (bytes % wordSize) ∨ (bytes + 15 < wordSize ∧ (Fits h frees bytes ∨ RequestFits h bytes))

variable {h h' : HeapState} {blocks frees rest : List ℕ} {c size bytes fuel : ℕ} {frames : ℕ → Bool}

/-! ## Blocks that are taken -/

theorem le_takeBlock_size {start current : ℕ} (hl : Layout h.mem start current h.freeList blocks (pre ++ c :: rest))
    (hfit : size ≤ (h.mem c).size) : size ≤ ((takeBlock h size pre.getLast? c).mem c).size := by
  have hmark (mem : ℕ → HeapBlock) : (markUsed mem c c).size = (mem c).size := (markUsed_keeps c).2.1
  simp only [takeBlock, hmark]
  rw [detachBlock]
  split_ifs with hsplit
  · have hs : Splits h start current blocks pre rest size c (c + hdrSize + size) :=
      ⟨hl, rfl, by simp only [hdrSize] at *; omega⟩
    rw [splitBlock, (setLink_keeps _ _ _ c).2.1, hs.cut_self]
  · rw [(setLink_keeps _ _ _ c).2.1]
    exact hfit

theorem serves_takeBlock (hl : Layout h.mem h.heapStartAddr h.heapCurrent h.freeList blocks (pre ++ c :: rest))
    (hfit : size ≤ (h.mem c).size) : Serves (takeBlock h size pre.getLast? c) (c + hdrSize) size := by
  obtain ⟨blocks', frees', hlayout, hused⟩ := takeBlock_layout hl hfit
  obtain ⟨hstart, -, hcur⟩ := takeBlock_bounds h size pre.getLast? c
  have hc : c ∈ blocks' := ((hused c).mpr (.inr rfl)).1
  have hbounds := hlayout.tiles.mem_bounds hc
  have hlt := hlayout.blockEnd_lt hc
  simp only [blockEnd] at hbounds hlt
  have hblock : ptrToBlock (c + hdrSize) = c := by
    rw [ptrToBlock, subWord_eq (by omega) (by omega), Nat.add_sub_cancel]
  refine ⟨?_, by rw [hstart]; omega, ?_⟩
  · rw [hblock]
    exact le_takeBlock_size hl hfit
  · rw [hblock, hcur]
    omega

/-! ## The search -/

theorem requestSize_spec (hsize : size + 15 < wordSize) : requestSize size = roundUp (max size heapMinAlloc) 16 ∧
    16 ∣ requestSize size ∧ 16 ≤ requestSize size ∧ size ≤ requestSize size ∧ requestSize size < wordSize := by
  have hmax : max size heapMinAlloc + (16 - 1) < wordSize := by
    simp only [heapMinAlloc, wordSize] at *
    omega
  have heq : requestSize size = roundUp (max size heapMinAlloc) 16 := alignUp_eq_roundUp hmax
  refine ⟨heq, dvd_alignUp _ _, ?_, ?_, ?_⟩ <;> rw [heq, roundUp] <;> simp only [heapMinAlloc, wordSize] at * <;> omega

theorem requestSize_wrap (hsize : wordSize ≤ size + 15) (hlt : size < wordSize) : requestSize size = 0 := by
  have hmax : max size heapMinAlloc = size := by
    simp only [heapMinAlloc, wordSize] at *
    omega
  rw [requestSize, hmax, alignUp, addWord]
  simp only [wordSize] at *
  omega

theorem requestSize_requestSize (hsize : size + 15 < wordSize) (hne : requestSize size ≠ wordSize - 16) :
    requestSize (requestSize size) = requestSize size ∧ requestSize size ≤ wordSize - 32 := by
  obtain ⟨-, hdvd, hmin, -, hlt⟩ := requestSize_spec hsize
  generalize requestSize size = r at *
  obtain ⟨k, rfl⟩ := hdvd
  have hle : 16 * k ≤ wordSize - 32 := by
    simp only [wordSize] at *
    omega
  refine ⟨?_, hle⟩
  have hfit : 16 * k + 15 < wordSize := by
    simp only [wordSize] at *
    omega
  rw [(requestSize_spec hfit).1, max_eq_left (show heapMinAlloc ≤ 16 * k from hmin), roundUp]
  omega

/-! ## One call -/

theorem kmalloc_found {prev : Option ℕ} (hsize : size ≠ 0)
    (hfind : findFit h (requestSize size) fuel none h.freeList = some (.ok (some (prev, c)))) :
    kmalloc frames (fuel + 1) h size = some (.ok (blockToPtr c, takeBlock h (requestSize size) prev c)) := by
  rw [kmalloc, if_neg hsize, hfind]

theorem kmalloc_grown (hsize : size ≠ 0)
    (hfind : findFit h (requestSize size) fuel none h.freeList = some (.ok none))
    (hexpand : expandHeap frames (requestSize size) h = some h') :
    kmalloc frames (fuel + 1) h size = kmalloc frames fuel h' (requestSize size) := by
  rw [kmalloc, if_neg hsize, hfind]
  simp only [hexpand]

section

variable (hl : Layout h.mem h.heapStartAddr h.heapCurrent h.freeList blocks frees)

include hl

theorem kmalloc_ok {ptr : ℕ} (hok : kmalloc frames fuel h size = some (.ok (ptr, h'))) (hptr : ptr ≠ 0):
    size ≠ 0 ∧ ((∃ pre c rest, frees = pre ++ c :: rest ∧ requestSize size ≤ (h.mem c).size ∧ ptr = c + hdrSize ∧
        h' = takeBlock h (requestSize size) pre.getLast? c) ∨
      (¬ Fits h frees size ∧ ∃ fuel' h₁, expandHeap frames (requestSize size) h = some h₁ ∧
        kmalloc frames fuel' h₁ (requestSize size) = some (.ok (ptr, h')))) := by
  cases fuel with
  | zero => cases hok
  | succ fuel =>
    rw [kmalloc] at hok
    split at hok
    · exact absurd (congrArg Prod.fst (Except.ok.inj (some.inj hok))).symm hptr
    rename_i hsize
    refine ⟨hsize, ?_⟩
    have hfind := findFit_layout (requestSize size) fuel [] frees hl
    rw [← hl.chain.head_eq_headD, List.nil_append, List.getLast?_nil] at hfind
    rcases hfind with ⟨hnone, -⟩ | ⟨hnil, hless⟩ | ⟨pre, c, rest, heq, hfit, hfound⟩
    · rw [hnone] at hok
      cases hok
    · rw [hnil] at hok
      refine .inr ⟨?_, ?_⟩
      · rintro ⟨b, hb, hfit⟩
        have := hless b hb
        omega
      · cases hexpand : expandHeap frames (requestSize size) h with
        | none =>
          simp only [hexpand] at hok
          exact absurd (congrArg Prod.fst (Except.ok.inj (some.inj hok))).symm hptr
        | some h₁ =>
          simp only [hexpand] at hok
          exact ⟨fuel, h₁, rfl, hok⟩
    · rw [hfound] at hok
      obtain ⟨rfl, rfl⟩ := Prod.mk.inj (Except.ok.inj (some.inj hok))
      subst heq
      have hlt := hl.blockEnd_lt (hl.mem_blocks (b := c) (by simp))
      simp only [blockEnd] at hlt
      exact .inl ⟨pre, c, rest, rfl, hfit, addWord_eq (by omega), rfl⟩

theorem Fits.found (hfits : Fits h frees size) (hfuel : frees.length ≤ fuel):
    ∃ pre c rest, frees = pre ++ c :: rest ∧ requestSize size ≤ (h.mem c).size ∧
      findFit h (requestSize size) fuel none h.freeList = some (.ok (some (pre.getLast?, c))) := by
  obtain ⟨b, hb, hfit⟩ := hfits
  have hfind := findFit_layout (requestSize size) fuel [] frees hl
  rw [List.nil_append, List.getLast?_nil] at hfind
  rcases hfind with ⟨-, hlt⟩ | ⟨-, hless⟩ | hfound
  · omega
  · have := hless b hb
    omega
  · rw [hl.chain.head_eq_headD]
    exact hfound

theorem findFit_of_not_fits (hnot : ¬ Fits h frees size) (hfuel : frees.length ≤ fuel):
    findFit h (requestSize size) fuel none h.freeList = some (.ok none) := by
  have hfind := findFit_layout (requestSize size) fuel [] frees hl
  rw [List.nil_append, List.getLast?_nil, ← hl.chain.head_eq_headD] at hfind
  rcases hfind with ⟨-, hlt⟩ | hnil | ⟨pre, c, rest, rfl, hfit, -⟩
  · omega
  · exact hnil.1
  · exact absurd ⟨c, by simp, hfit⟩ hnot

end

/-! ## Requests that are honoured -/

theorem Serves.mono {ptr bytes' : ℕ} (hs : Serves h ptr bytes') (hle : bytes ≤ bytes') : Serves h ptr bytes :=
  ⟨hle.trans hs.size, hs.start_le, hs.le_current⟩

structure SmallList (h : HeapState) (nodes : Set ℕ) (size : ℕ) : Prop where
  head : h.freeList = 0 ∨ h.freeList ∈ nodes
  next : ∀ a ∈ nodes, (h.mem a).next = 0 ∨ (h.mem a).next ∈ nodes
  small : ∀ a ∈ nodes, (h.mem a).size < size

theorem SmallList.not_found {nodes : Set ℕ} {prev slot : Option ℕ} {curr : ℕ} (hs : SmallList h nodes size)
    (hcurr : curr = 0 ∨ curr ∈ nodes) : findFit h size fuel prev curr ≠ some (.ok (some (slot, c))) := by
  induction fuel generalizing prev curr with
  | zero =>
    unfold findFit
    rcases hcurr with rfl | hcurr
    · simp
    · have := hs.small curr hcurr
      split_ifs <;> simp_all
      omega
  | succ fuel ih =>
    unfold findFit
    rcases hcurr with rfl | hcurr
    · simp
    · have := hs.small curr hcurr
      split_ifs with h0 hmagic hfit
      · simp
      · simp
      · omega
      · exact ih (hs.next curr hcurr)

theorem SmallList.expandHeap {nodes : Set ℕ} (hs : SmallList h nodes (wordSize - 16))
    (hexpand : expandHeap frames (wordSize - 16) h = some h') :
    SmallList h' (insert h.heapCurrent nodes) (wordSize - 16) := by
  have hneeded : alignUp (addWord (wordSize - 16) hdrSize) pageSize = pageSize := by decide
  have hsmall : subWord pageSize hdrSize < wordSize - 16 := by decide
  simp only [Heap.expandHeap, hneeded] at hexpand
  split_ifs at hexpand
  obtain rfl := some.inj hexpand
  refine ⟨.inr (.inl rfl), fun a ha => ?_, fun a ha => ?_⟩ <;> simp only [update_apply] <;> split_ifs with hne
  · exact hs.head.imp id .inr
  · exact (hs.next a (ha.resolve_left hne)).imp id .inr
  · exact hsmall
  · exact hs.small a (ha.resolve_left hne)

theorem kmalloc_largest {nodes : Set ℕ} {ptr : ℕ} (hs : SmallList h nodes (wordSize - 16))
    (hsize : requestSize size = wordSize - 16) (hok : kmalloc frames fuel h size = some (.ok (ptr, h'))) :
    ptr = 0 := by
  induction fuel generalizing h nodes size with
  | zero => cases hok
  | succ fuel ih =>
    rw [kmalloc, hsize] at hok
    split at hok
    · exact (congrArg Prod.fst (Except.ok.inj (some.inj hok))).symm
    split at hok
    · cases hok
    · cases hok
    · rename_i hfound
      exact absurd hfound (hs.not_found hs.head)
    · split at hok
      · exact (congrArg Prod.fst (Except.ok.inj (some.inj hok))).symm
      · rename_i h₁ hexpand
        exact ih (hs.expandHeap hexpand) (by decide) hok

theorem alignUp_growth (hroom : RequestFits h size) :
    alignUp (addWord (requestSize size) hdrSize) pageSize = growth size := by
  rw [requestSize_eq hroom]
  exact alignUp_needed hroom

theorem addWord_growth (hroom : RequestFits h size) : addWord h.heapCurrent (growth size) = h.heapCurrent + growth size :=
  addWord_eq hroom

theorem expandHeap_late (hroom : RequestFits h size) (hend : h.heapEndAddr < h.heapCurrent + growth size) :
    expandHeap frames (requestSize size) h = none := by
  simp only [expandHeap, alignUp_growth hroom, addWord_growth hroom]
  rw [if_pos hend]

/-! ## Requests that are not honoured -/

theorem takeBlock_size_lt (hl : Layout h.mem h.heapStartAddr h.heapCurrent h.freeList blocks (pre ++ c :: rest))
    (hfit : size ≤ (h.mem c).size) :
    ((takeBlock h size pre.getLast? c).mem (ptrToBlock (c + hdrSize))).size < wordSize - hdrSize := by
  have hserves := serves_takeBlock hl hfit
  obtain ⟨-, -, hcur⟩ := takeBlock_bounds h size pre.getLast? c
  have hle := hserves.le_current
  have hend := hl.current_lt
  rw [hcur] at hle
  omega

theorem expandHeap_room (hroom : RequestFits h size) (hend : h.heapCurrent + growth size ≤ h.heapEndAddr) :
    expandHeap (fun _ => true) (requestSize size) h ≠ none := by
  simp only [expandHeap, alignUp_growth hroom, addWord_growth hroom]
  rw [if_neg (by omega), if_pos (by simp [mapPages])]
  exact some_ne_none _

theorem needed_wrap (hsize : size + 15 < wordSize) (hlargest : requestSize size ≠ wordSize - 16)
    (hcur : h.heapCurrent < wordSize) (hwrap : ¬ RequestFits h size) {needed : ℕ}
    (hneeded : alignUp (addWord (requestSize size) hdrSize) pageSize = needed) :
    addWord h.heapCurrent needed ≤ h.heapCurrent ∧ requestSize size ≤ subWord needed hdrSize := by
  obtain ⟨-, hle⟩ := requestSize_requestSize hsize hlargest
  rw [RequestFits, ← (requestSize_spec hsize).1] at hwrap
  generalize requestSize size = r at *
  simp only [alignUp, addWord, subWord, roundUp, hdrSize, pageSize, wordSize] at *
  omega

theorem expandHeap_wrap (hsize : size + 15 < wordSize) (hlargest : requestSize size ≠ wordSize - 16)
    (hcur : h.heapCurrent < wordSize) (hend : h.heapCurrent ≤ h.heapEndAddr) (hwrap : ¬ RequestFits h size)
    (frames : ℕ → Bool) : ∃ h', expandHeap frames (requestSize size) h = some h' ∧ h'.heapCurrent ≤ h.heapCurrent ∧
      h'.freeList = h.heapCurrent ∧ (h'.mem h.heapCurrent).magic = heapMagic ∧
      (h'.mem h.heapCurrent).isFree ∧ requestSize size ≤ (h'.mem h.heapCurrent).size := by
  obtain ⟨hdown, hbig⟩ := needed_wrap hsize hlargest hcur hwrap rfl
  have hmap : mapPages frames h.heapCurrent
      (addWord h.heapCurrent (alignUp (addWord (requestSize size) hdrSize) pageSize)) := by
    rw [mapPages, Nat.sub_eq_zero_of_le hdown]
    rfl
  simp only [expandHeap]
  rw [if_neg (by omega), if_pos hmap]
  refine ⟨_, rfl, hdown, rfl, ?_, ?_, ?_⟩ <;> simp only [update_self]
  · simp only [HeapBlock.isFree]
    decide
  · exact hbig

section

variable (hl : Layout h.mem h.heapStartAddr h.heapCurrent h.freeList blocks frees)
include hl

theorem kmallocRight_of_fits (hsize : size + 15 < wordSize) (hfits : Fits h frees size ∨ RequestFits h size) : KmallocRight h size size := by
  intro frames fuel ptr h' hok hptr
  have hle := (requestSize_spec hsize).2.2.2.1
  obtain ⟨-, ⟨pre, c, rest, rfl, hfit, rfl, rfl⟩ | ⟨hnot, fuel', h₁, hexpand, hretry⟩⟩ := kmalloc_ok hl hok hptr
  · exact (serves_takeBlock hl hfit).mono hle
  · have hroom := hfits.resolve_left hnot
    obtain ⟨-, hidem⟩ := requestSize_idem hroom
    rcases expandHeap_layout frames (requestSize size) hl (by rw [requestSize_eq hroom]; exact hroom) with
      hfail | ⟨h₂, hsome, hgrown, hbig⟩
    · rw [hfail] at hexpand
      cases hexpand
    · obtain rfl : h₂ = h₁ := some.inj (hsome.symm.trans hexpand)
      obtain ⟨-, ⟨pre, c, rest, hfrees, hfit, rfl, rfl⟩ | ⟨hnot', -⟩⟩ := kmalloc_ok hgrown.layout hretry hptr
      · have hlayout := hgrown.layout
        rw [hfrees] at hlayout
        rw [hidem] at hfit ⊢
        exact (serves_takeBlock hlayout hfit).mono hle
      · exact absurd ⟨h.heapCurrent, by simp, by rw [hidem]; exact hbig⟩ hnot'

theorem smallList_of_layout : SmallList h {b | b ∈ frees} (wordSize - 16) := by
  have hnext : ∀ (pre rest : List ℕ), pre ++ rest = frees → rest.headD 0 = 0 ∨ rest.headD 0 ∈ frees := by
    rintro pre (_ | ⟨c, rest⟩) rfl
    · exact .inl rfl
    · exact .inr (by simp)
  refine ⟨?_, fun a ha => ?_, fun a ha => ?_⟩
  · rw [hl.chain.head_eq_headD]
    exact hnext [] frees rfl
  · obtain ⟨pre, rest, rfl⟩ := List.append_of_mem ha
    rw [hl.chain.next_eq_headD pre]
    exact hnext (pre ++ [a]) rest (by simp)
  · have hlt := hl.blockEnd_lt (hl.mem_blocks ha)
    simp only [blockEnd, hdrSize] at hlt
    omega

theorem kmalloc_refused {ptr : ℕ} (hlt : size < wordSize) (href : Refused h frees size)
    (hok : kmalloc frames fuel h size = some (.ok (ptr, h'))) : ptr = 0 := by
  by_contra hptr
  obtain ⟨hne, hcases⟩ := kmalloc_ok hl hok hptr
  rcases href with hzero | ⟨hwrap, rfl⟩ | ⟨-, hlargest⟩ | ⟨hroom, hnot, hend⟩
  · exact hne hzero
  · rcases hcases with ⟨pre, c, rest, heq, -⟩ | ⟨-, fuel', h₁, -, hretry⟩
    · simp at heq
    · rw [requestSize_wrap hwrap hlt] at hretry
      cases fuel' with
      | zero => cases hretry
      | succ => exact hptr (congrArg Prod.fst (Except.ok.inj (some.inj hretry))).symm
  · exact hptr (kmalloc_largest (smallList_of_layout hl) hlargest hok)
  · rcases hcases with ⟨pre, c, rest, rfl, hfit, -⟩ | ⟨-, fuel', h₁, hexpand, -⟩
    · exact hnot ⟨c, by simp, hfit⟩
    · rw [expandHeap_late hroom hend] at hexpand
      cases hexpand

theorem kmalloc_fits (hne : size ≠ 0) (hfits : Fits h frees size) (hfuel : frees.length ≤ fuel) :
    ∃ ptr h', kmalloc frames (fuel + 1) h size = some (.ok (ptr, h')) ∧ ptr ≠ 0 ∧
      (h'.mem (ptrToBlock ptr)).size < wordSize - hdrSize := by
  obtain ⟨pre, c, rest, rfl, hfit, hfound⟩ := hfits.found hl hfuel
  have hlt := hl.blockEnd_lt (hl.mem_blocks (b := c) (by simp))
  simp only [blockEnd] at hlt
  have hptr : blockToPtr c = c + hdrSize := addWord_eq (by omega)
  refine ⟨c + hdrSize, _, ?_, by simp [hdrSize], takeBlock_size_lt hl hfit⟩
  rw [kmalloc_found hne hfound, hptr]

theorem kmalloc_room (hne : size ≠ 0)
    (hnot : ¬ Fits h frees size) (hroom : RequestFits h size) (hend : h.heapCurrent + growth size ≤ h.heapEndAddr) :
    ∃ fuel ptr h', kmalloc (fun _ => true) fuel h size = some (.ok (ptr, h')) ∧ ptr ≠ 0 ∧
      (h'.mem (ptrToBlock ptr)).size < wordSize - hdrSize := by
  obtain ⟨hne', hidem⟩ := requestSize_idem hroom
  obtain ⟨h₁, hexpand, hgrown, hbig⟩ := (expandHeap_layout (fun _ => true) (requestSize size) hl
    (by rw [requestSize_eq hroom]; exact hroom)).resolve_left (expandHeap_room hroom hend)
  have hfits : Fits h₁ (h.heapCurrent :: frees) (requestSize size) :=
    ⟨h.heapCurrent, by simp, by rw [hidem]; exact hbig⟩
  obtain ⟨ptr, h', hcall, hptr, hshort⟩ : ∃ ptr h', kmalloc (fun _ => true) (frees.length + 2) h₁ (requestSize size) =
      some (.ok (ptr, h')) ∧ ptr ≠ 0 ∧ (h'.mem (ptrToBlock ptr)).size < wordSize - hdrSize :=
    kmalloc_fits hgrown.layout hne' hfits (Nat.le_refl _)
  refine ⟨frees.length + 3, ptr, h', ?_, hptr, hshort⟩
  rw [kmalloc_grown hne (findFit_of_not_fits hl hnot (by omega)) hexpand]
  exact hcall

theorem not_kmallocRight_of_wrap (hend : h.heapCurrent ≤ h.heapEndAddr) (htop : h.heapCurrent + hdrSize < wordSize) (hne : size ≠ 0)
    (hsize : size + 15 < wordSize) (hlargest : requestSize size ≠ wordSize - 16) (hnot : ¬ Fits h frees size)
    (hwrap : ¬ RequestFits h size) : ¬ KmallocRight h size bytes := by
  intro hright
  obtain ⟨h₁, hexpand, hdown, hhead, hmagic, hfree, hbig⟩ :=
    expandHeap_wrap hsize hlargest hl.current_lt hend hwrap fun _ => true
  obtain ⟨hidem, -⟩ := requestSize_requestSize hsize hlargest
  have hpos : h.heapCurrent ≠ 0 := (hl.start_pos.trans_le hl.tiles.le).ne'
  have hfound : findFit h₁ (requestSize (requestSize size)) frees.length none h₁.freeList =
      some (.ok (some (none, h.heapCurrent))) := by
    unfold findFit
    simp [hhead, hpos, hmagic, hfree, hbig, hidem]
  have hmin := (requestSize_spec hsize).2.2.1
  have hptr : blockToPtr h.heapCurrent = h.heapCurrent + hdrSize := addWord_eq htop
  have hcall : kmalloc (fun _ => true) (frees.length + 2) h size =
      some (.ok (h.heapCurrent + hdrSize, takeBlock h₁ (requestSize (requestSize size)) none h.heapCurrent)) := by
    rw [kmalloc_grown hne (findFit_of_not_fits hl hnot (by omega)) hexpand, kmalloc_found (by omega) hfound, hptr]
  have hserves := (hright _ _ _ _ hcall (by omega)).le_current
  rw [(takeBlock_bounds h₁ _ _ _).2.2] at hserves
  simp only [hdrSize] at hserves
  omega

/-! ## The guarantee -/

theorem kmallocRight_iff (hend : h.heapCurrent ≤ h.heapEndAddr) (htop : h.heapCurrent + hdrSize < wordSize) (bytes : ℕ) :
    KmallocRight h (bytes % wordSize) bytes ↔ Honoured h frees bytes := by
  have hlt : bytes % wordSize < wordSize := Nat.mod_lt _ (by decide)
  constructor
  · intro hright
    by_contra hnot
    obtain ⟨href, hserved⟩ := not_or.mp hnot
    obtain ⟨hne, hempty, hlargest, hlate⟩ : bytes % wordSize ≠ 0 ∧ ¬ (wordSize ≤ bytes % wordSize + 15 ∧ frees = []) ∧
        ¬ (bytes % wordSize + 15 < wordSize ∧ requestSize (bytes % wordSize) = wordSize - 16) ∧
        ¬ (RequestFits h (bytes % wordSize) ∧ ¬ Fits h frees (bytes % wordSize) ∧
          h.heapEndAddr < h.heapCurrent + growth (bytes % wordSize)) := by
      simpa only [Refused, not_or] using href
    -- a pointer comes back, so the bytes reach the top of the range
    have hshort (hcall : ∃ fuel ptr h', kmalloc (fun _ => true) fuel h (bytes % wordSize) = some (.ok (ptr, h')) ∧
        ptr ≠ 0 ∧ (h'.mem (ptrToBlock ptr)).size < wordSize - hdrSize) : bytes < wordSize - hdrSize := by
      obtain ⟨fuel, ptr, h', hok, hptr, hsmall⟩ := hcall
      exact (hright _ _ _ _ hok hptr).size.trans_lt hsmall
    by_cases hsize : bytes % wordSize + 15 < wordSize
    · by_cases hfits : Fits h frees (bytes % wordSize)
      · have hlow := hshort ⟨_, kmalloc_fits hl hne hfits (Nat.le_refl _)⟩
        rw [Nat.mod_eq_of_lt (by omega)] at hsize hfits
        exact hserved ⟨hsize, .inl hfits⟩
      · by_cases hroom : RequestFits h (bytes % wordSize)
        · have hlow := hshort (kmalloc_room hl hne hfits hroom (by
            by_contra hlate'
            exact hlate ⟨hroom, hfits, by omega⟩))
          rw [Nat.mod_eq_of_lt (by omega)] at hsize hroom
          exact hserved ⟨hsize, .inr hroom⟩
        · exact not_kmallocRight_of_wrap hl hend htop hne hsize (fun heq => hlargest ⟨hsize, heq⟩) hfits hroom hright
    · obtain ⟨b, hb⟩ := List.exists_mem_of_ne_nil frees fun hnil => hempty ⟨by omega, hnil⟩
      have hfits : Fits h frees (bytes % wordSize) := ⟨b, hb, by rw [requestSize_wrap (by omega) hlt]; omega⟩
      have hlow := hshort ⟨_, kmalloc_fits hl hne hfits (Nat.le_refl _)⟩
      have := Nat.mod_le bytes wordSize
      simp only [hdrSize, wordSize] at *
      omega
  · rintro (href | ⟨hsize, hfits⟩)
    · intro frames fuel ptr h' hok hptr
      exact absurd (kmalloc_refused hl hlt href hok) hptr
    · rw [Nat.mod_eq_of_lt (by omega)]
      exact kmallocRight_of_fits hl hsize hfits

end

/-- A pointer leads to as many bytes as were asked for, and a pointer to an array to the exact product, exactly when the
request is refused or nothing in it wraps around. -/
theorem allocation_honoured_iff (hl : Layout h.mem h.heapStartAddr h.heapCurrent h.freeList blocks frees)
    (hend : h.heapCurrent ≤ h.heapEndAddr) (htop : h.heapCurrent + hdrSize < wordSize) :
    (∀ size < wordSize, KmallocRight h size size ↔ Honoured h frees size) ∧
      ∀ count size, KcallocRight h count size ↔ Honoured h frees (count * size) := by
  refine ⟨fun size hsize => ?_, fun count size => kmallocRight_iff hl hend htop (count * size)⟩
  have := kmallocRight_iff hl hend htop size
  rwa [Nat.mod_eq_of_lt hsize] at this

def pageHeap : HeapState :=
  ⟨pageSize, 16 * pageSize, 2 * pageSize, pageSize, 0, fun _ => ⟨heapMagic, blockFree ||| blockLast, 4064, 0⟩⟩

theorem layout_pageHeap : Layout pageHeap.mem pageHeap.heapStartAddr pageHeap.heapCurrent pageHeap.freeList
    [pageSize] [pageSize] where
  start_pos := by decide
  current_lt := by decide
  tiles := ⟨rfl, rfl, rfl⟩
  chain := .cons (by decide) (.nil)
  mem_frees b := by
    have hfree : (pageHeap.mem b).isFree :=
      (by decide : (HeapBlock.mk heapMagic (blockFree ||| blockLast) 4064 0).isFree)
    simp [hfree]
  last _ _ _ := (by decide : (HeapBlock.mk heapMagic (blockFree ||| blockLast) 4064 0).isLast)

/-- A hundred bytes, and an array of three words, are served. -/
theorem allocation_honoured_iff_pageHeap : KmallocRight pageHeap 100 100 ∧ KcallocRight pageHeap 3 8 := by
  obtain ⟨hkmalloc, hkcalloc⟩ := allocation_honoured_iff layout_pageHeap (by decide) (by decide)
  exact ⟨(hkmalloc 100 (by decide)).mpr (.inr ⟨by decide, .inl ⟨pageSize, by simp, by decide⟩⟩),
    (hkcalloc 3 8).mpr (.inr ⟨by decide, .inl ⟨pageSize, by simp, by decide⟩⟩)⟩

/-- The largest size gets a block without data, and an array of more than the range of the addresses a block for two
bytes. -/
theorem exists_short_block : ∃ h blocks frees, Layout h.mem h.heapStartAddr h.heapCurrent h.freeList blocks frees ∧
    ¬ KmallocRight h (wordSize - 1) (wordSize - 1) ∧ ¬ KcallocRight h (2 ^ 63 + 1) 2 := by
  refine ⟨pageHeap, _, _, layout_pageHeap, fun hright => ?_, fun hright => ?_⟩
  · have hserves := hright (fun _ => true) 1 _ _ rfl (by decide)
    exact absurd hserves.size (by decide)
  · have hserves := hright (fun _ => true) 1 _ _ rfl (by decide)
    exact absurd hserves.size (by decide)

end AetherOs.Heap
