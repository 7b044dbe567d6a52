import AetherOs.Types

/-! # The kernel heap allocator -/

namespace AetherOs.Heap

open Function

structure HeapBlock where
  magic : ℕ
  flags : BitVec 32
  size : ℕ
  next : ℕ
deriving DecidableEq

def hdrSize : ℕ := 32

def heapMinAlloc : ℕ := 16

def heapMagic : ℕ := 0xDEADBEEF

def blockFree : BitVec 32 := BitVec.twoPow 32 0

def blockLast : BitVec 32 := BitVec.twoPow 32 1

def HeapBlock.isFree (b : HeapBlock) : Bool := b.flags &&& blockFree != 0

def HeapBlock.isLast (b : HeapBlock) : Bool := b.flags &&& blockLast != 0

structure HeapState where
  heapStartAddr : ℕ
  heapEndAddr : ℕ
  heapCurrent : ℕ
  freeList : ℕ
  heapUsedBytes : ℕ
  mem : ℕ → HeapBlock

inductive HeapPanic
  | heapCorruption (block magic : ℕ)
  | invalidPointer (ptr magic : ℕ)
  | doubleFree (ptr : ℕ)
deriving DecidableEq

def blockToPtr (block : ℕ) : ℕ := addWord block hdrSize

def ptrToBlock (ptr : ℕ) : ℕ := subWord ptr hdrSize

def nextBlock (mem : ℕ → HeapBlock) (block : ℕ) : ℕ :=
  addWord (addWord block hdrSize) (mem block).size

def mapPages (frames : ℕ → Bool) (addr limit : ℕ) : Bool :=
  (List.range ((limit - addr + (pageSize - 1)) / pageSize)).all fun i => frames (addr + i * pageSize)

def expandHeap (frames : ℕ → Bool) (minSize : ℕ) (h : HeapState) : Option HeapState :=
  let needed := alignUp (addWord minSize hdrSize) pageSize
  if h.heapEndAddr < addWord h.heapCurrent needed then none
  else if mapPages frames h.heapCurrent (addWord h.heapCurrent needed) then
    let block := h.heapCurrent
    some { h with
      mem := update h.mem block
        ⟨heapMagic, blockFree ||| blockLast, subWord needed hdrSize, h.freeList⟩
      heapCurrent := addWord h.heapCurrent needed
      freeList := block }
  else none

def heapInit (frames : ℕ → Bool) (mem : ℕ → HeapBlock) (start size : ℕ) : HeapState :=
  let h : HeapState := ⟨start, addWord start size, start, 0, 0, mem⟩
  (expandHeap frames (1024 * 1024) h).getD h

def setLink (h : HeapState) (prev : Option ℕ) (target : ℕ) : HeapState :=
  match prev with
  | none => { h with freeList := target }
  | some p => { h with mem := update h.mem p { h.mem p with next := target } }

def findFit (h : HeapState) (size fuel : ℕ) (prev : Option ℕ) (curr : ℕ) :
    Option (Except HeapPanic (Option (Option ℕ × ℕ))) :=
  if curr = 0 then some (.ok none)
  else if (h.mem curr).magic ≠ heapMagic then
    some (.error (.heapCorruption curr (h.mem curr).magic))
  else if (h.mem curr).isFree ∧ size ≤ (h.mem curr).size then some (.ok (some (prev, curr)))
  else match fuel with
    | 0 => none
    | fuel + 1 => findFit h size fuel (some curr) (h.mem curr).next

def cutBlock (h : HeapState) (size curr : ℕ) : HeapState :=
  let leftover := (h.mem curr).size - size
  let newBlock := addWord (addWord curr hdrSize) size
  let mem := update h.mem newBlock
    ⟨heapMagic, blockFree ||| ((h.mem curr).flags &&& blockLast), leftover - hdrSize, (h.mem curr).next⟩
  let mem := update mem curr
    { mem curr with size := size, flags := (mem curr).flags &&& ~~~blockLast, next := newBlock }
  { h with mem := mem }

def splitBlock (h : HeapState) (size : ℕ) (prev : Option ℕ) (curr : ℕ) : HeapState :=
  setLink (cutBlock h size curr) prev (addWord (addWord curr hdrSize) size)

def markUsed (mem : ℕ → HeapBlock) (curr : ℕ) : ℕ → HeapBlock :=
  update mem curr { mem curr with flags := (mem curr).flags &&& ~~~blockFree }

def detachBlock (h : HeapState) (size : ℕ) (prev : Option ℕ) (curr : ℕ) : HeapState :=
  if hdrSize + heapMinAlloc ≤ (h.mem curr).size - size then splitBlock h size prev curr
  else setLink h prev (h.mem curr).next

def takeBlock (h : HeapState) (size : ℕ) (prev : Option ℕ) (curr : ℕ) : HeapState :=
  let h := detachBlock h size prev curr
  { h with
    mem := markUsed h.mem curr
    heapUsedBytes := addWord h.heapUsedBytes (h.mem curr).size }

def requestSize (size : ℕ) : ℕ := alignUp (max size heapMinAlloc) 16

def kmalloc (frames : ℕ → Bool) : ℕ → HeapState → ℕ → Option (Except HeapPanic (ℕ × HeapState))
  | 0, _, _ => none
  | fuel + 1, h, size =>
    if size = 0 then some (.ok (0, h))
    else match findFit h (requestSize size) fuel none h.freeList with
      | none => none
      | some (.error p) => some (.error p)
      | some (.ok (some (prev, curr))) =>
        some (.ok (blockToPtr curr, takeBlock h (requestSize size) prev curr))
      | some (.ok none) =>
        match expandHeap frames (requestSize size) h with
        | none => some (.ok (0, h))
        | some h' => kmalloc frames fuel h' (requestSize size)

def kcalloc (frames : ℕ → Bool) (fuel : ℕ) (h : HeapState) (count size : ℕ) :
    Option (Except HeapPanic (ℕ × HeapState)) :=
  kmalloc frames fuel h (count * size % wordSize)

def mergeNext (mem : ℕ → HeapBlock) (curr : ℕ) : ℕ → HeapBlock :=
  let nxt := nextBlock mem curr
  let mem := update mem curr
    { mem curr with
      size := addWord (mem curr).size (addWord hdrSize (mem nxt).size)
      flags := ((mem curr).flags &&& ~~~blockLast) ||| ((mem nxt).flags &&& blockLast)
      next := (mem nxt).next }
  update mem nxt { mem nxt with magic := 0 }

def mergeable (mem : ℕ → HeapBlock) (curr : ℕ) : Bool :=
  (mem (nextBlock mem curr)).magic == heapMagic && (mem (nextBlock mem curr)).isFree

def coalesce (fuel : ℕ) (mem : ℕ → HeapBlock) (curr : ℕ) : Option (ℕ → HeapBlock) :=
  if curr = 0 ∨ (mem curr).isLast then some mem
  else match fuel with
    | 0 => none
    | fuel + 1 =>
      if mergeable mem curr then coalesce fuel (mergeNext mem curr) curr
      else coalesce fuel mem (mem curr).next

def pushFree (h : HeapState) (block : ℕ) : HeapState :=
  { h with
    heapUsedBytes := subWord h.heapUsedBytes (h.mem block).size
    mem := update h.mem block
      { h.mem block with flags := (h.mem block).flags ||| blockFree, next := h.freeList }
    freeList := block }

def kfree (fuel : ℕ) (h : HeapState) (ptr : ℕ) : Option (Except HeapPanic HeapState) :=
  if ptr = 0 then some (.ok h)
  else
    let block := ptrToBlock ptr
    if (h.mem block).magic ≠ heapMagic then some (.error (.invalidPointer ptr (h.mem block).magic))
    else if (h.mem block).isFree then some (.error (.doubleFree ptr))
    else
      let h := pushFree h block
      (coalesce fuel h.mem block).map fun mem => .ok { h with mem := mem }

end AetherOs.Heap
