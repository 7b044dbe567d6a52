import AetherOs.Types

/-! # The buddy page allocator -/

namespace AetherOs.Buddy

open Function

def buddyMaxOrder : ℕ := 10

def buddyMaxPages : ℕ := 65536

def allocated : ℕ := 0xFF

def countSize : ℕ := 2 ^ 32

structure BuddyList where
  head : ℕ
  count : ℕ

structure BuddyAllocator where
  basePhys : ℕ
  baseVirt : ℕ
  totalPages : ℕ
  freePages : ℕ
  free : ℕ → BuddyList
  orderMap : ℕ → ℕ
  initialized : Bool
  next : ℕ → ℕ
  prev : ℕ → ℕ

def pageIdx (b : BuddyAllocator) (virtAddr : ℕ) : ℕ := subWord virtAddr b.baseVirt / pageSize

def pageAddr (b : BuddyAllocator) (idx : ℕ) : ℕ := addWord b.baseVirt (idx * pageSize)

def buddyIdx (p order : ℕ) : ℕ := p ^^^ (1 <<< order)

def push (order idx : ℕ) (b : BuddyAllocator) : BuddyAllocator :=
  let node := pageAddr b idx
  let head := (b.free order).head
  { b with
    next := update b.next node head
    prev := if head ≠ 0 then update (update b.prev node 0) head node
      else update b.prev node 0
    free := update b.free order ⟨node, ((b.free order).count + 1) % countSize⟩
    orderMap := update b.orderMap idx (order % 256) }

def pop (order : ℕ) (b : BuddyAllocator) : ℕ × BuddyAllocator :=
  let node := (b.free order).head
  if node = 0 then (buddyMaxPages, b)
  else
    (pageIdx b node,
      { b with
        free := update b.free order
          ⟨b.next node, ((b.free order).count + (countSize - 1)) % countSize⟩
        prev := if b.next node ≠ 0 then update b.prev (b.next node) 0 else b.prev
        orderMap := update b.orderMap (pageIdx b node) allocated })

def remove (order idx : ℕ) (b : BuddyAllocator) : BuddyAllocator :=
  let node := pageAddr b idx
  { b with
    next := if b.prev node ≠ 0 then update b.next (b.prev node) (b.next node) else b.next
    prev := if b.next node ≠ 0 then update b.prev (b.next node) (b.prev node) else b.prev
    free := update b.free order
      ⟨if b.prev node ≠ 0 then (b.free order).head else b.next node,
        ((b.free order).count + (countSize - 1)) % countSize⟩
    orderMap := update b.orderMap idx allocated }

def isFree (b : BuddyAllocator) (idx order : ℕ) : Bool :=
  idx < b.totalPages && b.orderMap idx == order % 256

def seedBlocks (order limit : ℕ) : ℕ → ℕ → ℕ → BuddyAllocator → ℕ × BuddyAllocator
  | 0, p, _, b => (p, b)
  | fuel + 1, p, alignedP, b =>
    if alignedP + 2 ^ order ≤ limit then
      let b := push order alignedP b
      seedBlocks order limit fuel (alignedP + 2 ^ order) (alignedP + 2 ^ order)
        { b with freePages := addWord b.freePages (2 ^ order) }
    else (p, b)

def seed (limit : ℕ) : ℕ → ℕ → BuddyAllocator → BuddyAllocator
  | 0, _, b => b
  | order + 1, p, b =>
    if p < limit then
      let r := seedBlocks order limit (limit + 1) p (alignUp p (2 ^ order)) b
      seed limit order r.1 r.2
    else b

def mapPages (totalPages : ℕ) : ℕ := (totalPages + pageSize - 1) / pageSize

def managedPages (sizeBytes : ℕ) : ℕ := min (sizeBytes / pageSize) buddyMaxPages

def buddyInit (basePhys baseVirt sizeBytes : ℕ) (orderMap next prev : ℕ → ℕ) : BuddyAllocator :=
  let totalPages := managedPages sizeBytes
  let startPage := mapPages totalPages
  let npages := totalPages - startPage
  let b : BuddyAllocator :=
    { basePhys := basePhys, baseVirt := baseVirt, totalPages := totalPages, freePages := 0
      free := fun _ => ⟨0, 0⟩
      orderMap := fun p => if p < totalPages then allocated else orderMap p
      initialized := false, next := next, prev := prev }
  { seed (startPage + npages) (buddyMaxOrder + 1) startPage b with initialized := true }

def findAvail (b : BuddyAllocator) : ℕ → ℕ → ℕ
  | 0, avail => avail
  | steps + 1, avail => if (b.free avail).count = 0 then findAvail b steps (avail + 1) else avail

def splitDown (order idx : ℕ) : ℕ → BuddyAllocator → BuddyAllocator
  | 0, b => b
  | steps + 1, b =>
    splitDown order idx steps (push (order + steps) (idx + 2 ^ (order + steps)) b)

def takeFrom (order avail : ℕ) (b : BuddyAllocator) : ℕ × BuddyAllocator :=
  let r := pop avail b
  let b := splitDown order r.1 (avail - order) r.2
  (pageAddr b r.1, { b with freePages := subWord b.freePages (2 ^ order) })

def buddyAlloc (order : ℤ) (b : BuddyAllocator) : ℕ × BuddyAllocator :=
  if !b.initialized then (0, b)
  else if order < 0 ∨ (buddyMaxOrder : ℤ) < order then (0, b)
  else
    let order := order.toNat
    let avail := findAvail b (buddyMaxOrder + 1 - order) order
    if buddyMaxOrder < avail then (0, b) else takeFrom order avail b

def mergeUp : ℕ → ℕ → ℕ → BuddyAllocator → ℕ × ℕ × BuddyAllocator
  | 0, order, idx, b => (order, idx, b)
  | steps + 1, order, idx, b =>
    let buddy := buddyIdx idx order
    if isFree b buddy order then
      mergeUp steps (order + 1) (if buddy < idx then buddy else idx) (remove order buddy b)
    else (order, idx, b)

def giveBack (order idx : ℕ) (b : BuddyAllocator) : BuddyAllocator :=
  let r := mergeUp (buddyMaxOrder - order) order idx b
  let b := push r.1 r.2.1 r.2.2
  { b with freePages := addWord b.freePages (2 ^ r.1) }

def buddyFree (virtAddr : ℕ) (order : ℤ) (b : BuddyAllocator) : BuddyAllocator :=
  if !b.initialized then b
  else if order < 0 ∨ (buddyMaxOrder : ℤ) < order then b
  else
    let idx := pageIdx b virtAddr
    if b.totalPages ≤ idx then b else giveBack order.toNat idx b

end AetherOs.Buddy
