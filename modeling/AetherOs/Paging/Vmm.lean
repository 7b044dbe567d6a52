import AetherOs.Base.Radix
import AetherOs.Paging.Pmm

/-! # Page tables and address spaces -/

namespace AetherOs.Paging

open Base.Radix Function

structure Machine where
  mem : ℕ → ℕ → BitVec 64
  pmm : Pmm
  kernelPml4 : ℕ

def ptePresent : BitVec 64 := BitVec.twoPow 64 0

def pteWritable : BitVec 64 := BitVec.twoPow 64 1

def pteUser : BitVec 64 := BitVec.twoPow 64 2

def pteHuge : BitVec 64 := BitVec.twoPow 64 7

def pteCow : BitVec 64 := BitVec.twoPow 64 9

def pteGuard : BitVec 64 := BitVec.twoPow 64 10

def pteNx : BitVec 64 := BitVec.twoPow 64 63

def pteAddrMask : BitVec 64 := 0x000FFFFFFFFFF000

def pteFlagsMask : BitVec 64 := ~~~pteAddrMask

def hugeOffsetMask : BitVec 64 := 0x1FFFFF

def hasFlag (e flag : BitVec 64) : Bool := e &&& flag != 0

def pteAddr (e : BitVec 64) : ℕ := (e &&& pteAddrMask).toNat

def tableOf (e : BitVec 64) : ℕ := pteAddr e / pageSize

def pml4Index (vaddr : ℕ) : ℕ := vaddr / 2 ^ 39 % 512

def pdptIndex (vaddr : ℕ) : ℕ := vaddr / 2 ^ 30 % 512

def pdIndex (vaddr : ℕ) : ℕ := vaddr / 2 ^ 21 % 512

def ptIndex (vaddr : ℕ) : ℕ := vaddr / 2 ^ 12 % 512

def kernelVmaBase : ℕ := 0xFFFFFFFF80000000

def physToVirt (phys : ℕ) : ℕ := addWord phys kernelVmaBase

def setEntry (table idx : ℕ) (e : BitVec 64) (s : Machine) : Machine :=
  { s with mem := store s.mem table idx e }

def tablePointer (phys : ℕ) : Option ℕ := if physToVirt phys = 0 then none else some (phys / pageSize)

def allocPageTable (s : Machine) : Option ℕ × Machine :=
  let r := pmmAllocFrame s.pmm
  if r.1 = 0 then (none, { s with pmm := r.2 })
  else (tablePointer r.1, { s with pmm := r.2, mem := fill s.mem (r.1 / pageSize) 0 })

def getOrCreateTable (parent idx : ℕ) (flags : BitVec 64) (s : Machine) : Option ℕ × Machine :=
  let entry := s.mem parent idx
  if hasFlag entry ptePresent then
    if hasFlag entry pteHuge then (none, s) else (tablePointer (pteAddr entry), s)
  else
    match allocPageTable s with
    | (none, s) => (none, s)
    | (some child, s) =>
      (some child, setEntry parent idx (BitVec.ofNat 64 (child * pageSize) ||| flags) s)

def tableFlags (flags : BitVec 64) : BitVec 64 :=
  ptePresent ||| pteWritable ||| (if hasFlag flags pteUser then pteUser else 0)

def smallEntry (paddr : ℕ) (flags : BitVec 64) : BitVec 64 :=
  (BitVec.ofNat 64 paddr &&& pteAddrMask) ||| flags ||| ptePresent

def hugeEntry (paddr : ℕ) (flags : BitVec 64) : BitVec 64 :=
  (BitVec.ofNat 64 paddr &&& ~~~hugeOffsetMask) ||| flags ||| ptePresent

def vmmMapPage (pml4 vaddr paddr : ℕ) (flags : BitVec 64) (s : Machine) : ℤ × Machine :=
  let huge := hasFlag flags pteHuge
  let entryFlags := tableFlags flags
  match getOrCreateTable pml4 (pml4Index vaddr) entryFlags s with
  | (none, s) => (-1, s)
  | (some pdpt, s) =>
    match getOrCreateTable pdpt (pdptIndex vaddr) entryFlags s with
    | (none, s) => (-1, s)
    | (some pd, s) =>
      if huge then (0, setEntry pd (pdIndex vaddr) (hugeEntry paddr flags) s)
      else
        match getOrCreateTable pd (pdIndex vaddr) entryFlags s with
        | (none, s) => (-1, s)
        | (some pt, s) => (0, setEntry pt (ptIndex vaddr) (smallEntry paddr flags) s)

def vmmUnmapPage (pml4 vaddr : ℕ) (s : Machine) : ℤ × Machine :=
  let e := s.mem pml4 (pml4Index vaddr)
  if physToVirt (pteAddr e) = 0 ∨ !hasFlag e ptePresent then (-1, s)
  else
    let e' := s.mem (tableOf e) (pdptIndex vaddr)
    if physToVirt (pteAddr e') = 0 ∨ !hasFlag e' ptePresent then (-1, s)
    else
      let pd := tableOf e'
      let pdEntry := s.mem pd (pdIndex vaddr)
      if !hasFlag pdEntry ptePresent then (-1, s)
      else if hasFlag pdEntry pteHuge then (0, setEntry pd (pdIndex vaddr) 0 s)
      else if physToVirt (pteAddr pdEntry) = 0 then (-1, s)
      else (0, setEntry (tableOf pdEntry) (ptIndex vaddr) 0 s)

def vmmGetPhysical (s : Machine) (pml4 vaddr : ℕ) : ℕ :=
  let e := s.mem pml4 (pml4Index vaddr)
  if !hasFlag e ptePresent then 0
  else
    let e := s.mem (tableOf e) (pdptIndex vaddr)
    if !hasFlag e ptePresent then 0
    else
      let e := s.mem (tableOf e) (pdIndex vaddr)
      if !hasFlag e ptePresent then 0
      else if hasFlag e pteHuge then
        ((e &&& ~~~hugeOffsetMask) ||| (BitVec.ofNat 64 vaddr &&& hugeOffsetMask)).toNat
      else
        let e := s.mem (tableOf e) (ptIndex vaddr)
        if !hasFlag e ptePresent then 0
        else ((e &&& pteAddrMask) ||| (BitVec.ofNat 64 vaddr &&& 0xFFF)).toNat

/-! ## Address spaces -/

def copyKernelHalf (pml4 : ℕ) (s : Machine) : Machine :=
  { s with mem := update s.mem pml4 fun i =>
      if 256 ≤ i ∧ i < 512 then s.mem s.kernelPml4 i else s.mem pml4 i }

def vmmCreateAddressSpace (s : Machine) : Option ℕ × Machine :=
  match allocPageTable s with
  | (none, s) => (none, s)
  | (some pml4, s) => (some pml4, copyKernelHalf pml4 s)

def releasePages (mem : ℕ → ℕ → BitVec 64) (pt : ℕ) (m : Pmm) : Pmm :=
  (List.range 512).foldl (fun m l =>
    let pte := mem pt l
    if hasFlag pte ptePresent then pmmFreeFrame (pteAddr pte) m else m) m

def releaseDirectory (mem : ℕ → ℕ → BitVec 64) (pd : ℕ) (m : Pmm) : Pmm :=
  (List.range 512).foldl (fun m k =>
    let pde := mem pd k
    if !hasFlag pde ptePresent then m
    else if hasFlag pde pteHuge then pmmFreeFrames (pde &&& ~~~hugeOffsetMask).toNat 512 m
    else pmmFreeFrame (pteAddr pde) (releasePages mem (tableOf pde) m)) m

def releasePointers (mem : ℕ → ℕ → BitVec 64) (pdpt : ℕ) (m : Pmm) : Pmm :=
  (List.range 512).foldl (fun m j =>
    let e := mem pdpt j
    if !hasFlag e ptePresent then m
    else pmmFreeFrame (pteAddr e) (releaseDirectory mem (tableOf e) m)) m

def vmmDestroyAddressSpace (pml4 : ℕ) (s : Machine) : Machine :=
  let m := (List.range 256).foldl (fun m i =>
    let e := s.mem pml4 i
    if !hasFlag e ptePresent then m
    else pmmFreeFrame (pteAddr e) (releasePointers s.mem (tableOf e) m)) s.pmm
  { s with pmm := pmmFreeFrame (pml4 * pageSize) m }

def faultPresent : BitVec 64 := BitVec.twoPow 64 0

def faultWrite : BitVec 64 := BitVec.twoPow 64 1

def faultUser : BitVec 64 := BitVec.twoPow 64 2

inductive KillReason
  | cowOutOfMemory
  | stackOverflow
  | segmentationFault
  deriving DecidableEq

inductive FaultResult
  | resolved (s : Machine)
  | killed (reason : KillReason) (s : Machine)
  | panic

def FaultResult.resolved? : FaultResult → Option Machine
  | .resolved s => some s
  | _ => none

def walkToTable (s : Machine) (pml4 vaddr : ℕ) : Option ℕ :=
  let e := s.mem pml4 (pml4Index vaddr)
  if !hasFlag e ptePresent then none
  else
    let e := s.mem (tableOf e) (pdptIndex vaddr)
    if !hasFlag e ptePresent then none
    else
      let e := s.mem (tableOf e) (pdIndex vaddr)
      if hasFlag e ptePresent && !hasFlag e pteHuge then some (tableOf e) else none

def soleEntry (pte : BitVec 64) : BitVec 64 := (pte &&& ~~~pteCow) ||| pteWritable

def privateEntry (newPhys : ℕ) (pte : BitVec 64) : BitVec 64 :=
  (BitVec.ofNat 64 newPhys &&& pteAddrMask) ||| (pte &&& pteFlagsMask &&& ~~~pteCow) ||| pteWritable

def breakCow (pt idx : ℕ) (pte : BitVec 64) (s : Machine) : FaultResult :=
  let oldPhys := pteAddr pte
  if pmmGetRefcount s.pmm oldPhys = 1 then
    .resolved (setEntry pt idx (soleEntry pte) s)
  else
    let r := pmmAllocFrame s.pmm
    if r.1 = 0 then .killed .cowOutOfMemory { s with pmm := r.2 }
    else
      let mem := update s.mem (r.1 / pageSize) (s.mem (oldPhys / pageSize))
      let s := setEntry pt idx (privateEntry r.1 pte) { s with mem := mem, pmm := r.2 }
      .resolved { s with pmm := pmmUnrefFrame oldPhys s.pmm }

def cowTable (pml4 faultAddr : ℕ) (errorCode : BitVec 64) (s : Machine) : Option ℕ :=
  if hasFlag errorCode faultWrite && hasFlag errorCode faultPresent && physToVirt (pml4 * pageSize) ≠ 0 then
    (walkToTable s pml4 faultAddr).filter fun pt =>
      let pte := s.mem pt (ptIndex faultAddr)
      hasFlag pte pteCow && hasFlag pte ptePresent
  else none

def hitsGuard (pml4 faultAddr : ℕ) (errorCode : BitVec 64) (s : Machine) : Bool :=
  !hasFlag errorCode faultPresent && physToVirt (pml4 * pageSize) ≠ 0 &&
    (walkToTable s pml4 faultAddr).any fun pt => hasFlag (s.mem pt (ptIndex faultAddr)) pteGuard

def vmmHandlePageFault (pml4 faultAddr : ℕ) (errorCode : BitVec 64) (s : Machine) : FaultResult :=
  if !hasFlag errorCode faultUser then .panic
  else match cowTable pml4 faultAddr errorCode s with
    | some pt => breakCow pt (ptIndex faultAddr) (s.mem pt (ptIndex faultAddr)) s
    | none =>
      if hitsGuard pml4 faultAddr errorCode s then .killed .stackOverflow s
      else .killed .segmentationFault s

def cloneVaddr (i j k l : ℕ) : ℕ := i <<< 39 ||| j <<< 30 ||| k <<< 21 ||| l <<< 12

def cowFlags (pte : BitVec 64) : BitVec 64 := (pte &&& pteFlagsMask &&& ~~~pteWritable) ||| pteCow

def cowEntry (pte : BitVec 64) : BitVec 64 := (pte &&& ~~~pteWritable) ||| pteCow

def clonePage (dst pt i j k : ℕ) (s : Machine) (l : ℕ) : Except Machine Machine :=
  let pte := s.mem pt l
  if !hasFlag pte ptePresent then .ok s
  else
    let r := vmmMapPage dst (cloneVaddr i j k l) (pteAddr pte) (cowFlags pte) s
    if r.1 ≠ 0 then .error r.2
    else
      let s := setEntry pt l (cowEntry pte) r.2
      .ok { s with pmm := pmmRefFrame (pteAddr pte) s.pmm }

def copyFrames (count dst src : ℕ) (mem : ℕ → ℕ → BitVec 64) : ℕ → ℕ → BitVec 64 :=
  (List.range count).foldl (fun mem f => update mem (dst + f) (mem (src + f))) mem

def cloneHuge (dst i j k : ℕ) (pde : BitVec 64) (s : Machine) : Except Machine Machine :=
  let paddr := (pde &&& ~~~hugeOffsetMask).toNat
  let r := pmmAllocFrames 512 s.pmm
  if r.1 = 0 then .error { s with pmm := r.2 }
  else
    let mem := copyFrames 512 (r.1 / pageSize) (paddr / pageSize) s.mem
    .ok (vmmMapPage dst (cloneVaddr i j k 0) r.1 ((pde &&& pteFlagsMask) ||| pteHuge)
      { s with mem := mem, pmm := r.2 }).2

def cloneTable (dst pd i j : ℕ) (s : Machine) (k : ℕ) : Except Machine Machine :=
  let pde := s.mem pd k
  if !hasFlag pde ptePresent then .ok s
  else if hasFlag pde pteHuge then cloneHuge dst i j k pde s
  else (List.range 512).foldlM (clonePage dst (tableOf pde) i j k) s

def cloneDirectory (dst pdpt i : ℕ) (s : Machine) (j : ℕ) : Except Machine Machine :=
  let e := s.mem pdpt j
  if !hasFlag e ptePresent then .ok s
  else (List.range 512).foldlM (cloneTable dst (tableOf e) i j) s

def clonePointers (dst src : ℕ) (s : Machine) (i : ℕ) : Except Machine Machine :=
  let e := s.mem src i
  if !hasFlag e ptePresent then .ok s
  else (List.range 512).foldlM (cloneDirectory dst (tableOf e) i) s

def vmmCloneAddressSpace (src : ℕ) (s : Machine) : Option ℕ × Machine :=
  match vmmCreateAddressSpace s with
  | (none, s) => (none, s)
  | (some dst, s) =>
    match (List.range 256).foldlM (clonePointers dst src) s with
    | .ok s => (some dst, s)
    | .error s => (none, vmmDestroyAddressSpace dst s)

end AetherOs.Paging
