import AetherOs.Base.Loop
import AetherOs.Paging.Vmm

/-! # Shared memory regions and the processes that map them -/

namespace AetherOs.Shm

open Base Base.Radix Paging Function

def enoent : ℤ := 2
def esrch : ℤ := 3
def enomem : ℤ := 12
def efault : ℤ := 14
def einval : ℤ := 22

def shmMaxRegions : ℕ := 64

def shmNameMax : ℕ := 64

def shmMaxPages : ℕ := 256

def shmWrite : BitVec 32 := 2

def shmExec : BitVec 32 := 4

def maxProcesses : ℕ := 256

def kstackFrames : ℕ := 16 * 1024 / pageSize

def shmBase : ℕ := 0x400000 + 0x10000000

structure Region where
  name : List UInt8
  valid : Bool
  refcount : ℤ
  numPages : ℕ
  physPages : ℕ → ℕ

def Region.zero : Region where
  name := []
  valid := false
  refcount := 0
  numPages := 0
  physPages := fun _ => 0

structure Task where
  addressSpace : ℕ
  kernelStack : ℕ
  deriving DecidableEq

structure ShmKernel where
  machine : Machine
  shmTable : ℕ → Region
  processTable : ℕ → Option Task
  idleProc : ℕ

namespace ShmKernel

def setRegion (a : ℕ) (r : Region) (k : ShmKernel) : ShmKernel :=
  { k with shmTable := update k.shmTable a r }

def setTask (p : ℕ) (t : Option Task) (k : ShmKernel) : ShmKernel :=
  { k with processTable := update k.processTable p t }

def withMachine (s : Machine) (k : ShmKernel) : ShmKernel := { k with machine := s }

end ShmKernel

def shmFindByName (name : List UInt8) (k : ShmKernel) : Option ℕ :=
  search (fun r : Region => r.valid && r.name = name.take shmNameMax) k.shmTable shmMaxRegions 0

def shmAllocSlot (k : ShmKernel) : Option ℕ := search (fun r : Region => !r.valid) k.shmTable shmMaxRegions 0

def allocPage (st : Pmm × (ℕ → ℕ)) (i : ℕ) : Except (ℕ × Pmm × (ℕ → ℕ)) (Pmm × (ℕ → ℕ)) :=
  let frame := pmmAllocFrame st.1
  if frame.1 = 0 then .error (i, frame.2, st.2) else .ok (frame.2, update st.2 i frame.1)

def freePages (pages : ℕ → ℕ) (count : ℕ) (m : Pmm) : Pmm :=
  (List.range count).foldl (fun m i => pmmFreeFrame (pages i) m) m

def zeroPages (pages : ℕ → ℕ) (count : ℕ) (mem : ℕ → ℕ → BitVec 64) : ℕ → ℕ → BitVec 64 :=
  (List.range count).foldl (fun mem i => fill mem (pages i / pageSize) 0) mem

def shmCreate (name : List UInt8) (size : ℕ) (k : ShmKernel) : Option ℕ × ShmKernel :=
  if size = 0 ∨ shmMaxPages * pageSize < size then (none, k)
  else if (shmFindByName name k).isSome then (none, k)
  else match shmAllocSlot k with
    | none => (none, k)
    | some a =>
      let npages := alignUp size pageSize / pageSize
      let r := k.shmTable a
      match (List.range npages).foldlM allocPage (k.machine.pmm, r.physPages) with
      | .error (i, m, pages) =>
        (none, (k.setRegion a { r with physPages := pages }).withMachine
          { k.machine with pmm := freePages pages i m })
      | .ok (m, pages) =>
        (some a, (k.setRegion a ⟨name.take (shmNameMax - 1), true, 0, npages, pages⟩).withMachine
          { k.machine with pmm := m, mem := zeroPages pages npages k.machine.mem })

def mapFlags (flags : BitVec 32) : BitVec 64 :=
  ptePresent ||| pteUser ||| (if flags &&& shmWrite ≠ 0 then pteWritable else 0) |||
    (if flags &&& shmExec ≠ 0 then 0 else pteNx)

def shmMapPage (pages : ℕ → ℕ) (pml4 : ℕ) (flags : BitVec 64) (s : Machine) (i : ℕ) :
    Except (ℕ × Machine) Machine :=
  let r := vmmMapPage pml4 (shmBase + i * pageSize) (pages i) flags s
  if r.1 ≠ 0 then .error (i, r.2) else .ok r.2

def unmapPages (pml4 vaddr count : ℕ) (s : Machine) : Machine :=
  (List.range count).foldl (fun s i => (vmmUnmapPage pml4 (addWord vaddr (i * pageSize)) s).2) s

def shmMap (a pml4 : ℕ) (flags : BitVec 32) (k : ShmKernel) : ℕ × ShmKernel :=
  let r := k.shmTable a
  match (List.range r.numPages).foldlM (shmMapPage r.physPages pml4 (mapFlags flags)) k.machine with
  | .error (i, s) => (0, k.withMachine (unmapPages pml4 shmBase i s))
  | .ok s => (shmBase, (k.setRegion a { r with refcount := r.refcount + 1 }).withMachine s)

def shmDestroy (a : ℕ) (k : ShmKernel) : ShmKernel :=
  let r := k.shmTable a
  if !r.valid then k
  else (k.setRegion a Region.zero).withMachine
    { k.machine with pmm := freePages r.physPages r.numPages k.machine.pmm }

def shmUnmap (a pml4 vaddr : ℕ) (k : ShmKernel) : ShmKernel :=
  let r := k.shmTable a
  let refcount := if 0 < r.refcount then r.refcount - 1 else r.refcount
  let k := (k.setRegion a { r with refcount := refcount }).withMachine (unmapPages pml4 vaddr r.numPages k.machine)
  if refcount = 0 then shmDestroy a k else k

def sysShmOpen (name : Option (List UInt8)) (size : ℕ) (k : ShmKernel) : ℤ × ShmKernel :=
  match name with
  | none => (-efault, k)
  | some name =>
    match shmFindByName name k with
    | some a => (a, k)
    | none =>
      if size = 0 then (-enoent, k)
      else match shmCreate name size k with
        | (none, k) => (-enomem, k)
        | (some a, k) => (a, k)

def sysShmMap (current : Option Task) (shmId : ℕ) (flags : BitVec 64) (k : ShmKernel) : ℤ × ShmKernel :=
  if shmMaxRegions ≤ shmId ∨ !(k.shmTable shmId).valid then (-einval, k)
  else match current with
    | none => (-esrch, k)
    | some task =>
      let r := shmMap shmId task.addressSpace (flags.setWidth 32) k
      (if r.1 ≠ 0 then r.1 else -enomem, r.2)

def regionAt (pml4 vaddr : ℕ) (k : ShmKernel) : Option ℕ :=
  search (fun r : Region => r.valid && (let phys := vmmGetPhysical k.machine pml4 vaddr
    phys ≠ 0 && phys = r.physPages 0)) k.shmTable shmMaxRegions 0

def sysShmUnmap (current : Option Task) (vaddr : ℕ) (k : ShmKernel) : ℤ × ShmKernel :=
  match current with
  | none => (-esrch, k)
  | some task =>
    match regionAt task.addressSpace vaddr k with
    | none => (-einval, k)
    | some a => (0, shmUnmap a task.addressSpace vaddr k)

def sysShmClose (shmId : ℕ) (k : ShmKernel) : ℤ × ShmKernel :=
  let r := k.shmTable shmId
  if shmMaxRegions ≤ shmId ∨ !r.valid then (-einval, k)
  else if r.refcount ≤ 1 then (0, shmDestroy shmId k)
  else (0, k.setRegion shmId { r with refcount := r.refcount - 1 })

def allocProcessSlot (k : ShmKernel) : Option ℕ :=
  search (fun t : Option Task => t.isNone) k.processTable maxProcesses 0

def processFork (parent : Task) (k : ShmKernel) : Option ℕ × ShmKernel :=
  match allocProcessSlot k with
  | none => (none, k)
  | some child =>
    match vmmCloneAddressSpace parent.addressSpace k.machine with
    | (none, s) => (none, k.withMachine s)
    | (some dst, s) =>
      let kstack := pmmAllocFrames kstackFrames s.pmm
      let s := { s with pmm := kstack.2 }
      if kstack.1 = 0 then (none, k.withMachine (vmmDestroyAddressSpace dst s))
      else (some child, (k.setTask child (some ⟨dst, physToVirt kstack.1⟩)).withMachine s)

def processExit (p : ℕ) (task : Task) (k : ShmKernel) : ShmKernel :=
  let s := if task.addressSpace ≠ k.machine.kernelPml4 then vmmDestroyAddressSpace task.addressSpace k.machine
    else k.machine
  let m := if task.kernelStack ≠ 0 then pmmFreeFrames (subWord task.kernelStack kernelVmaBase) kstackFrames s.pmm
    else s.pmm
  (k.setTask p none).withMachine { s with pmm := m }

inductive Call
  | shmOpen (name : Option (List UInt8)) (size : ℕ)
  | shmMap (shmId : ℕ) (flags : BitVec 64)
  | shmUnmap (vaddr : ℕ)
  | shmClose (shmId : ℕ)
  | fork
  | exit
  deriving DecidableEq

def serve (p : ℕ) (task : Task) (k : ShmKernel) : Call → ShmKernel
  | .shmOpen name size => (sysShmOpen name size k).2
  | .shmMap shmId flags => (sysShmMap (some task) shmId flags k).2
  | .shmUnmap vaddr => (sysShmUnmap (some task) vaddr k).2
  | .shmClose shmId => (sysShmClose shmId k).2
  | .fork => (processFork task k).2
  | .exit => processExit p task k

inductive Step : ShmKernel → ℕ × Call → ShmKernel → Prop
  | call {k : ShmKernel} {p : ℕ} {task : Task} {c : Call} : p < maxProcesses → k.processTable p = some task →
      p ≠ k.idleProc → (c = .exit ∨ task.addressSpace ≠ k.machine.kernelPml4) → Step k (p, c) (serve p task k c)

end AetherOs.Shm
