import AetherOs.Paging.UserAccess

/-! # Replacing the image of a process -/

namespace AetherOs.Userland

open Base Base.Radix Paging List

/-! ## The memory system calls -/

structure Process where
  addressSpace : ℕ
  heapStart : ℕ
  heapEnd : ℕ

structure Kernel where
  machine : Machine
  current : Option Process

def esrch : ℤ := 3

def enomem : ℤ := 12

def efault : ℤ := 14

def einval : ℤ := 22

def toInt64 (n : ℕ) : ℤ := (BitVec.ofNat 64 n).toInt

def userFlags : BitVec 64 := ptePresent ||| pteWritable ||| pteUser

def clearFrame (phys : ℕ) (s : Machine) : Machine := { s with mem := fill s.mem (phys / pageSize) 0 }

def brkPage (space vaddr : ℕ) (s : Machine) : Except Machine Machine :=
  let r := pmmAllocFrame s.pmm
  let s := { s with pmm := r.2 }
  if r.1 = 0 then .error s else .ok (vmmMapPage space vaddr r.1 userFlags s).2

def mmapPage (space vaddr : ℕ) (s : Machine) : Except Machine Machine :=
  let r := pmmAllocFrame s.pmm
  let s := { s with pmm := r.2 }
  if r.1 = 0 then .error s else .ok (vmmMapPage space vaddr r.1 userFlags (clearFrame r.1 s)).2

def munmapPage (space vaddr : ℕ) (s : Machine) : Machine :=
  let phys := vmmGetPhysical s space vaddr
  if phys = 0 then s
  else
    let s := (vmmUnmapPage space vaddr s).2
    { s with pmm := pmmFreeFrame phys s.pmm }

def sysBrk (newBrk : ℕ) (k : Kernel) : ℤ × Kernel :=
  match k.current with
  | none => (-esrch, k)
  | some p =>
    if newBrk = 0 then (toInt64 p.heapEnd, k)
    else if newBrk < p.heapStart then (-einval, k)
    else
      let oldEnd := alignUp p.heapEnd pageSize
      let newEnd := alignUp newBrk pageSize
      outcome (fun s => (-enomem, { k with machine := s }))
        (fun s => (toInt64 newBrk, ⟨s, some { p with heapEnd := newBrk }⟩))
        ((List.range ((newEnd - oldEnd) / pageSize)).foldlM
          (fun s i => brkPage p.addressSpace (oldEnd + i * pageSize) s) k.machine)

def sysMmap (addr length : ℕ) (k : Kernel) : ℤ × Kernel :=
  match k.current with
  | none => (-einval, k)
  | some p =>
    if length = 0 then (-einval, k)
    else
      let length := alignUp length pageSize
      let vaddr := alignUp (if addr = 0 then p.heapEnd else addr) pageSize
      outcome (fun s => (-enomem, { k with machine := s }))
        (fun s => (toInt64 vaddr, ⟨s, some { p with heapEnd := addWord vaddr length }⟩))
        ((List.range (length / pageSize)).foldlM
          (fun s i => mmapPage p.addressSpace (addWord vaddr (i * pageSize)) s) k.machine)

def sysMunmap (addr length : ℕ) (k : Kernel) : ℤ × Kernel :=
  match k.current with
  | none => (-einval, k)
  | some p =>
    if addr = 0 then (-einval, k)
    else
      let length := alignUp length pageSize
      let s := (List.range (length / pageSize)).foldl
        (fun s i => munmapPage p.addressSpace (addWord addr (i * pageSize)) s) k.machine
      (0, { k with machine := s })

/-! ## The ELF loader -/

structure ElfFile where
  size : ℕ
  byte : ℕ → BitVec 8

def readLe (file : ElfFile) (off : ℕ) : ℕ → ℕ
  | 0 => 0
  | bytes + 1 => (file.byte off).toNat + 256 * readLe file (addWord off 1) bytes

structure Phdr where
  pType : ℕ
  pFlags : BitVec 32
  pOffset : ℕ
  pVaddr : ℕ
  pFilesz : ℕ
  pMemsz : ℕ

variable (file : ElfFile)

def elfValidate : Bool :=
  decide (64 ≤ file.size) && decide (readLe file 0 4 = 0x464C457F) && decide (file.byte 4 = 2) &&
    decide (file.byte 5 = 1) && decide (readLe file 16 2 = 2) && decide (readLe file 18 2 = 62)

def intProduct (i j : ℕ) : ℕ := ((BitVec.ofNat 32 (i * j)).signExtend 64).toNat

def phdrAt (i : ℕ) : Phdr :=
  let base := addWord (readLe file 32 8) (intProduct i (readLe file 54 2))
  { pType := readLe file base 4
    pFlags := BitVec.ofNat 32 (readLe file (addWord base 4) 4)
    pOffset := readLe file (addWord base 8) 8
    pVaddr := readLe file (addWord base 16) 8
    pFilesz := readLe file (addWord base 32) 8
    pMemsz := readLe file (addWord base 40) 8 }

def phnum : ℕ := readLe file 56 2

def Phdr.loads (ph : Phdr) : Prop := ph.pType = 1 ∧ ph.pMemsz ≠ 0

def Phdr.vaddrAligned (ph : Phdr) : ℕ := alignDown ph.pVaddr pageSize

def Phdr.vendAligned (ph : Phdr) : ℕ := alignUp (addWord ph.pVaddr ph.pMemsz) pageSize

def Phdr.pages (ph : Phdr) : ℕ := subWord ph.vendAligned ph.vaddrAligned / pageSize

def Phdr.pteFlags (ph : Phdr) : BitVec 64 :=
  ptePresent ||| pteUser ||| (if ph.pFlags &&& 2 != 0 then pteWritable else 0) |||
    (if ph.pFlags &&& 1 != 0 then 0 else pteNx)

instance (ph : Phdr) : Decidable ph.loads := inferInstanceAs (Decidable (_ ∧ _))

def loadPage (space vaddr : ℕ) (flags : BitVec 64) (s : Machine) : Except Machine Machine :=
  let r := pmmAllocFrame s.pmm
  let s := { s with pmm := r.2 }
  if r.1 = 0 then .error s
  else
    let mapped := vmmMapPage space vaddr r.1 flags (clearFrame r.1 s)
    if mapped.1 = 0 then .ok mapped.2
    else .error { mapped.2 with pmm := pmmFreeFrame r.1 mapped.2.pmm }

def storeByte (s : Machine) (phys : ℕ) (b : BitVec 8) : Machine :=
  let f := phys / pageSize
  { s with mem := Function.update s.mem f (setByte (s.mem f) (phys % pageSize) b) }

def copyBytes (src phys count : ℕ) (s : Machine) : Machine :=
  (List.range count).foldl (fun s i => storeByte s (phys + i) (file.byte (addWord src i))) s

def chunkSize (dst toCopy : ℕ) : ℕ := min toCopy (pageSize - dst % pageSize)

def copyFile (file : ElfFile) (space : ℕ) : ℕ → ℕ → ℕ → ℕ → Machine → Except Machine Machine
  | 0, _, _, _, s => .ok s
  | rounds + 1, src, dst, toCopy, s =>
    if toCopy = 0 then .ok s
    else
      let phys := vmmGetPhysical s space dst
      if phys = 0 then .error s
      else
        let chunk := chunkSize dst toCopy
        let s := copyBytes file src (phys + dst % pageSize) chunk s
        copyFile file space rounds (addWord src chunk) (addWord dst chunk) (toCopy - chunk) s

def raiseHeap (segEnd : ℕ) (p : Process) : Process :=
  if p.heapStart < segEnd then { p with heapStart := segEnd, heapEnd := segEnd } else p

def loadSegment (ph : Phdr) (space : ℕ) (s : Machine) : Except (ℤ × Machine) Machine :=
  outcome (fun s => .error (-enomem, s))
    (fun s => outcome (fun s => .error (-efault, s)) .ok
      (copyFile file space ph.pFilesz ph.pOffset ph.pVaddr ph.pFilesz s))
    ((List.range ph.pages).foldlM
      (fun s i => loadPage space (addWord ph.vaddrAligned (i * pageSize)) ph.pteFlags s) s)

def loadPhdr (i : ℕ) (st : Process × Machine) :
    Except (ℤ × Process × Machine) (Process × Machine) :=
  let ph := phdrAt file i
  if ph.loads then
    outcome (fun e => .error (e.1, st.1, e.2)) (fun s => .ok (raiseHeap ph.vendAligned st.1, s))
      (loadSegment file ph st.1.addressSpace st.2)
  else .ok st

structure LoadResult where
  code : ℤ
  entry : Option ℕ
  process : Process
  machine : Machine

def elfLoad (p : Process) (s : Machine) : LoadResult :=
  if elfValidate file then
    let entry := some (readLe file 24 8)
    outcome (fun e => ⟨e.1, entry, e.2.1, e.2.2⟩) (fun st => ⟨0, entry, st.1, st.2⟩)
      ((List.range (phnum file)).foldlM (fun st i => loadPhdr file i st) (p, s))
  else ⟨-einval, none, p, s⟩

/-! ## Replacing the image of a process -/

def enoent : ℤ := 2

def eio : ℤ := 5

def enoexec : ℤ := 8

def userStackTop : ℕ := 0x00007FFFFFFFE000

def userStackSize : ℕ := 8 * 1024 * 1024

def maxNameLen : ℕ := 64

def gdtUserCode : BitVec 64 := 0x20

def gdtUserData : BitVec 64 := 0x18

structure Context where
  r15 : BitVec 64
  r14 : BitVec 64
  r13 : BitVec 64
  r12 : BitVec 64
  rbx : BitVec 64
  rbp : BitVec 64
  rsp : BitVec 64
  rip : BitVec 64
  rflags : BitVec 64
  cs : BitVec 64
  ss : BitVec 64

structure Task where
  process : Process
  userStack : ℕ
  context : Context
  name : ℕ → BitVec 8

def strncpy (dest : ℕ → BitVec 8) (src : List (BitVec 8)) (n : ℕ) : ℕ → BitVec 8 :=
  fun i => if i < n then src.getD i 0 else dest i

structure ExecFile where
  file : ElfFile
  buffered : Bool
  readCount : ℤ

inductive ExecResult
  | returned (code : ℤ) (task : Task) (machine : Machine)
  | panic

def enterImage (path : List (BitVec 8)) (entry : ℕ) (t : Task) : Task :=
  { t with
    userStack := userStackTop
    context := { t.context with
      rip := BitVec.ofNat 64 entry
      rsp := BitVec.ofNat 64 (userStackTop - 8)
      rflags := 0x202
      cs := gdtUserCode ||| 3
      ss := gdtUserData ||| 3 }
    name := strncpy t.name path (maxNameLen - 1) }

def mapStack (space : ℕ) (s : Machine) : Except Machine Machine :=
  (List.range (userStackSize / pageSize)).foldlM
    (fun s i => brkPage space (userStackTop - userStackSize + i * pageSize) s) s

def processExec (path : List (BitVec 8)) (found : Option ExecFile) (t : Task) (s : Machine) : ExecResult :=
  match found with
  | none => .returned (-enoent) t s
  | some f =>
    if f.buffered = false then .returned (-enomem) t s
    else if f.readCount ≠ toInt64 f.file.size then .returned (-eio) t s
    else if elfValidate f.file = false then .returned (-einval) t s
    else
      match vmmCreateAddressSpace (vmmDestroyAddressSpace t.process.addressSpace s) with
      | (none, _) => .panic
      | (some space, s) =>
        let loaded := elfLoad f.file { t.process with addressSpace := space } s
        let t := { t with process := loaded.process }
        if loaded.code ≠ 0 then .returned (-enoexec) t loaded.machine
        else
          outcome (fun s => .returned (-enomem) t s)
            (fun s => .returned 0 (enterImage path (loaded.entry.getD 0) t) s)
            (mapStack space loaded.machine)

/-! ## What an exec should keep -/

structure Accepted (found : Option ExecFile) (f : ExecFile) : Prop where
  opened : found = some f
  buffered : f.buffered = true
  read : f.readCount = toInt64 f.file.size
  valid : elfValidate f.file = true

def highestEnd : Option ℕ :=
  (((List.range (phnum file)).map (phdrAt file)).filter fun ph => ph.pType = 1).map Phdr.vendAligned |>.max?

def segmentsOf (is : List ℕ) : List Phdr := (is.map (phdrAt file)).filter fun ph => ph.loads

def segments : List Phdr := segmentsOf file (List.range (phnum file))

def loadedEnd : ℕ := ((segments file).map Phdr.vendAligned).foldl max 0

def ExecKeeps (path : List (BitVec 8)) (found : Option ExecFile) (t : Task) (s : Machine) : Prop :=
  match processExec path found t s with
  | .returned code t' s' =>
    (code < 0 → (∀ v < userPages * pageSize,
        userLoad s' t'.process.addressSpace v = userLoad s t.process.addressSpace v) ∧
      t'.context = t.context ∧ t'.process.heapStart = t.process.heapStart ∧
      t'.process.heapEnd = t.process.heapEnd ∧ t'.name = t.name) ∧
    (code = 0 → ∀ f e, found = some f → highestEnd f.file = some e →
      t'.process.heapStart = e ∧ t'.process.heapEnd = e)
  | .panic => True

def HeapMoves (p : Process) : Prop :=
  ∀ e, highestEnd file = some e → p.heapStart < e ∧ loadedEnd file = e ∨ p.heapStart = e ∧ p.heapEnd = e

theorem segmentsOf_cons (file : ElfFile) (i : ℕ) (is : List ℕ) : segmentsOf file (i :: is) =
    if (phdrAt file i).loads then phdrAt file i :: segmentsOf file is else segmentsOf file is := by
  rw [segmentsOf, map_cons, filter_cons, segmentsOf]
  simp only [decide_eq_true_eq]

/-! ## The heap bounds -/

def raiseAll (segs : List Phdr) (p : Process) : Process := segs.foldl (fun p ph => raiseHeap ph.vendAligned p) p

theorem raiseAll_eq (segs : List Phdr) (p : Process) {top : ℕ}
    (htop : (segs.map Phdr.vendAligned).foldl max 0 = top) :
    raiseAll segs p = if p.heapStart < top then { p with heapStart := top, heapEnd := top } else p := by
  induction segs using List.reverseRecOn generalizing top with
  | nil =>
    subst htop
    exact (if_neg (Nat.not_lt_zero _)).symm
  | append_singleton segs ph ih =>
    have hlast : raiseAll (segs ++ [ph]) p = raiseHeap ph.vendAligned (raiseAll segs p) := foldl_append
    rw [map_append, foldl_append] at htop
    subst htop
    rw [hlast, ih rfl]
    generalize (segs.map Phdr.vendAligned).foldl max 0 = top
    simp only [foldl_cons, foldl_nil, map_cons, map_nil, raiseHeap]
    grind

theorem loadedEnd_le {file : ElfFile} {e : ℕ} (he : highestEnd file = some e) : loadedEnd file ≤ e := by
  have hmax := (List.max?_eq_some_iff.mp he).2
  refine List.foldlRecOn (motive := (· ≤ e)) _ max (Nat.zero_le e) fun top htop a ha => max_le htop (hmax a ?_)
  obtain ⟨ph, hph, rfl⟩ := mem_map.mp ha
  obtain ⟨hmem, hloads⟩ := mem_filter.mp hph
  exact mem_map_of_mem (mem_filter.mpr ⟨hmem, decide_eq_true (of_decide_eq_true hloads).1⟩)

theorem heapMoves_iff {file : ElfFile} {p : Process} : HeapMoves file p ↔ ∀ e, highestEnd file = some e →
    (raiseAll (segments file) p).heapStart = e ∧ (raiseAll (segments file) p).heapEnd = e := by
  refine forall_congr' fun e => forall_congr' fun he => ?_
  have hle := loadedEnd_le he
  rw [raiseAll_eq (segments file) p (rfl : _ = loadedEnd file)]
  split
  · dsimp only
    omega
  · omega

end AetherOs.Userland
