import AetherOs.Fs.Ramfs
import AetherOs.Proc.Kernel

/-! # System calls on files -/

namespace AetherOs.Syscall

open Fs Proc

variable {δ : Type}

def accessR : ℕ := 4

def accessW : ℕ := 2

def eacces : ℤ := 13

def efault : ℤ := 14

def einval : ℤ := 22

def seekSet : ℕ := 0

def seekCur : ℕ := 1

def seekEnd : ℕ := 2

def newline : UInt8 := 10

structure System (δ : Type) where
  kernel : Kernel
  vfs : Vfs δ

def effectiveBits (proc : Process) (n : VfsNode) : ℕ :=
  let mode := n.mode &&& 0o777
  if proc.euid = n.uid then mode >>> 6 &&& 7
  else if proc.egid = n.gid then mode >>> 3 &&& 7
  else mode &&& 7

def vfsCheckAccess (current : Option Process) (n : VfsNode) (mask : ℕ) : ℤ :=
  match current with
  | none => 0
  | some proc =>
    if proc.euid = 0 then 0
    else if n.mode = 0 then 0
    else if effectiveBits proc n &&& mask ≠ mask then -eacces
    else 0

def neededAccess (flags : ℕ) : ℕ :=
  let acc := flags &&& 3
  (if acc = oRdonly ∨ acc = oRdwr then accessR else 0) |||
    (if acc = oWronly ∨ acc = oRdwr then accessW else 0) |||
    (if flags &&& oCreat ≠ 0 then accessW else 0)

def sysOpen (ops : VfsOps δ) (path : Option Name) (flags : ℕ) (residue : Name) (nodeMemory fileMemory : Bool)
    (s : System δ) : ℤ × System δ :=
  match path with
  | none => (-efault, s)
  | some path =>
    match s.kernel.sched.current with
    | none => (-esrch, s)
    | some p =>
      match vfsOpen ops nodeMemory residue path flags s.vfs with
      | (none, v) => (-enoent, { s with vfs := v })
      | (some node, v) =>
        let perr := vfsCheckAccess (some (s.kernel.proc p)) (v.nodes node) (neededAccess flags)
        if perr ≠ 0 then (perr, { s with vfs := vfsClose node v })
        else
          match fdOpen p node flags fileMemory s.kernel with
          | (some fd, k) => (fd, ⟨k, v⟩)
          | (none, _) =>
            (if (fdAlloc p s.kernel).isNone then -emfile else -enomem, { s with vfs := vfsClose node v })

def openFile (fd : ℕ) (s : System δ) : Option (ℕ × ℕ) :=
  match s.kernel.sched.current with
  | none => none
  | some p => if maxFds ≤ fd then none else ((s.kernel.proc p).fds fd).file.map fun f => (p, f)

def setOffset (p fd offset : ℕ) (s : System δ) : System δ :=
  { s with kernel := s.kernel.setFd p fd { (s.kernel.proc p).fds fd with offset := offset } }

def advance (p fd : ℕ) (result : ℤ) (s : System δ) : System δ :=
  if 0 < result then setOffset p fd (addWord ((s.kernel.proc p).fds fd).offset result.toNat) s else s

def sysWrite (ops : VfsOps δ) (fd : ℕ) (buf : Option (List UInt8)) (memory : Bool) (s : System δ) :
    Option (ℤ × System δ) :=
  match buf with
  | none => some (-efault, s)
  | some buf =>
    if fd = 1 ∨ fd = 2 then some (toSsize buf.length, s)
    else
      match openFile fd s with
      | none => some (-ebadf, s)
      | some (p, f) =>
        (ops.write memory (s.kernel.files f).node ((s.kernel.proc p).fds fd).offset buf s.vfs).map
          fun (written, v) => (written, advance p fd written { s with vfs := v })

def keyboardLine (keyboard : ℕ → UInt8) : ℕ → ℕ → List UInt8
  | 0, _ => []
  | count + 1, i => keyboard i :: if keyboard i = newline then [] else keyboardLine keyboard count (i + 1)

def sysRead (ops : VfsOps δ) (fd : ℕ) (buf : Bool) (count : ℕ) (keyboard : ℕ → UInt8) (s : System δ) :
    (ℤ × List UInt8) × System δ :=
  if buf = false then ((-efault, []), s)
  else if fd = 0 then ((toSsize (keyboardLine keyboard count 0).length, keyboardLine keyboard count 0), s)
  else
    match openFile fd s with
    | none => ((-ebadf, []), s)
    | some (p, f) =>
      let got := ops.read (s.kernel.files f).node ((s.kernel.proc p).fds fd).offset count s.vfs
      (got, advance p fd got.1 s)

def seekPosition (offset whence current size : ℕ) : Option ℕ :=
  if whence = seekSet then some offset
  else if whence = seekCur then some (addWord current offset)
  else if whence = seekEnd then some (addWord size offset)
  else none

def sysLseek (fd offset whence : ℕ) (s : System δ) : ℤ × System δ :=
  if s.kernel.sched.current.isNone then (-esrch, s)
  else
    match openFile fd s with
    | none => (-ebadf, s)
    | some (p, f) =>
      match seekPosition offset whence ((s.kernel.proc p).fds fd).offset
          (s.vfs.nodes (s.kernel.files f).node).size with
      | none => (-einval, s)
      | some position => (toSsize position, setOffset p fd position s)

def closeFd (p fd : ℕ) (s : System δ) : System δ :=
  match ((s.kernel.proc p).fds fd).file with
  | none => s
  | some f => ⟨fdClose p fd s.kernel, vfsClose (s.kernel.files f).node s.vfs⟩

def sysClose (fd : ℕ) (s : System δ) : ℤ × System δ :=
  if s.kernel.sched.current.isNone then (-esrch, s)
  else
    match openFile fd s with
    | none => (-ebadf, s)
    | some (p, _) => (0, closeFd p fd s)

def sysDup (fd : ℕ) (s : System δ) : ℤ × System δ :=
  match s.kernel.sched.current with
  | none => (-esrch, s)
  | some p => ((fdDup p (fd % 2 ^ 32) s.kernel).1, { s with kernel := (fdDup p (fd % 2 ^ 32) s.kernel).2 })

def dup2Replaces (p oldFd newFd : ℕ) (k : Kernel) : Bool :=
  oldFd < maxFds && newFd < maxFds && oldFd ≠ newFd && ((k.proc p).fds oldFd).file.isSome

def sysDup2 (oldFd newFd : ℕ) (s : System δ) : ℤ × System δ :=
  match s.kernel.sched.current with
  | none => (-esrch, s)
  | some p =>
    let oldFd := oldFd % 2 ^ 32
    let newFd := newFd % 2 ^ 32
    let vfs := if dup2Replaces p oldFd newFd s.kernel then (closeFd p newFd s).vfs else s.vfs
    ((fdDup2 p oldFd newFd s.kernel).1, ⟨(fdDup2 p oldFd newFd s.kernel).2, vfs⟩)

inductive FileCall
  | open (path : Option Name) (flags : ℕ) (residue : Name) (nodeMemory fileMemory : Bool)
  | read (fd : ℕ) (buf : Bool) (count : ℕ) (keyboard : ℕ → UInt8)
  | write (fd : ℕ) (buf : Option (List UInt8)) (memory : Bool)
  | lseek (fd offset whence : ℕ)
  | dup (fd : ℕ)
  | dup2 (oldFd newFd : ℕ)
  | close (fd : ℕ)

def System.exec (ops : VfsOps δ) (s : System δ) : FileCall → Option (System δ)
  | .open path flags residue nodeMemory fileMemory =>
    some (sysOpen ops path flags residue nodeMemory fileMemory s).2
  | .read fd buf count keyboard => some (sysRead ops fd buf count keyboard s).2
  | .write fd buf memory => (sysWrite ops fd buf memory s).map Prod.snd
  | .lseek fd offset whence => some (sysLseek fd offset whence s).2
  | .dup fd => some (sysDup fd s).2
  | .dup2 oldFd newFd => some (sysDup2 oldFd newFd s).2
  | .close fd => some (sysClose fd s).2

def FileStep (ops : VfsOps δ) (s : System δ) (c : FileCall) (s' : System δ) : Prop := s.exec ops c = some s'

end AetherOs.Syscall
