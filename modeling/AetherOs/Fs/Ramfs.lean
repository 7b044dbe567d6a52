import AetherOs.Fs.Vfs
import AetherOs.Types

/-! # The RAM file system -/

namespace AetherOs.Fs

open Function

section

def enomem : ℤ := 12

def enospc : ℤ := 28

def enoent : ℤ := 2

def ramfsMaxChildren : ℕ := 64

def ramfsMinCapacity : ℕ := 64

structure Ramfs where
  data : ℕ → List UInt8
  children : ℕ → List ℕ

def toSsize (n : ℕ) : ℤ := if n < 2 ^ 63 then n else n - wordSize

def ramfsRead (node offset size : ℕ) (s : Vfs Ramfs) : ℤ × List UInt8 :=
  if s.fs.data node = [] then (0, [])
  else if (s.nodes node).size ≤ offset then (0, [])
  else
    let toRead := min size ((s.nodes node).size - offset)
    (toSsize toRead, ((s.fs.data node).drop offset).take toRead)

def grownCapacity (newEnd capacity : ℕ) : ℕ :=
  max (max newEnd (capacity * 2 % wordSize)) ramfsMinCapacity

def overwrite (data : List UInt8) (offset : ℕ) (buf : List UInt8) : List UInt8 :=
  data.take offset ++ buf ++ data.drop (offset + buf.length)

def grownData (newEnd : ℕ) (data : List UInt8) : List UInt8 :=
  if data.length < newEnd then data ++ List.replicate (grownCapacity newEnd data.length - data.length) 0
  else data

def storeAt (node offset : ℕ) (buf : List UInt8) (s : Vfs Ramfs) : Vfs Ramfs :=
  let newEnd := addWord offset buf.length
  let n := s.nodes node
  { s.setNode node { n with size := max n.size newEnd } with
    fs := { s.fs with
      data := update s.fs.data node (overwrite (grownData newEnd (s.fs.data node)) offset buf) } }

def ramfsWrite (memory : Bool) (node offset : ℕ) (buf : List UInt8) (s : Vfs Ramfs) : Option (ℤ × Vfs Ramfs) :=
  let newEnd := addWord offset buf.length
  if (s.fs.data node).length < newEnd ∧ memory = false then some (-enomem, s)
  else if offset + buf.length ≤ (grownData newEnd (s.fs.data node)).length then
    some (toSsize buf.length, storeAt node offset buf s)
  else none

def ramfsFinddir (node : ℕ) (name : Name) (s : Vfs Ramfs) : Option ℕ :=
  (s.fs.children node).find? fun child => (s.nodes child).name = name

def newChild (flags inode : ℕ) (name : Name) (mode : ℕ) : VfsNode where
  name := name.take vfsNameMax
  flags := flags
  mode := mode
  uid := 0
  gid := 0
  size := 0
  inode := inode
  refcount := 0
  mount := none

def ramfsInsert (flags parent : ℕ) (name : Name) (mode : ℕ) (s : Vfs Ramfs) : Vfs Ramfs where
  root := s.root
  nodes := update s.nodes s.next (newChild flags s.next name mode)
  next := s.next + 1
  fs := {
    data := update s.fs.data s.next []
    children := update (update s.fs.children s.next []) parent
      (s.fs.children parent ++ [s.next]) }

def ramfsAdd (flags : ℕ) (memory : Bool) (parent : ℕ) (name : Name) (mode : ℕ) (s : Vfs Ramfs) : ℤ × Vfs Ramfs :=
  if (ramfsFinddir parent name s).isSome then (0, s)
  else if ramfsMaxChildren ≤ (s.fs.children parent).length then (-enospc, s)
  else if memory then (0, ramfsInsert flags parent name mode s)
  else (-enomem, s)

def ramfsMkdir : Bool → ℕ → Name → ℕ → Vfs Ramfs → ℤ × Vfs Ramfs := ramfsAdd vfsDirectory

def ramfsCreate : Bool → ℕ → Name → ℕ → Vfs Ramfs → ℤ × Vfs Ramfs := ramfsAdd vfsFile

def ramfsUnlink (parent : ℕ) (name : Name) (s : Vfs Ramfs) : ℤ × Vfs Ramfs :=
  match ramfsFinddir parent name s with
  | none => (-enoent, s)
  | some _ =>
    (0, { s with fs := { s.fs with
      children := update s.fs.children parent
        ((s.fs.children parent).eraseP fun child => (s.nodes child).name = name) } })

def ramfsOps : VfsOps Ramfs where
  read := ramfsRead
  write := ramfsWrite
  finddir := fun node name s => (ramfsFinddir node name s, s)
  mkdir := ramfsMkdir
  create := ramfsCreate
  unlink := ramfsUnlink

variable {s : Vfs Ramfs} {node : ℕ} {name path : Name}

theorem vfsFinddir_ramfsOps : (vfsFinddir ramfsOps node name s).2 = s := by
  rw [vfsFinddir]
  split <;> rfl

theorem walk_ramfsOps {names : List Name} : (walk ramfsOps node names s).2 = s := by
  induction names generalizing node with
  | nil => rfl
  | cons token rest ih =>
    rw [walk]
    split
    · have hsame : (vfsFinddir ramfsOps node token s).2 = s := vfsFinddir_ramfsOps
      split
      · rename_i t hfind
        rw [hfind] at hsame
        exact hsame
      · rename_i child t hfind
        rw [hfind] at hsame
        obtain rfl : t = s := hsame
        exact ih
    · rfl

theorem vfsResolvePath_ramfsOps : (vfsResolvePath ramfsOps path s).2 = s := by
  rw [vfsResolvePath]
  split
  · rfl
  · exact walk_ramfsOps

theorem parentOf_ramfsOps : (parentOf ramfsOps path s).2 = s := by
  rw [parentOf]
  split
  · rfl
  · exact vfsResolvePath_ramfsOps

end

/-! ## Creating and removing names -/

section

variable {δ : Type}

def mkdirMode : ℕ := 0o755

def inParent (ops : VfsOps δ) (residue path : Name) (op : ℕ → Name → Vfs δ → ℤ × Vfs δ) (s : Vfs δ) : ℤ × Vfs δ :=
  match parentOf ops path s with
  | (none, t) => (-enoent, t)
  | (some parent, t) => op parent (bufferName residue path) t

def vfsMkdir (ops : VfsOps δ) (memory : Bool) (residue path : Name) : Vfs δ → ℤ × Vfs δ :=
  inParent ops residue path fun parent name => ops.mkdir memory parent name mkdirMode

def vfsCreate (ops : VfsOps δ) (memory : Bool) (residue path : Name) (mode : ℕ) : Vfs δ → ℤ × Vfs δ :=
  inParent ops residue path fun parent name => ops.create memory parent name mode

def vfsUnlink (ops : VfsOps δ) (residue path : Name) : Vfs δ → ℤ × Vfs δ := inParent ops residue path ops.unlink

end

end AetherOs.Fs
