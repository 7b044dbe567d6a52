import Mathlib.Data.Nat.Notation
import Mathlib.Data.Int.Notation
import Mathlib.Logic.Function.Basic

/-! # The virtual file system -/

namespace AetherOs.Fs

/-! ## Paths -/

abbrev Name := List UInt8

def slash : UInt8 := 47

def dot : UInt8 := 46

def ascii (s : String) : Name := s.toList.map fun c => UInt8.ofNat c.toNat

def vfsNameMax : ℕ := 255

def pathBuffer : ℕ := vfsNameMax * 16

def maxParts : ℕ := 64

def tokens (path : Name) : List Name := (path.splitOn slash).filter fun part => !part.isEmpty

def pushPart (parts : List Name) (part : Name) : List Name :=
  if part = [dot] then parts
  else if part = [dot, dot] then parts.dropLast
  else if parts.length < maxParts then parts ++ [part]
  else parts

def appendPart (outLen : ℕ) (out : Name) (part : Name × ℕ) : Name :=
  if out.length < outLen - 1 then
    let out := if 0 < part.2 then out ++ [slash] else out
    if out.length + part.1.length < outLen - 1 then out ++ part.1 else out
  else out

def vfsCanonicalize (path : Name) (outLen : ℕ) : Name :=
  let parts := (tokens (path.take (pathBuffer - 1))).foldl pushPart []
  if outLen < 2 then [] else parts.zipIdx.foldl (appendPart outLen) [slash]

def components (path : Name) : List Name :=
  let abs := if path.head? = some slash then path else slash :: path.take (pathBuffer - 2)
  tokens ((vfsCanonicalize abs pathBuffer).drop 1)

def dirPath (path : Name) : Name := ((path.reverse.dropWhile fun c => c ≠ slash).drop 1).reverse

def lastPart (path : Name) : Name := (path.reverse.takeWhile fun c => c ≠ slash).reverse

def bufferName (residue path : Name) : Name :=
  if (lastPart path).length < vfsNameMax then lastPart path else (lastPart path).take vfsNameMax ++ residue

/-! ## The virtual file system -/

section

variable {δ : Type}

def vfsFile : ℕ := 0x01

def vfsDirectory : ℕ := 0x02

def oRdonly : ℕ := 0x0000

def oWronly : ℕ := 0x0001

def oRdwr : ℕ := 0x0002

def oCreat : ℕ := 0x0040

def oTrunc : ℕ := 0x0200

def createMode : ℕ := 0o644

structure VfsNode where
  name : Name
  flags : ℕ
  mode : ℕ
  uid : ℕ
  gid : ℕ
  size : ℕ
  inode : ℕ
  refcount : ℕ
  mount : Option ℕ
  deriving DecidableEq

def VfsNode.isDirectory (n : VfsNode) : Bool := n.flags &&& vfsDirectory ≠ 0

structure Vfs (δ : Type) where
  root : Option ℕ
  nodes : ℕ → VfsNode
  next : ℕ
  fs : δ

def Vfs.setNode (node : ℕ) (n : VfsNode) (s : Vfs δ) : Vfs δ :=
  { s with nodes := Function.update s.nodes node n }

structure VfsOps (δ : Type) where
  read : ℕ → ℕ → ℕ → Vfs δ → ℤ × List UInt8
  write : Bool → ℕ → ℕ → List UInt8 → Vfs δ → Option (ℤ × Vfs δ)
  finddir : ℕ → Name → Vfs δ → Option ℕ × Vfs δ
  mkdir : Bool → ℕ → Name → ℕ → Vfs δ → ℤ × Vfs δ
  create : Bool → ℕ → Name → ℕ → Vfs δ → ℤ × Vfs δ
  unlink : ℕ → Name → Vfs δ → ℤ × Vfs δ

def Vfs.entered (node : ℕ) (s : Vfs δ) : ℕ := (s.nodes node).mount.getD node

variable (ops : VfsOps δ)

def vfsFinddir (node : ℕ) (name : Name) (s : Vfs δ) : Option ℕ × Vfs δ :=
  if (s.nodes (s.entered node)).isDirectory then ops.finddir (s.entered node) name s else (none, s)

def walk (ops : VfsOps δ) : ℕ → List Name → Vfs δ → Option ℕ × Vfs δ
  | node, [], s => (some node, s)
  | node, token :: rest, s =>
    if (s.nodes node).isDirectory then
      match vfsFinddir ops node token s with
      | (none, t) => (none, t)
      | (some child, t) => walk ops child rest t
    else (none, s)

def vfsResolvePath (path : Name) (s : Vfs δ) : Option ℕ × Vfs δ :=
  match s.root with
  | none => (none, s)
  | some root => walk ops root (components path) s

def parentOf (path : Name) (s : Vfs δ) : Option ℕ × Vfs δ :=
  if dirPath path = [] then (s.root, s) else vfsResolvePath ops (dirPath path) s

def openNode (flags node : ℕ) (s : Vfs δ) : Vfs δ :=
  let n := s.nodes node
  let size := if flags &&& oTrunc ≠ 0 ∧ n.isDirectory = false then 0 else n.size
  s.setNode node { n with size := size, refcount := n.refcount + 1 }

def createIn (memory : Bool) (parent : ℕ) (name : Name) (s : Vfs δ) : Option ℕ × Vfs δ :=
  if (s.nodes parent).isDirectory then
    match ops.create memory parent name createMode s with
    | (r, t) => if r = 0 then vfsFinddir ops parent name t else (none, t)
  else (none, s)

def openTarget (memory : Bool) (residue path : Name) (flags : ℕ) (s : Vfs δ) :
    Option ℕ × Vfs δ :=
  match vfsResolvePath ops path s with
  | (some node, t) => (some node, t)
  | (none, t) =>
    if flags &&& oCreat = 0 then (none, t)
    else
      match parentOf ops path t with
      | (none, t) => (none, t)
      | (some parent, t) => createIn ops memory parent (bufferName residue path) t

def vfsOpen (memory : Bool) (residue path : Name) (flags : ℕ) (s : Vfs δ) :
    Option ℕ × Vfs δ :=
  match openTarget ops memory residue path flags s with
  | (none, t) => (none, t)
  | (some node, t) => (some node, openNode flags node t)

def vfsClose (node : ℕ) (s : Vfs δ) : Vfs δ :=
  s.setNode node { s.nodes node with refcount := (s.nodes node).refcount - 1 }

end

end AetherOs.Fs
