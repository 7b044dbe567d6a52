import AetherOs.Base.Bytes
import AetherOs.Base.Loop
import AetherOs.Types
import AetherOs.Fs.Vfs
import Mathlib.Data.List.DropRight

/-! # The FAT32 driver -/

namespace AetherOs.Fat32

/-! ## The FAT and the clusters of a FAT32 volume -/

section

open Base

def sectorSize : ℕ := 512

def fatFree : ℕ := 0x00000000

def fatEocMin : ℕ := 0x0FFFFFF8

def fatEoc : ℕ := 0x0FFFFFFF

def fatMask : ℕ := 0x0FFFFFFF

structure Fat32Fs where
  valid : Bool
  fatLba : ℕ
  dataLba : ℕ
  rootCluster : ℕ
  sectorsPerCluster : ℕ
  bytesPerCluster : ℕ
  totalClusters : ℕ
  freeClusters : ℕ
  nextFreeHint : ℕ
  sectorBuf : ℕ → UInt8
  sectorBufLba : ℕ
  sectorBufDirty : Bool
  disk : ℕ → ℕ → UInt8

def fat32ReadSector (lba : ℕ) (fs : Fat32Fs) : ℕ → UInt8 := fs.disk lba

def fat32WriteSector (lba : ℕ) (buf : ℕ → UInt8) (fs : Fat32Fs) : Fat32Fs :=
  { fs with disk := Function.update fs.disk lba buf }

def flushSector (fs : Fat32Fs) : Fat32Fs :=
  if fs.sectorBufDirty then { fat32WriteSector fs.sectorBufLba fs.sectorBuf fs with sectorBufDirty := false }
  else fs

def fat32LoadSector (lba : ℕ) (fs : Fat32Fs) : Fat32Fs :=
  if fs.sectorBufLba = lba then fs
  else { flushSector fs with sectorBuf := fat32ReadSector lba (flushSector fs), sectorBufLba := lba }

def fat32FatLba (cluster : ℕ) (fs : Fat32Fs) : ℕ := (fs.fatLba + cluster * 4 % uintSize / sectorSize) % uintSize

def fat32FatOffset (cluster : ℕ) : ℕ := cluster * 4 % uintSize % sectorSize

def fat32NextCluster (cluster : ℕ) (fs : Fat32Fs) : ℕ × Fat32Fs :=
  let fs := fat32LoadSector (fat32FatLba cluster fs) fs
  (leNat fs.sectorBuf 4 (fat32FatOffset cluster) &&& fatMask, fs)

def fat32SetFat (cluster val : ℕ) (fs : Fat32Fs) : Fat32Fs :=
  let fs := fat32LoadSector (fat32FatLba cluster fs) fs
  { fs with
    sectorBuf := putLE 4 (fat32FatOffset cluster) (val &&& fatMask) fs.sectorBuf
    sectorBufDirty := true }

def clusterToLba (cluster : ℕ) (fs : Fat32Fs) : ℕ :=
  (fs.dataLba + (cluster + uintSize - 2) % uintSize * fs.sectorsPerCluster) % uintSize

def fat32ReadCluster (cluster : ℕ) (fs : Fat32Fs) : Option (ℕ → UInt8) :=
  if cluster < 2 ∨ fatEocMin ≤ cluster then none
  else some fun j => fat32ReadSector ((clusterToLba cluster fs + j / sectorSize) % uintSize) fs (j % sectorSize)

def fat32WriteCluster (cluster : ℕ) (buf : ℕ → UInt8) (fs : Fat32Fs) : Option Fat32Fs :=
  if cluster < 2 ∨ fatEocMin ≤ cluster then none
  else some ((List.range fs.sectorsPerCluster).foldl (fun t i =>
    fat32WriteSector ((clusterToLba cluster fs + i) % uintSize) (fun o => buf (i * sectorSize + o)) t) fs)

def scanFree : ℕ → ℕ → Fat32Fs → Option ℕ × Fat32Fs
  | 0, _, fs => (none, fs)
  | steps + 1, c, fs =>
    match fat32NextCluster c fs with
    | (val, fs) => if val = fatFree then (some c, fs) else scanFree steps (c + 1) fs

def takeCluster (prev c : ℕ) (fs : Fat32Fs) : Fat32Fs :=
  let fs := fat32SetFat c fatEoc fs
  let fs := if prev ≠ 0 then fat32SetFat prev c fs else fs
  { fs with nextFreeHint := (c + 1) % uintSize, freeClusters := fs.freeClusters - 1 }

def zeroCluster (c : ℕ) (fs : Fat32Fs) : Fat32Fs := (fat32WriteCluster c (fun _ => 0) fs).getD fs

def fat32AllocCluster (prev : ℕ) (fs : Fat32Fs) : ℕ × Fat32Fs :=
  let start := if 2 < fs.nextFreeHint then fs.nextFreeHint else 2
  let limit := (fs.totalClusters + 2) % uintSize
  match scanFree (limit - start) start fs with
  | (some c, fs) => (c, zeroCluster c (takeCluster prev c fs))
  | (none, fs) =>
    match scanFree (start - 2) 2 fs with
    | (some c, fs) => (c, takeCluster prev c fs)
    | (none, fs) => (0, fs)

def freeStep : ℕ × Fat32Fs → Fat32Fs ⊕ ℕ × Fat32Fs
  | (c, fs) =>
    if 2 ≤ c ∧ c < fatEocMin then
      let next := fat32NextCluster c fs
      let fs := fat32SetFat c fatFree next.2
      .inr (next.1, { fs with freeClusters := (fs.freeClusters + 1) % uintSize })
    else .inl fs

def fat32FreeChain (fuel start : ℕ) (fs : Fat32Fs) : Option Fat32Fs := loop freeStep fuel (start, fs)

def fat32Sync (fs : Fat32Fs) : Fat32Fs := if fs.valid then flushSector fs else fs

end

/-! ## Directories of a FAT32 volume -/

section

open Base Fs

def enoent : ℤ := 2

def eio : ℤ := 5

def enospc : ℤ := 28

def attrSystem : ℕ := 0x04

def attrVolumeId : ℕ := 0x08

def attrDir : ℕ := 0x10

def attrArchive : ℕ := 0x20

def attrLfn : ℕ := 0x0F

def direntSize : ℕ := 32

def space : UInt8 := 0x20

def deletedMark : UInt8 := 0xE5

def direntAt (buf : ℕ → UInt8) (i : ℕ) : ℕ → UInt8 := fun k => buf (i * direntSize + k)

variable (de : ℕ → UInt8)

def direntAttr : ℕ := (de 11).toNat

def direntCluster : ℕ := leNat de 2 20 <<< 16 ||| leNat de 2 26

def direntFileSize : ℕ := leNat de 4 28

def direntVisible : Bool :=
  de 0 ≠ deletedMark && direntAttr de ≠ attrLfn && direntAttr de &&& (attrSystem ||| attrVolumeId) = 0

def trimmed (n off : ℕ) (de : ℕ → UInt8) : Name :=
  ((List.range n).map fun i => de (off + i)).rdropWhile fun c => c = space

def fat3283ToStr : Name :=
  let ext := trimmed 3 8 de
  (trimmed 8 0 de ++ if ext = [] then [] else dot :: ext).takeWhile fun c => c ≠ 0

def upper (c : UInt8) : UInt8 := if 97 ≤ c ∧ c ≤ 122 then c - 32 else c

def fat32StrTo83 (name : Name) : ℕ → UInt8 :=
  let ext := (name.reverse.takeWhile fun c => c ≠ dot).reverse
  let base := if dot ∈ name then ((name.reverse.dropWhile fun c => c ≠ dot).drop 1).reverse else name
  let ext := if dot ∈ name then ext else []
  fun k => if k < 8 then ((base.map upper)[k]?).getD space else ((ext.map upper)[k - 8]?).getD space

def newDirent (name : ℕ → UInt8) (attr cluster : ℕ) : ℕ → UInt8 := fun k =>
  if k < 11 then name k
  else if k = 11 then UInt8.ofNat attr
  else putLE 2 20 (cluster >>> 16) (putLE 2 26 (cluster &&& 0xFFFF) fun _ => 0) k

def dotName (dots : ℕ) : ℕ → UInt8 := fun k => if k < dots then dot else space

structure Entry where
  name : Name
  firstCluster : ℕ
  size : ℕ
  attr : ℕ

inductive Slot
  | finish
  | skipped
  | entry (e : Entry)

def followChain (stop : ℕ → Bool) : ℕ → ℕ → Fat32Fs → Option ℕ × Fat32Fs
  | 0, c, fs => (some c, fs)
  | n + 1, c, fs =>
    match fat32NextCluster c fs with
    | (next, fs) => if stop next then (none, fs) else followChain stop n next fs

def isEoc (c : ℕ) : Bool := fatEocMin ≤ c

def isEnd (c : ℕ) : Bool := fatEocMin ≤ c || c < 2

def entriesPerCluster (fs : Fat32Fs) : ℕ := fs.bytesPerCluster / direntSize

def parseDirent : Slot :=
  if de 0 = 0 then .finish
  else if direntVisible de = false then .skipped
  else .entry ⟨fat3283ToStr de, direntCluster de, direntFileSize de, direntAttr de⟩

def fat32ReadDirEntry (dirCluster entryIdx : ℕ) (fs : Fat32Fs) : Slot × Fat32Fs :=
  match followChain isEoc (entryIdx / entriesPerCluster fs) dirCluster fs with
  | (none, fs) => (.finish, fs)
  | (some c, fs) =>
    match fat32ReadCluster c fs with
    | none => (.finish, fs)
    | some buf => (parseDirent (direntAt buf (entryIdx % entriesPerCluster fs)), fs)

def fat32WriteDirentAt (dirCluster entryIdx : ℕ) (de : ℕ → UInt8) (fs : Fat32Fs) : ℤ × Fat32Fs :=
  let off := entryIdx % entriesPerCluster fs
  match followChain isEnd (entryIdx / entriesPerCluster fs) dirCluster fs with
  | (none, fs) => (-enospc, fs)
  | (some c, fs) =>
    match fat32ReadCluster c fs with
    | none => (-eio, fs)
    | some buf =>
      match fat32WriteCluster c (splice buf (off * direntSize) direntSize de) fs with
      | none => (-eio, fs)
      | some fs => (0, fs)

structure DirScan where
  cluster : ℕ
  number : ℕ
  prev : ℕ
  fs : Fat32Fs

def isFreeMark (c : UInt8) : Bool := c = 0 || c = deletedMark

def toIndex (n : ℕ) : ℤ := if n % uintSize < 2 ^ 31 then (n % uintSize : ℕ) else (n % uintSize : ℕ) - (uintSize : ℤ)

def freeDirentStep (s : DirScan) : ℤ × Fat32Fs ⊕ DirScan :=
  if 2 ≤ s.cluster ∧ s.cluster < fatEocMin then
    match fat32ReadCluster s.cluster s.fs with
    | none => .inl (-eio, s.fs)
    | some buf =>
      match search isFreeMark (fun i => direntAt buf i 0) (entriesPerCluster s.fs) 0 with
      | some i => .inl (toIndex (s.number * entriesPerCluster s.fs + i), s.fs)
      | none =>
        let next := fat32NextCluster s.cluster s.fs
        .inr ⟨next.1, s.number + 1, s.cluster, next.2⟩
  else
    -- No entry is free: the directory grows by a cluster.
    match fat32AllocCluster s.prev s.fs with
    | (new, fs) =>
      .inl (if new < 2 then -enospc else toIndex (s.number * entriesPerCluster s.fs), fs)

def fat32FindFreeDirent (fuel dirCluster : ℕ) (fs : Fat32Fs) : Option (ℤ × Fat32Fs) :=
  loop freeDirentStep fuel ⟨dirCluster, 0, 0, fs⟩

end

/-! ## The FAT32 driver -/

section

open Base Fs

def eisdir : ℤ := 21

def noDirent : ℕ := uintSize - 1

structure Fat32Node where
  size : ℕ
  inode : ℕ
  directory : Bool
  dirCluster : ℕ
  direntIdx : ℕ
  deriving DecidableEq

def rootNode (fs : Fat32Fs) : Fat32Node := ⟨0, 0, true, fs.rootCluster, noDirent⟩

def fat32MakeNode (e : Entry) (dirCluster direntIdx : ℕ) : Fat32Node where
  size := e.size
  inode := e.firstCluster
  directory := e.attr &&& attrDir ≠ 0
  dirCluster := dirCluster
  direntIdx := direntIdx

def nodeCluster (node : Fat32Node) (fs : Fat32Fs) : ℕ := if 2 ≤ node.inode then node.inode else fs.rootCluster

def finddirStep (dirCluster : ℕ) (name : Name) : ℕ × Fat32Fs → Option Fat32Node × Fat32Fs ⊕ ℕ × Fat32Fs
  | (i, fs) =>
    match fat32ReadDirEntry dirCluster i fs with
    | (.finish, fs) => .inl (none, fs)
    | (.skipped, fs) => .inr ((i + 1) % uintSize, fs)
    | (.entry e, fs) =>
      if e.name.take vfsNameMax = name.take vfsNameMax then .inl (some (fat32MakeNode e dirCluster i), fs)
      else .inr ((i + 1) % uintSize, fs)

def fat32VfsFinddir (fuel : ℕ) (parent : Fat32Node) (name : Name) (fs : Fat32Fs) :
    Option (Option Fat32Node × Fat32Fs) :=
  if fs.valid then loop (finddirStep (nodeCluster parent fs) name) fuel (0, fs) else some (none, fs)

def seekChain : ℕ → ℕ → Fat32Fs → ℕ × Fat32Fs
  | 0, c, fs => (c, fs)
  | n + 1, c, fs => if c < fatEocMin then seekChain n (fat32NextCluster c fs).1 (fat32NextCluster c fs).2 else (c, fs)

def readLoop : ℕ → ℕ → ℕ → ℕ → Fat32Fs → Option (List UInt8) × Fat32Fs
  | 0, _, _, _, fs => (some [], fs)
  | fuel + 1, c, byteOff, len, fs =>
    if 0 < len ∧ 2 ≤ c ∧ c < fatEocMin then
      match fat32ReadCluster c fs with
      | none => (none, fs)
      | some buf =>
        let copy := min (fs.bytesPerCluster - byteOff) len
        let next := fat32NextCluster c fs
        match readLoop fuel next.1 0 (len - copy) next.2 with
        | (none, fs) => (none, fs)
        | (some rest, fs) => (some ((List.range copy).map (fun j => buf (byteOff + j)) ++ rest), fs)
    else (some [], fs)

def fat32VfsRead (node : Fat32Node) (offset len : ℕ) (fs : Fat32Fs) : (ℤ × List UInt8) × Fat32Fs :=
  if fs.valid = false then ((-eio, []), fs)
  else if node.directory then ((-eisdir, []), fs)
  else
    let fileSize := node.size % uintSize
    if fileSize ≤ offset then ((0, []), fs)
    else
      let len := if fileSize < addWord offset len then fileSize - offset else len
      if len = 0 then ((0, []), fs)
      else
        let start := seekChain (offset / fs.bytesPerCluster % uintSize) node.inode fs
        -- The loop compares signed numbers and is not entered for a length with the top bit set.
        let len := if len < 2 ^ 63 then len else 0
        match readLoop len start.1 (offset % fs.bytesPerCluster) len start.2 with
        | (none, fs) => ((-eio, []), fs)
        | (some bytes, fs) => ((bytes.length, bytes), fs)

def nextOrAlloc (c : ℕ) (fs : Fat32Fs) : Option ℕ × Fat32Fs :=
  match fat32NextCluster c fs with
  | (next, fs) =>
    if isEnd next then
      match fat32AllocCluster c fs with
      | (new, fs) => (if new < 2 then none else some new, fs)
    else (some next, fs)

def extendTo : ℕ → ℕ → Fat32Fs → Option ℕ × Fat32Fs
  | 0, c, fs => (some c, fs)
  | n + 1, c, fs =>
    match nextOrAlloc c fs with
    | (none, fs) => (none, fs)
    | (some next, fs) => extendTo n next fs

def writeLoop : ℕ → ℕ → ℕ → List UInt8 → Fat32Fs → Except ℤ ℕ × Fat32Fs
  | 0, _, _, _, fs => (.ok 0, fs)
  | fuel + 1, c, byteOff, src, fs =>
    let copy := min (fs.bytesPerCluster - byteOff) src.length
    let buf := if byteOff ≠ 0 ∨ copy < fs.bytesPerCluster then fat32ReadCluster c fs else some fun _ => 0
    match buf with
    | none => (.error (-eio), fs)
    | some buf =>
      match fat32WriteCluster c (splice buf byteOff copy fun j => src.getD j 0) fs with
      | none => (.error (-eio), fs)
      | some fs =>
        if src.length ≤ copy then (.ok copy, fs)
        else
          match nextOrAlloc c fs with
          | (none, fs) => (.ok copy, fs)
          | (some next, fs) =>
            match writeLoop fuel next 0 (src.drop copy) fs with
            | (.error e, fs) => (.error e, fs)
            | (.ok done, fs) => (.ok (copy + done), fs)

def updateDirent (size cluster : ℕ) (de : ℕ → UInt8) : ℕ → UInt8 :=
  putLE 2 26 (cluster &&& 0xFFFF) (putLE 2 20 (cluster >>> 16) (putLE 4 28 size de))

def writeBack (node : Fat32Node) (fs : Fat32Fs) : Fat32Fs :=
  if node.dirCluster ≠ 0 ∧ node.direntIdx ≠ noDirent then
    let off := node.direntIdx % entriesPerCluster fs
    match followChain isEnd (node.direntIdx / entriesPerCluster fs) node.dirCluster fs with
    | (none, fs) => fs
    | (some dc, fs) =>
      match fat32ReadCluster dc fs with
      | none => fs
      | some buf =>
        (fat32WriteCluster dc (splice buf (off * direntSize) direntSize
          (updateDirent (node.size % uintSize) node.inode (direntAt buf off))) fs).getD fs
  else fs

def firstCluster (node : Fat32Node) (fs : Fat32Fs) : Option ℕ × Fat32Fs :=
  if node.inode < 2 then
    match fat32AllocCluster 0 fs with
    | (new, fs) => (if new < 2 then none else some new, fs)
  else (some node.inode, fs)

def fat32VfsWrite (node : Fat32Node) (offset : ℕ) (buf : List UInt8) (fs : Fat32Fs) :
    (ℤ × Fat32Node) × Fat32Fs :=
  if fs.valid = false then ((-eio, node), fs)
  else if buf = [] then ((0, node), fs)
  else if node.directory then ((-eisdir, node), fs)
  else
    match firstCluster node fs with
    | (none, fs) => ((-enospc, node), fs)
    | (some c, fs) =>
      let node := { node with inode := c }
      match extendTo (offset / fs.bytesPerCluster % uintSize) c fs with
      | (none, fs) => ((-enospc, node), fs)
      | (some c, fs) =>
        match writeLoop buf.length c (offset % fs.bytesPerCluster) buf fs with
        | (.error e, fs) => ((e, node), fs)
        | (.ok done, fs) =>
          let endByte := addWord offset buf.length
          let node := { node with size := if node.size < endByte then endByte % uintSize else node.size }
          ((done, node), fat32Sync (writeBack node fs))

def fat32VfsCreate (fuel : ℕ) (parent : Fat32Node) (name : Name) (fs : Fat32Fs) : Option (ℤ × Fat32Fs) := do
  let dirCluster := nodeCluster parent fs
  let (idx, fs) ← fat32FindFreeDirent fuel dirCluster fs
  if idx < 0 then some (idx, fs)
  else
    let (r, fs) := fat32WriteDirentAt dirCluster idx.toNat (newDirent (fat32StrTo83 name) attrArchive 0) fs
    some (r, if r = 0 then fat32Sync fs else fs)

def dotCluster (new parent : ℕ) : ℕ → UInt8 :=
  splice (splice (fun _ => 0) 0 direntSize (newDirent (dotName 1) attrDir new)) direntSize direntSize
    (newDirent (dotName 2) attrDir parent)

def fat32VfsMkdirOp (fuel : ℕ) (parent : Fat32Node) (name : Name) (fs : Fat32Fs) : Option (ℤ × Fat32Fs) := do
  let parentCluster := nodeCluster parent fs
  let (new, fs) := fat32AllocCluster 0 fs
  if new < 2 then some (-enospc, fs)
  else
    let fs := (fat32WriteCluster new (dotCluster new parentCluster) fs).getD fs
    let (idx, fs) ← fat32FindFreeDirent fuel parentCluster fs
    if idx < 0 then
      let fs ← fat32FreeChain fuel new fs
      some (idx, fs)
    else
      let (r, fs) := fat32WriteDirentAt parentCluster idx.toNat (newDirent (fat32StrTo83 name) attrDir new) fs
      if r ≠ 0 then
        let fs ← fat32FreeChain fuel new fs
        some (r, fs)
      else some (0, fat32Sync fs)

def unlinkStops (name : Name) (de : ℕ → UInt8) : Bool := de 0 = 0 || direntVisible de && fat3283ToStr de = name

def removeEntry (fuel c i : ℕ) (buf : ℕ → UInt8) (fs : Fat32Fs) : Option (ℤ × Fat32Fs) := do
  let fc := direntCluster (direntAt buf i)
  let fs ← if 2 ≤ fc then fat32FreeChain fuel fc fs else some fs
  let fs := (fat32WriteCluster c (splice buf (i * direntSize) 1 fun _ => deletedMark) fs).getD fs
  some (0, fat32Sync fs)

def unlinkStep (fuel : ℕ) (name : Name) : ℕ × Fat32Fs → Option (ℤ × Fat32Fs) ⊕ ℕ × Fat32Fs
  | (c, fs) =>
    if 2 ≤ c ∧ c < fatEocMin then
      match fat32ReadCluster c fs with
      | none => .inl (some (-eio, fs))
      | some buf =>
        match search (unlinkStops name) (direntAt buf) (entriesPerCluster fs) 0 with
        | none => .inr (fat32NextCluster c fs)
        | some i => .inl (if direntAt buf i 0 = 0 then some (-enoent, fs) else removeEntry fuel c i buf fs)
    else .inl (some (-enoent, fs))

def fat32VfsUnlink (fuel : ℕ) (parent : Fat32Node) (name : Name) (fs : Fat32Fs) : Option (ℤ × Fat32Fs) :=
  (loop (unlinkStep fuel name) fuel (nodeCluster parent fs, fs)).join

def findPath (fuel : ℕ) : List Name → Fat32Node → Fat32Fs → Option (Option Fat32Node × Fat32Fs)
  | [], node, fs => some (some node, fs)
  | name :: path, node, fs =>
    if node.directory then
      match fat32VfsFinddir fuel node name fs with
      | none => none
      | some (none, fs) => some (none, fs)
      | some (some child, fs) => findPath fuel path child fs
    else some (none, fs)

end

end AetherOs.Fat32
