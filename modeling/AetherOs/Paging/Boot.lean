import AetherOs.Base.Bytes
import AetherOs.Base.Loop
import AetherOs.Paging.Vmm

/-! # The frame allocator at boot -/

namespace AetherOs.Paging

open Base

structure PmmState where
  pmm : Pmm
  totalFrameCount : ℕ

def markFrameUsed (m : Pmm) (f : ℕ) : Pmm :=
  if pmmTestBit m f then m else { pmmSetBit f m with usedFrameCount := addWord m.usedFrameCount 1 }

def markFrameFree (m : Pmm) (f : ℕ) : Pmm :=
  if pmmTestBit m f then { pmmClearBit f m with usedFrameCount := subWord m.usedFrameCount 1 } else m

def pmmMarkUsed (addr size : ℕ) (m : Pmm) : Pmm :=
  let frameStart := addr / pageSize
  let frameEnd := alignUp (addWord addr size) pageSize / pageSize
  (List.range' frameStart (min frameEnd maxFrames - frameStart)).foldl markFrameUsed m

def pmmMarkFree (addr size : ℕ) (m : Pmm) : Pmm :=
  let frameStart := alignUp addr pageSize / pageSize
  let frameEnd := addWord addr size / pageSize
  (List.range' frameStart (min frameEnd maxFrames - frameStart)).foldl markFrameFree m

variable (info : ℕ → UInt8)

def tagType (tag : ℕ) : ℕ := leNat info 4 tag
def tagSize (tag : ℕ) : ℕ := leNat info 4 (tag + 4)

def findTagStep (type tag : ℕ) : Option ℕ ⊕ ℕ :=
  if tagType info tag = 0 then .inl none
  else if tagType info tag = type then .inl (some tag)
  else .inr (tag + (tagSize info tag + 7) % uintSize / 8 * 8)

def multibootFindTag (type fuel : ℕ) : Option (Option ℕ) := loop (findTagStep info type) fuel 8

structure MmapEntry where
  baseAddr : ℕ
  length : ℕ
  type : ℕ

def entrySize (tag : ℕ) : ℕ := leNat info 4 (tag + 8)

def mmapEntryAt (off : ℕ) : MmapEntry := ⟨leNat info 8 off, leNat info 8 (off + 8), leNat info 4 (off + 16)⟩

def MmapEntry.available (e : MmapEntry) : Bool := e.type = 1

def addEntry (e : MmapEntry) (st : PmmState) : PmmState :=
  if e.available then
    ⟨pmmMarkFree e.baseAddr e.length st.pmm, addWord st.totalFrameCount (alignDown e.length pageSize / pageSize)⟩
  else st

def mmapStep (tag : ℕ) (x : ℕ × PmmState) : PmmState ⊕ ℕ × PmmState :=
  if x.1 < tag + tagSize info tag then .inr (x.1 + entrySize info tag, addEntry (mmapEntryAt info x.1) x.2) else .inl x.2

def PmmState.start : PmmState := ⟨⟨fun _ => 0xFF, fun _ => 0, maxFrames⟩, 0⟩

def markKernel (kernelPhysEnd bitmapAddr : ℕ) (m : Pmm) : Pmm :=
  let m := pmmMarkUsed 0 0x100000 m
  let m := pmmMarkUsed 0x100000 (subWord kernelPhysEnd 0x100000) m
  pmmMarkUsed (subWord bitmapAddr kernelVmaBase) (maxFrames / 8) m

def pmmInit (kernelPhysEnd bitmapAddr : ℕ) (info : ℕ → UInt8) (fuel : ℕ) : Option PmmState :=
  match multibootFindTag info 6 fuel with
  | some (some tag) =>
    (loop (mmapStep info tag) fuel (tag + 16, .start)).map fun st =>
      { st with pmm := markKernel kernelPhysEnd bitmapAddr st.pmm }
  | _ => none

def pmmFreeFramesCount (st : PmmState) : ℕ := subWord st.totalFrameCount st.pmm.usedFrameCount

end AetherOs.Paging
