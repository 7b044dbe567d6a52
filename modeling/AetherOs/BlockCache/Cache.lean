import AetherOs.Base.Loop
import AetherOs.Types

/-! # The block cache -/

namespace AetherOs.BlockCache

open Base Function

abbrev Block := Fin 512 → UInt8

def slotCount : ℕ := 128

def driveCount : ℤ := 4

structure Slot where
  lba : ℕ
  drive : ℤ
  data : Block
  valid : Bool
  dirty : Bool
  lastUse : ℕ

structure Cache where
  slots : ℕ → Slot
  lruClock : ℕ
  hits : ℕ
  misses : ℕ
  writes : ℕ
  present : ℤ → Bool
  disk : ℤ → ℕ → Block

namespace Cache

def setSlot (i : ℕ) (s : Slot) (c : Cache) : Cache := { c with slots := update c.slots i s }

def ataWrite (drive : ℤ) (lba : ℕ) (data : Block) (c : Cache) : Cache :=
  { c with disk := update c.disk drive (update (c.disk drive) lba data) }

def countWrite (c : Cache) : Cache := { c with writes := (c.writes + 1) % uintSize }

def tick (c : Cache) : Cache := { c with lruClock := (c.lruClock + 1) % uintSize }

variable {c : Cache} {i j : ℕ} {s : Slot}

@[simp]
theorem slots_setSlot_self : (c.setSlot i s).slots i = s := update_self _ _ _

theorem slots_setSlot_of_ne (h : j ≠ i) : (c.setSlot i s).slots j = c.slots j := update_of_ne h _ _

@[simp]
theorem setSlot_setSlot {s' : Slot} : (c.setSlot i s).setSlot i s' = c.setSlot i s' := by
  rw [setSlot, setSlot, setSlot, update_idem]

end Cache

def Slot.matches (drive : ℤ) (lba : ℕ) (s : Slot) : Bool := s.valid && s.drive = drive && s.lba = lba

def findSlot (drive : ℤ) (lba : ℕ) (c : Cache) : Option ℕ := search (Slot.matches drive lba) c.slots slotCount 0

def scanClean (slots : ℕ → Slot) : ℕ → ℕ → Option ℕ → ℕ → ℕ ⊕ Option ℕ
  | 0, _, best, _ => .inr best
  | steps + 1, i, best, oldest =>
    if (slots i).valid = false then .inl i
    else if (slots i).dirty = false ∧ (slots i).lastUse < oldest then
      scanClean slots steps (i + 1) (some i) (slots i).lastUse
    else scanClean slots steps (i + 1) best oldest

def scanAll (slots : ℕ → Slot) : ℕ → ℕ → Option ℕ → ℕ → Option ℕ
  | 0, _, best, _ => best
  | steps + 1, i, best, oldest =>
    if (slots i).lastUse < oldest then scanAll slots steps (i + 1) (some i) (slots i).lastUse
    else scanAll slots steps (i + 1) best oldest

def writeBack (i : ℕ) (c : Cache) : Cache :=
  if (c.slots i).dirty then
    let c' := if (c.slots i).drive < driveCount ∧ c.present (c.slots i).drive = true then
      c.ataWrite (c.slots i).drive (c.slots i).lba (c.slots i).data else c
    c'.countWrite.setSlot i { c.slots i with dirty := false }
  else c

def release (i : ℕ) (c : Cache) : Cache := c.setSlot i { c.slots i with valid := false }

def evictSlot (c : Cache) : Option (ℕ × Cache) :=
  match scanClean c.slots slotCount 0 none (uintSize - 1) with
  | .inl i => some (i, c)
  | .inr (some i) => some (i, release i c)
  | .inr none =>
    match scanAll c.slots slotCount 0 none (uintSize - 1) with
    | none => none
    | some i => some (i, release i (writeBack i c))

def bcacheGet (drive : ℤ) (lba : ℕ) (c : Cache) : Option (Option ℕ × Cache) :=
  if drive < 0 ∨ driveCount ≤ drive then some (none, c)
  else
    match findSlot drive lba c with
    | some i =>
      let c := { c with hits := (c.hits + 1) % uintSize }.tick
      some (some i, c.setSlot i { c.slots i with lastUse := c.lruClock })
    | none =>
      match evictSlot { c with misses := (c.misses + 1) % uintSize } with
      | none => none
      | some (i, c) =>
        if c.present drive = false then some (none, c)
        else some (some i, c.tick.setSlot i ⟨lba, drive, c.disk drive lba, true, false, c.tick.lruClock⟩)

def bcacheDirty (drive : ℤ) (lba : ℕ) (c : Cache) : Cache :=
  match findSlot drive lba c with
  | some i => c.setSlot i { c.slots i with dirty := true }
  | none => c

def slotFor (drive : ℤ) (lba : ℕ) (c : Cache) : Option (ℕ × Cache) :=
  match findSlot drive lba c with
  | some i => some (i, c)
  | none =>
    match evictSlot c with
    | none => none
    | some (i, c) => some (i, c.setSlot i { c.slots i with valid := true, drive := drive, lba := lba })

def bcacheWriteThrough (drive : ℤ) (lba : ℕ) (data : Block) (c : Cache) : Option (ℤ × Cache) :=
  if drive < 0 ∨ driveCount ≤ drive then some (-1, c)
  else
    match slotFor drive lba c with
    | none => none
    | some (i, c) =>
      let c := c.tick.setSlot i { c.slots i with data := data, dirty := false, lastUse := c.tick.lruClock }
      if c.present drive = false then some (-1, c) else some (0, (c.ataWrite drive lba data).countWrite)

def flushSlot (drive : ℤ) (c : Cache) (i : ℕ) : Cache :=
  if (c.slots i).valid = false ∨ (c.slots i).dirty = false ∨ (c.slots i).drive ≠ drive then c
  else
    ((c.ataWrite drive (c.slots i).lba (c.slots i).data).setSlot i { c.slots i with dirty := false }).countWrite

def bcacheFlush (drive : ℤ) (c : Cache) : ℤ × Cache :=
  if drive < 0 ∨ driveCount ≤ drive then (-1, c)
  else if c.present drive = false then (-1, c)
  else (0, (List.range slotCount).foldl (flushSlot drive) c)

def bcacheFlushAll (c : Cache) : ℤ × Cache :=
  ([0, 1, 2, 3] : List ℤ).foldl (fun out drive =>
    (if (bcacheFlush drive out.2).1 = 0 then out.1 else -1, (bcacheFlush drive out.2).2)) (0, c)

end AetherOs.BlockCache
