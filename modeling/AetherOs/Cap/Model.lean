import Mathlib.Algebra.Group.Nat.Defs
import Mathlib.Data.List.Range

/-! # The capability table -/

namespace AetherOs.Cap

def capTableSize : ℕ := 4096

def uint32Size : ℕ := 2 ^ 32

def capRightGrant : BitVec 32 := 0x10

def capRightManage : BitVec 32 := 0x40

structure Capability where
  id : ℕ
  type : BitVec 32
  rights : BitVec 32
  object : ℕ
  parent : ℕ
  refCount : ℕ
  ownerTid : BitVec 32
  valid : Bool
  deriving DecidableEq

structure CapTable where
  slots : ℕ → Capability
  nextId : ℕ
  activeCount : ℕ

def capTableInit : CapTable where
  slots := fun _ => ⟨0, 0, 0, 0, 0, 0, 0, false⟩
  nextId := 1
  activeCount := 0

def setSlot (i : ℕ) (c : Capability) (t : CapTable) : CapTable :=
  { t with slots := Function.update t.slots i c }

def countUp (t : CapTable) : CapTable := { t with activeCount := (t.activeCount + 1) % uint32Size }

def countDown (t : CapTable) : CapTable :=
  { t with activeCount := (t.activeCount + uint32Size - 1) % uint32Size }

def findSlot (p : Capability → Bool) (slots : ℕ → Capability) : ℕ → ℕ → Option ℕ
  | 0, _ => none
  | steps + 1, i => if p (slots i) then some i else findSlot p slots steps (i + 1)

def allocSlot (t : CapTable) : Option ℕ := findSlot (fun c => !c.valid) t.slots capTableSize 0

def issueId (t : CapTable) : CapTable :=
  let next := (t.nextId + 1) % uint32Size
  { t with nextId := if next = 0 then 1 else next }

def capGet (t : CapTable) (id : ℕ) : Option ℕ :=
  if id = 0 then none
  else findSlot (fun c => c.valid && decide (c.id = id)) t.slots capTableSize 0

def capCreate (type rights : BitVec 32) (object : ℕ) (ownerTid : BitVec 32) (t : CapTable) :
    ℕ × CapTable :=
  match allocSlot t with
  | none => (0, t)
  | some i => (t.nextId, countUp (setSlot i ⟨t.nextId, type, rights, object, 0, 1, ownerTid, true⟩ (issueId t)))

def capAddref (id : ℕ) (t : CapTable) : CapTable :=
  match capGet t id with
  | none => t
  | some i => setSlot i { t.slots i with refCount := ((t.slots i).refCount + 1) % uint32Size } t

def capDerive (parentId : ℕ) (reducedRights : BitVec 32) (t : CapTable) : ℕ × CapTable :=
  match capGet t parentId with
  | none => (0, t)
  | some j =>
    let parent := t.slots j
    if reducedRights &&& ~~~parent.rights != 0 then (0, t)
    else if parent.rights &&& capRightManage = 0 then (0, t)
    else
      match allocSlot t with
      | none => (0, t)
      | some i =>
        let c : Capability :=
          ⟨t.nextId, parent.type, reducedRights, parent.object, parentId, 1, parent.ownerTid, true⟩
        (t.nextId, countUp (capAddref parentId (setSlot i c (issueId t))))

def capCheck (t : CapTable) (id : ℕ) (required : BitVec 32) : Bool :=
  match capGet t id with
  | none => false
  | some i => (t.slots i).rights &&& required == required

def releaseFrom : ℕ → ℕ → CapTable → CapTable
  | 0, _, t => t
  | depth + 1, id, t =>
    match capGet t id with
    | none => t
    | some i =>
      let c := t.slots i
      if 1 < c.refCount then setSlot i { c with refCount := c.refCount - 1 } t
      else
        let t := setSlot i { c with refCount := 0, valid := false, object := 0 } t
        countDown (if c.parent ≠ 0 then releaseFrom depth c.parent t else t)

def capRelease (id : ℕ) (t : CapTable) : CapTable := releaseFrom (capTableSize + 1) id t

def revokeFrom : ℕ → ℕ → CapTable → Bool × CapTable
  | 0, _, t => (false, t)
  | depth + 1, id, t =>
    match capGet t id with
    | none => (false, t)
    | some i =>
      let c := t.slots i
      let t := countDown (setSlot i { c with valid := false, object := 0 } t)
      let t := if c.parent ≠ 0 then capRelease c.parent t else t
      (true, (List.range capTableSize).foldl (fun t j =>
        if (t.slots j).valid && decide ((t.slots j).parent = id) then
          (revokeFrom depth (t.slots j).id t).2
        else t) t)

def capRevoke (id : ℕ) (t : CapTable) : Bool × CapTable := revokeFrom capTableSize id t

def capTransfer (id : ℕ) (newOwnerTid : BitVec 32) (t : CapTable) : ℕ × CapTable :=
  match capGet t id with
  | none => (0, t)
  | some i =>
    if (t.slots i).rights &&& capRightGrant = 0 then (0, t)
    else (id, setSlot i { t.slots i with ownerTid := newOwnerTid } t)

end AetherOs.Cap
