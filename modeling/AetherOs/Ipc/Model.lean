import AetherOs.Base.Ring
import AetherOs.Base.Loop
import AetherOs.Cap.Model
import Mathlib.Data.Fintype.Pi

/-! # Message ports -/

namespace AetherOs.Ipc

open Base Cap

def ipcMaxPorts : ℕ := 1024

def ipcPortQueueSize : ℕ := 64

def ipcMsgCapsMax : ℕ := 4

def ipcMsgDataMax : ℕ := 256

def ipcTimeoutNone : ℕ := 0

def ipcTimeoutForever : ℕ := 2 ^ 32 - 1

def capTypePort : BitVec 32 := 2

def portRights : BitVec 32 := 0x1 ||| 0x2 ||| capRightGrant

structure IpcMsg where
  msgId : ℕ
  type : BitVec 32
  flags : BitVec 32
  replyPort : ℕ
  senderTid : BitVec 32
  capCount : ℕ
  caps : Fin ipcMsgCapsMax → ℕ
  dataLen : ℕ
  data : Fin ipcMsgDataMax → BitVec 8

structure IpcPort where
  id : ℕ
  cap : ℕ
  ownerTid : BitVec 32
  queue : Base.Ring IpcMsg
  valid : Bool
  closed : Bool

structure Ports where
  portTable : ℕ → IpcPort
  portNextId : ℕ
  portActive : ℕ
  msgSeq : ℕ
  caps : CapTable

inductive IpcErr
  | ok | invalid | noperm | full | closed | timeout | again
  deriving DecidableEq

def IpcMsg.zero : IpcMsg := ⟨0, 0, 0, 0, 0, 0, fun _ => 0, 0, fun _ => 0⟩

def ipcInit (caps : CapTable) : Ports where
  portTable := fun _ => ⟨0, 0, 0, ⟨fun _ => .zero, 0, 0, 0⟩, false, false⟩
  portNextId := 1
  portActive := 0
  msgSeq := 1
  caps := caps

def setPort (i : ℕ) (p : IpcPort) (s : Ports) : Ports := { s with portTable := Function.update s.portTable i p }

def findPort (id : ℕ) (s : Ports) : Option ℕ :=
  if id = 0 then none else search (fun p => p.valid && decide (p.id = id)) s.portTable ipcMaxPorts 0

def allocPort (s : Ports) : Option ℕ := search (fun p => !p.valid) s.portTable ipcMaxPorts 0

def nextPortId (id : ℕ) : ℕ := if (id + 1) % uint32Size = 0 then 1 else (id + 1) % uint32Size

def ipcPortCreate (ownerTid : BitVec 32) (s : Ports) : ℕ × Ports :=
  match allocPort s with
  | none => (0, s)
  | some i =>
    let (cap, caps) := capCreate capTypePort portRights i ownerTid s.caps
    (s.portNextId,
      { setPort i ⟨s.portNextId, cap, ownerTid, (s.portTable i).queue.clear, true, false⟩ s with
        portNextId := nextPortId s.portNextId
        portActive := (s.portActive + 1) % uint32Size
        caps := caps })

def ipcPortDestroy (portId : ℕ) (s : Ports) : Ports :=
  match findPort portId s with
  | none => s
  | some i =>
    { setPort i { s.portTable i with closed := true, valid := false, cap := 0 } s with
      portActive := (s.portActive + uint32Size - 1) % uint32Size
      caps := if (s.portTable i).cap ≠ 0 then capRelease (s.portTable i).cap s.caps else s.caps }

def grantable (caps : CapTable) (msg : IpcMsg) : Bool :=
  (List.finRange ipcMsgCapsMax).all fun i =>
    !decide (i.val < msg.capCount) || capCheck caps (msg.caps i) capRightGrant

def ipcSend (portId : ℕ) (msg : Option IpcMsg) (s : Ports) : IpcErr × Ports :=
  match msg with
  | none => (.invalid, s)
  | some msg =>
    match findPort portId s with
    | none => (.invalid, s)
    | some i =>
      let p := s.portTable i
      if p.closed then (.closed, s)
      else if ipcPortQueueSize ≤ p.queue.count then (.full, s)
      else if !grantable s.caps msg then (.noperm, s)
      else (.ok,
        { setPort i { p with queue := p.queue.push ipcPortQueueSize { msg with msgId := s.msgSeq } } s with
          msgSeq := (s.msgSeq + 1) % uint32Size })

inductive Attempt
  | returned (err : IpcErr) (out : Option IpcMsg)
  | yields

def receiveAttempt (i timeoutMs waited : ℕ) (s : Ports) : Attempt × Ports :=
  let p := s.portTable i
  if 0 < p.queue.count then
    (.returned .ok (some p.queue.front), setPort i { p with queue := p.queue.pop ipcPortQueueSize } s)
  else if p.closed then (.returned .closed none, s)
  else if timeoutMs = ipcTimeoutNone then (.returned .again none, s)
  else if timeoutMs ≠ ipcTimeoutForever ∧ timeoutMs ≤ waited then (.returned .timeout none, s)
  else (.yields, s)

def ipcReceive (portId : ℕ) (hasOut : Bool) (timeoutMs : ℕ) (s : Ports) : Attempt × Ports :=
  match findPort portId s with
  | none => (.returned .invalid none, s)
  | some i => if hasOut then receiveAttempt i timeoutMs 0 s else (.returned .invalid none, s)

def ipcPending (portId : ℕ) (s : Ports) : ℕ :=
  match findPort portId s with
  | none => 0
  | some i => (s.portTable i).queue.count

end AetherOs.Ipc
