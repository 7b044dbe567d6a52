import AetherOs.Cap.History
import AetherOs.Ipc.Queues

/-! # What is queued -/

namespace AetherOs.Ipc

open Cap Option

def msgFlagReply : BitVec 32 := 0x08

def ipcCall (portId : ℕ) (msg : IpcMsg) (s : Ports) : IpcErr × Ports :=
  let (reply, s) := ipcPortCreate msg.senderTid s
  if reply = 0 then (.invalid, s)
  else
    let (err, s) := ipcSend portId (some { msg with replyPort := reply }) s
    if err = .ok then (.ok, s) else (err, ipcPortDestroy reply s)

def ipcReply (request : Option IpcMsg) (replyData : IpcMsg) (s : Ports) : IpcErr × Ports :=
  match request with
  | none => (.invalid, s)
  | some request =>
    if request.replyPort = 0 then (.invalid, s)
    else
      ipcSend request.replyPort
        (some { replyData with flags := replyData.flags ||| msgFlagReply, msgId := s.msgSeq })
        { s with msgSeq := (s.msgSeq + 1) % uint32Size }

inductive SendCall
  | send (portId : ℕ) (msg : IpcMsg)
  | call (portId : ℕ) (msg : IpcMsg)
  | reply (request : Option IpcMsg) (msg : IpcMsg)

open SendCall

namespace SendCall

def msg : SendCall → IpcMsg
  | .send _ msg => msg
  | .call _ msg => msg
  | .reply _ msg => msg

def exec (s : Ports) : SendCall → IpcErr × Ports
  | .send portId msg => ipcSend portId (some msg) s
  | .call portId msg => ipcCall portId msg s
  | .reply request msg => ipcReply request msg s

def passed (s : Ports) : SendCall → Option (ℕ × IpcMsg × Ports)
  | .send portId msg => some (portId, msg, s)
  | .call portId msg =>
    let created := ipcPortCreate msg.senderTid s
    if created.1 = 0 then none else some (portId, { msg with replyPort := created.1 }, created.2)
  | .reply request msg =>
    request.bind fun request =>
      if request.replyPort = 0 then none
      else some (request.replyPort, { msg with flags := msg.flags ||| msgFlagReply, msgId := s.msgSeq },
        { s with msgSeq := (s.msgSeq + 1) % uint32Size })

end SendCall

def copyAt (portId : ℕ) (s s' : Ports) : Option IpcMsg :=
  (findPort portId s).map fun i => (s'.portTable i).queue.slots (s.portTable i).queue.tail

structure WellFormedMsg (caps : CapTable) (m : IpcMsg) : Prop where
  capCount : m.capCount ≤ ipcMsgCapsMax
  dataLen : m.dataLen ≤ ipcMsgDataMax
  grant : ∀ j : Fin ipcMsgCapsMax, j.val < m.capCount → ∃ i, (caps.slots i).valid = true ∧
    (caps.slots i).id = m.caps j ∧ (caps.slots i).rights &&& capRightGrant = capRightGrant

def Accepts (portId : ℕ) (msg : IpcMsg) (s : Ports) : Prop :=
  ∃ i, findPort portId s = some i ∧ (s.portTable i).closed = false ∧
    (s.portTable i).queue.count < ipcPortQueueSize ∧ grantable s.caps msg = true

def QueuesWellFormed (c : SendCall) (s : Ports) : Prop :=
  (c.exec s).1 = .ok → ∀ portId msg u copy, c.passed s = some (portId, msg, u) →
    copyAt portId u (c.exec s).2 = some copy → WellFormedMsg u.caps copy

def SendCall.Accepted (c : SendCall) (s : Ports) : Prop :=
  ∃ portId msg u, c.passed s = some (portId, msg, u) ∧ Accepts portId msg u

variable {s u : Ports} {portId : ℕ} {msg : IpcMsg} {c : SendCall}

theorem ipcSend_ok_iff : (ipcSend portId (some msg) s).1 = .ok ↔ Accepts portId msg s := by
  simp only [ipcSend, Accepts]
  cases hfind : findPort portId s with
  | none =>
    refine iff_of_false IpcErr.noConfusion ?_
    rintro ⟨i, hi, -⟩
    cases hi
  | some i =>
    simp only [some.injEq, exists_eq_left']
    split_ifs with hclosed hfull hgrant
    · exact iff_of_false id fun hbad => Bool.noConfusion (hbad.1.symm.trans hclosed)
    · exact iff_of_false id fun hbad => absurd hbad.2.1 (not_lt.mpr hfull)
    · refine iff_of_false id fun hbad => ?_
      rw [hbad.2.2] at hgrant
      cases hgrant
    · refine iff_of_true rfl ⟨Bool.eq_false_iff.mpr hclosed, not_le.mp hfull, ?_⟩
      simpa using hgrant

theorem copyAt_ipcSend (h : Accepts portId msg s) :
    copyAt portId s (ipcSend portId (some msg) s).2 = some { msg with msgId := s.msgSeq } := by
  rcases ipcSend_cases portId (some msg) s with ⟨err, herr, heq⟩ | ⟨i, m, hm, hfind, -, heq⟩
  · exact absurd ((congrArg Prod.fst heq).symm.trans (ipcSend_ok_iff.mpr h)) herr
  · obtain rfl := some.inj hm
    rw [heq, copyAt, hfind, map_some]
    change some (((setPort i _ s).portTable i).queue.slots _) = _
    rw [portTable_setPort, if_pos rfl]
    exact congrArg some (Function.update_self ..)

theorem grant_of_grantable {caps : CapTable} (h : grantable caps msg) (j : Fin ipcMsgCapsMax)
    (hj : j.val < msg.capCount) : ∃ i, (caps.slots i).valid ∧ (caps.slots i).id = msg.caps j ∧
      (caps.slots i).rights &&& capRightGrant = capRightGrant := by
  have hcheck := List.all_eq_true.mp h j (List.mem_finRange j)
  rw [decide_eq_true hj, Bool.not_true, Bool.false_or, capCheck] at hcheck
  split at hcheck
  · cases hcheck
  · rename_i i hget
    obtain ⟨-, hvalid, hid, -⟩ := capGet_some hget
    exact ⟨i, hvalid, hid, eq_of_beq hcheck⟩

theorem wellFormed_copy_iff (h : Accepts portId msg s) : WellFormedMsg s.caps { msg with msgId := s.msgSeq } ↔
    msg.capCount ≤ ipcMsgCapsMax ∧ msg.dataLen ≤ ipcMsgDataMax := by
  obtain ⟨-, -, -, -, hgrant⟩ := h
  exact ⟨fun hcopy => ⟨hcopy.capCount, hcopy.dataLen⟩, fun hcounts => ⟨hcounts.1, hcounts.2, grant_of_grantable hgrant⟩⟩

theorem exec_of_passed (h : c.passed s = some (portId, msg, u)) :
    msg.capCount = c.msg.capCount ∧ msg.dataLen = c.msg.dataLen ∧
      (c.exec s).1 = (ipcSend portId (some msg) u).1 ∧
      ((c.exec s).1 = .ok → (c.exec s).2 = (ipcSend portId (some msg) u).2) := by
  cases c with
  | send q m =>
    obtain ⟨rfl, rfl, rfl⟩ := h
    exact ⟨rfl, rfl, rfl, fun _ => rfl⟩
  | call q m =>
    simp only [passed] at h
    split_ifs at h with hzero
    obtain ⟨rfl, rfl, rfl⟩ := h
    simp only [exec, ipcCall, if_neg hzero]
    split_ifs with hok
    · exact ⟨rfl, rfl, hok.symm, fun _ => rfl⟩
    · exact ⟨rfl, rfl, rfl, fun hbad => absurd hbad hok⟩
  | reply request m =>
    obtain ⟨request, rfl, hpass⟩ := bind_eq_some_iff.mp h
    split_ifs at hpass with hzero
    obtain ⟨rfl, rfl, rfl⟩ := hpass
    simp only [exec, ipcReply, if_neg hzero]
    exact ⟨rfl, rfl, trivial, fun _ => trivial⟩

theorem exec_of_not_passed (h : c.passed s = none) : (c.exec s).1 ≠ .ok := by
  cases c with
  | send q m => cases h
  | call q m =>
    simp only [passed] at h
    split_ifs at h with hzero
    simp only [exec, ipcCall, if_pos hzero]
    exact IpcErr.noConfusion
  | reply request m =>
    cases request with
    | none => exact IpcErr.noConfusion
    | some request =>
      simp only [passed, bind_some] at h
      split_ifs at h with hzero
      simp only [exec, ipcReply, if_pos hzero]
      exact IpcErr.noConfusion

/-- Of all messages, sent in any way, those are queued well formed, if they are accepted, whose counts
are right. -/
theorem queues_wellFormed_iff (c : SendCall) (s : Ports) : QueuesWellFormed c s ↔
    (c.Accepted s → c.msg.capCount ≤ ipcMsgCapsMax ∧ c.msg.dataLen ≤ ipcMsgDataMax) := by
  cases hpassed : c.passed s with
  | none =>
    refine iff_of_true (fun hok => absurd hok (exec_of_not_passed hpassed)) ?_
    rintro ⟨portId, msg, u, hbad, -⟩
    cases hpassed.symm.trans hbad
  | some arg =>
    obtain ⟨portId, msg, u⟩ := arg
    obtain ⟨hcaps, hdata, herr, hstate⟩ := exec_of_passed hpassed
    rw [← hcaps, ← hdata]
    constructor
    · rintro h ⟨portId', msg', u', hsame, haccepts⟩
      obtain ⟨rfl, rfl, rfl⟩ := some.inj (hpassed.symm.trans hsame)
      have hok : (c.exec s).1 = .ok := herr.trans (ipcSend_ok_iff.mpr haccepts)
      refine (wellFormed_copy_iff haccepts).mp (h hok portId msg u _ hpassed ?_)
      rw [hstate hok]
      exact copyAt_ipcSend haccepts
    · intro h hok portId' msg' u' copy hsame hcopy
      obtain ⟨rfl, rfl, rfl⟩ := some.inj (hpassed.symm.trans hsame)
      have haccepts : Accepts portId msg u := ipcSend_ok_iff.mp (herr.symm.trans hok)
      rw [hstate hok, copyAt_ipcSend haccepts] at hcopy
      obtain rfl := some.inj hcopy
      exact (wellFormed_copy_iff haccepts).mpr (h ⟨portId, msg, u, hpassed, haccepts⟩)

def overlong : IpcMsg := { IpcMsg.zero with dataLen := 4096 }

/-- One port, and a message to it that states 4096 bytes: it is accepted, and queued as it is. -/
theorem overlong_queued :
    let s := (ipcPortCreate 7 (ipcInit capTableInit)).2
    (ipcSend 1 (some overlong) s).1 = .ok ∧
      (copyAt 1 s (ipcSend 1 (some overlong) s).2).map IpcMsg.dataLen = some 4096 := by
  decide +kernel

end AetherOs.Ipc
