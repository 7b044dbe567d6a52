import AetherOs.Ipc.Model

/-! # Queues of ports -/

namespace AetherOs.Ipc

open Base Cap Function List IpcMsg

def IpcMsg.body (m : IpcMsg) : IpcMsg := { m with msgId := 0 }

def queueOf (portId : ℕ) (s : Ports) : List IpcMsg :=
  match findPort portId s with
  | none => []
  | some i => (s.portTable i).queue.contents ipcPortQueueSize

variable {s : Ports} {portId q i j : ℕ} {msg : IpcMsg} {p : IpcPort}

theorem findPort_some (h : findPort portId s = some i) : i < ipcMaxPorts ∧ (s.portTable i).valid ∧
    (s.portTable i).id = portId := by
  rw [findPort] at h
  split at h
  · cases h
  · obtain ⟨-, hlt, hport, -⟩ := search_some h
    rw [Bool.and_eq_true, decide_eq_true_eq] at hport
    exact ⟨by omega, hport⟩

theorem portTable_setPort : (setPort i p s).portTable j = if j = i then p else s.portTable j := by
  simp [setPort, update_apply]

theorem findPort_congr {u : Ports} (h : ∀ j, ((u.portTable j).valid && decide ((u.portTable j).id = q)) =
    ((s.portTable j).valid && decide ((s.portTable j).id = q))) : findPort q u = findPort q s := by
  have hsearch : search (fun p : IpcPort => p.valid && decide (p.id = q)) u.portTable ipcMaxPorts 0 =
      search (fun p : IpcPort => p.valid && decide (p.id = q)) s.portTable ipcMaxPorts 0 := search_congr h
  rw [findPort, findPort, hsearch]

theorem queueOf_of_findPort (h : findPort portId s = some i) :
    queueOf portId s = (s.portTable i).queue.contents ipcPortQueueSize := by
  rw [queueOf, h]

theorem queueOf_of_findPort_none (h : findPort portId s = none) : queueOf portId s = [] := by
  rw [queueOf, h]

def enqueued (i : ℕ) (msg : IpcMsg) (s : Ports) : Ports :=
  { setPort i { s.portTable i with
      queue := (s.portTable i).queue.push ipcPortQueueSize { msg with msgId := s.msgSeq } } s with
    msgSeq := (s.msgSeq + 1) % uint32Size }

def dequeued (i : ℕ) (s : Ports) : Ports :=
  setPort i { s.portTable i with queue := (s.portTable i).queue.pop ipcPortQueueSize } s

theorem ipcSend_cases (portId : ℕ) (msg : Option IpcMsg) (s : Ports) :
    (∃ err, err ≠ .ok ∧ ipcSend portId msg s = (err, s)) ∨
    ∃ i m, msg = some m ∧ findPort portId s = some i ∧ (s.portTable i).queue.count < ipcPortQueueSize ∧
      ipcSend portId msg s = (.ok, enqueued i m s) := by
  cases msg with
  | none => exact .inl ⟨_, IpcErr.noConfusion, rfl⟩
  | some m =>
    simp only [ipcSend]
    split
    · exact .inl ⟨_, IpcErr.noConfusion, rfl⟩
    · rename_i i hfind
      split
      · exact .inl ⟨_, IpcErr.noConfusion, rfl⟩
      · split
        · exact .inl ⟨_, IpcErr.noConfusion, rfl⟩
        · rename_i hroom
          split
          · exact .inl ⟨_, IpcErr.noConfusion, rfl⟩
          · exact .inr ⟨i, m, rfl, hfind, not_le.mp hroom, rfl⟩

theorem receiveAttempt_cases (i timeoutMs waited : ℕ) (s : Ports) :
    (0 < (s.portTable i).queue.count ∧ receiveAttempt i timeoutMs waited s =
      (.returned .ok (some (s.portTable i).queue.front), dequeued i s)) ∨
    (∃ err, err ≠ .ok ∧ receiveAttempt i timeoutMs waited s = (.returned err none, s)) ∨
    timeoutMs ≠ ipcTimeoutNone ∧ receiveAttempt i timeoutMs waited s = (.yields, s) := by
  simp only [receiveAttempt]
  split
  · rename_i hsome
    exact .inl ⟨hsome, rfl⟩
  · split
    · exact .inr (.inl ⟨_, IpcErr.noConfusion, rfl⟩)
    · split
      · exact .inr (.inl ⟨_, IpcErr.noConfusion, rfl⟩)
      · rename_i htimeout
        split
        · exact .inr (.inl ⟨_, IpcErr.noConfusion, rfl⟩)
        · exact .inr (.inr ⟨htimeout, rfl⟩)

theorem findPort_queue {u : Ports} {r : Base.Ring IpcMsg}
    (h : u.portTable = (setPort i { s.portTable i with queue := r } s).portTable) :
    findPort q u = findPort q s := by
  refine findPort_congr fun j => ?_
  rw [h, portTable_setPort]
  split_ifs with heq
  · rw [heq]
  · rfl

theorem queueOf_queue {u : Ports} {r : Base.Ring IpcMsg} (hfind : findPort portId s = some i)
    (h : u.portTable = (setPort i { s.portTable i with queue := r } s).portTable) :
    queueOf q u = if q = portId then r.contents ipcPortQueueSize else queueOf q s := by
  rw [queueOf, findPort_queue h]
  by_cases hq : q = portId
  · rw [if_pos hq, hq, hfind]
    simp only [h, portTable_setPort, if_pos]
  · rw [if_neg hq, queueOf]
    split
    · rfl
    · rename_i j hj
      have hne : j ≠ i := by
        rintro rfl
        exact hq ((findPort_some hj).2.2.symm.trans (findPort_some hfind).2.2)
      rw [h, portTable_setPort, if_neg hne]

theorem queueOf_enqueued (hfind : findPort portId s = some i)
    (hring : (s.portTable i).queue.WellFormed ipcPortQueueSize)
    (hroom : (s.portTable i).queue.count < ipcPortQueueSize) :
    queueOf q (enqueued i msg s) =
      if q = portId then queueOf portId s ++ [{ msg with msgId := s.msgSeq }] else queueOf q s := by
  rw [queueOf_queue hfind (u := enqueued i msg s) rfl, Base.Ring.contents_push hring hroom,
    queueOf_of_findPort hfind]

theorem queueOf_dequeued (hfind : findPort portId s = some i)
    (hring : (s.portTable i).queue.WellFormed ipcPortQueueSize) (hsome : 0 < (s.portTable i).queue.count) :
    ∃ rest, queueOf portId s = (s.portTable i).queue.front :: rest ∧
      ∀ q, queueOf q (dequeued i s) = if q = portId then rest else queueOf q s := by
  refine ⟨((s.portTable i).queue.pop ipcPortQueueSize).contents ipcPortQueueSize, ?_, fun q => ?_⟩
  · rw [queueOf_of_findPort hfind]
    exact Base.Ring.contents_eq_cons hring hsome
  · exact queueOf_queue hfind rfl

theorem ipcPending_eq (portId : ℕ) (s : Ports) : ipcPending portId s = (queueOf portId s).length := by
  cases hfind : findPort portId s with
  | none => rw [ipcPending, hfind, queueOf_of_findPort_none hfind, length_nil]
  | some i => rw [ipcPending, hfind, queueOf_of_findPort hfind, Base.Ring.length_contents]

structure Mail where
  ports : Ports
  accepted : ℕ → List IpcMsg
  received : ℕ → List IpcMsg

inductive MailCall
  | create (ownerTid : BitVec 32)
  | send (portId : ℕ) (msg : Option IpcMsg)
  | receive (portId : ℕ) (hasOut : Bool)
  | capabilities (caps : CapTable)

def Mail.init (caps : CapTable) : Mail := ⟨ipcInit caps, fun _ => [], fun _ => []⟩

def note (portId : ℕ) (m : Option IpcMsg) (log : ℕ → List IpcMsg) : ℕ → List IpcMsg :=
  update log portId (log portId ++ m.toList)

def Attempt.delivered : Attempt → Option IpcMsg
  | .returned .ok out => out
  | _ => none

def Mail.exec (s : Mail) : MailCall → Mail
  | .create ownerTid => { s with ports := (ipcPortCreate ownerTid s.ports).2 }
  | .send portId msg =>
    let (err, ports) := ipcSend portId msg s.ports
    { s with
      ports := ports
      accepted := if err = .ok then note portId msg s.accepted else s.accepted }
  | .receive portId hasOut =>
    let (attempt, ports) := ipcReceive portId hasOut ipcTimeoutNone s.ports
    { s with ports := ports, received := note portId attempt.delivered s.received }
  | .capabilities caps => { s with ports := { s.ports with caps := caps } }

structure Channels (s : Mail) : Prop where
  nextId : 1 ≤ s.ports.portNextId ∧ s.ports.portNextId ≤ ipcMaxPorts + 1
  valid_iff : ∀ i, (s.ports.portTable i).valid = true ↔ i + 1 < s.ports.portNextId
  id_lt : ∀ i, (s.ports.portTable i).valid = true → (s.ports.portTable i).id < s.ports.portNextId
  isOpen : ∀ i, (s.ports.portTable i).valid = true → (s.ports.portTable i).closed = false
  ring : ∀ i, (s.ports.portTable i).queue.WellFormed ipcPortQueueSize
  channel : ∀ q, (s.accepted q).map body =
    (s.received q).map body ++ (queueOf q s.ports).map body

namespace Channels

variable {m : Mail}

theorem init (caps : CapTable) : Channels (Mail.init caps) := by
  refine ⟨⟨le_rfl, show 1 ≤ ipcMaxPorts + 1 by decide⟩, fun i => ⟨fun h => absurd h Bool.false_ne_true, fun h => ?_⟩,
    fun i h => absurd h Bool.false_ne_true, fun i h => absurd h Bool.false_ne_true,
    fun i => ⟨show 0 < ipcPortQueueSize by decide, Nat.zero_le _, rfl⟩, fun q => ?_⟩
  · change i + 1 < 1 at h
    omega
  · have hnone : findPort q (Mail.init caps).ports = none := by
      cases hfind : findPort q (Mail.init caps).ports with
      | none => rfl
      | some i => exact absurd (findPort_some hfind).2.1 Bool.false_ne_true
    rw [queueOf_of_findPort_none hnone]
    rfl

section

variable (h : Channels m)

include h

theorem of_queue {ports : Ports} {r : Base.Ring IpcMsg} {accepted received : ℕ → List IpcMsg}
    (hports : ports.portTable = (setPort i { m.ports.portTable i with queue := r } m.ports).portTable)
    (hnext : ports.portNextId = m.ports.portNextId) (hring : r.WellFormed ipcPortQueueSize)
    (hchannel : ∀ q, (accepted q).map body =
      (received q).map body ++ (queueOf q ports).map body) :
    Channels ⟨ports, accepted, received⟩ := by
  have hslot : ∀ j, (ports.portTable j).valid = (m.ports.portTable j).valid ∧
      (ports.portTable j).id = (m.ports.portTable j).id ∧
      (ports.portTable j).closed = (m.ports.portTable j).closed := fun j => by
    rw [hports, portTable_setPort]
    split_ifs with heq
    · rw [heq]
      exact ⟨rfl, rfl, rfl⟩
    · exact ⟨rfl, rfl, rfl⟩
  refine ⟨by rw [hnext]; exact h.nextId, fun j => ?_, fun j => ?_, fun j => ?_, fun j => ?_, hchannel⟩
  · rw [(hslot j).1, hnext]
    exact h.valid_iff j
  · rw [(hslot j).1, (hslot j).2.1, hnext]
    exact h.id_lt j
  · rw [(hslot j).1, (hslot j).2.2]
    exact h.isOpen j
  · change (ports.portTable j).queue.WellFormed ipcPortQueueSize
    rw [hports, portTable_setPort]
    split
    · exact hring
    · exact h.ring j

theorem send (portId : ℕ) (msg : Option IpcMsg) : Channels (m.exec (.send portId msg)) := by
  simp only [Mail.exec]
  rcases ipcSend_cases portId msg m.ports with ⟨err, herr, hsend⟩ | ⟨i, msg, rfl, hfind, hroom, hsend⟩
  · rw [hsend, if_neg herr]
    exact h
  · rw [hsend, if_pos rfl]
    refine h.of_queue (i := i) rfl rfl ((h.ring i).push hroom _) fun q => ?_
    rw [queueOf_enqueued hfind (h.ring i) hroom, note, update_apply]
    split_ifs with hq
    · subst hq
      rw [map_append, h.channel q, map_append, append_assoc]
      rfl
    · exact h.channel q

theorem receive (portId : ℕ) (hasOut : Bool) :
    Channels (m.exec (.receive portId hasOut)) := by
  have hsame : ∀ err, Channels
      ⟨m.ports, m.accepted, note portId (Attempt.returned err none).delivered m.received⟩ := fun err => by
    have hnone : (Attempt.returned err none).delivered = none := by cases err <;> rfl
    rw [hnone, note, Option.toList_none, append_nil, update_eq_self]
    exact h
  simp only [Mail.exec, ipcReceive]
  split
  · exact hsame _
  · rename_i i hfind
    split
    · rcases receiveAttempt_cases i ipcTimeoutNone 0 m.ports with
        ⟨hsome, hattempt⟩ | ⟨err, -, hattempt⟩ | ⟨hbad, -⟩
      · rw [hattempt]
        obtain ⟨rest, hqueue, hrest⟩ := queueOf_dequeued hfind (h.ring i) hsome
        refine h.of_queue (i := i) rfl rfl ((h.ring i).pop hsome) fun q => ?_
        rw [hrest, note, update_apply]
        split_ifs with hq
        · subst hq
          rw [h.channel q, hqueue, map_append, append_assoc]
          rfl
        · exact h.channel q
      · rw [hattempt]
        exact hsame err
      · exact absurd rfl hbad
    · exact hsame _

theorem allocPort_eq (halloc : allocPort m.ports = some i) :
    i + 1 = m.ports.portNextId ∧ i < ipcMaxPorts := by
  obtain ⟨-, hlt, hfree, hbefore⟩ := search_some halloc
  have hnot : ¬ i + 1 < m.ports.portNextId := fun hbad => by
    rw [(h.valid_iff i).mpr hbad] at hfree
    cases hfree
  have hnext := h.nextId
  refine ⟨?_, by omega⟩
  by_contra hne
  have hlast := hbefore (m.ports.portNextId - 1) (Nat.zero_le _) (by omega)
  have hvalid := (h.valid_iff (m.ports.portNextId - 1)).mp (by simpa using hlast)
  omega

theorem create (ownerTid : BitVec 32) : Channels (m.exec (.create ownerTid)) := by
  simp only [Mail.exec, ipcPortCreate]
  split
  · exact h
  · rename_i i halloc
    obtain ⟨hi, hlt⟩ := h.allocPort_eq halloc
    have hfree : (m.ports.portTable i).valid = false := by
      rw [Bool.eq_false_iff, ne_eq, h.valid_iff]
      omega
    generalize capCreate capTypePort portRights i ownerTid m.ports.caps = created
    have hnext : nextPortId m.ports.portNextId = m.ports.portNextId + 1 := by
      have hle := h.nextId.2
      have hmod : (m.ports.portNextId + 1) % uint32Size = m.ports.portNextId + 1 :=
        Nat.mod_eq_of_lt (by simp only [uint32Size, ipcMaxPorts] at hle ⊢; omega)
      rw [nextPortId, hmod]
      exact if_neg (by omega)
    rw [hnext]
    generalize hp : (⟨m.ports.portNextId, created.1, ownerTid, (m.ports.portTable i).queue.clear, true, false⟩ :
      IpcPort) = p
    set ports := setPort i p m.ports
    have hid : p.id = m.ports.portNextId := hp ▸ rfl
    have hqueue : p.queue = (m.ports.portTable i).queue.clear := hp ▸ rfl
    -- ports with other identifiers are found as before, and the new one was not there
    have hfind : ∀ q, q ≠ m.ports.portNextId → findPort q ports = findPort q m.ports :=
      fun q hq => findPort_congr fun j => by
        rw [portTable_setPort]
        split_ifs with heq
        · rw [heq, hfree, hid, decide_eq_false hq.symm, Bool.and_false, Bool.false_and]
        · rfl
    have hnew : queueOf m.ports.portNextId m.ports = [] := by
      cases hold : findPort m.ports.portNextId m.ports with
      | none => exact queueOf_of_findPort_none hold
      | some j =>
        obtain ⟨-, hvalid, hjid⟩ := findPort_some hold
        exact absurd (h.id_lt j hvalid) (by omega)
    have hqueues : ∀ q, queueOf q ports = queueOf q m.ports := fun q => by
      by_cases hq : q = m.ports.portNextId
      · subst hq
        rw [hnew]
        cases hold : findPort m.ports.portNextId ports with
        | none => exact queueOf_of_findPort_none hold
        | some j =>
          rw [queueOf_of_findPort hold, portTable_setPort]
          obtain ⟨-, hvalid, hjid⟩ := findPort_some hold
          rw [portTable_setPort] at hvalid hjid
          split_ifs at hjid with heq
          · rw [if_pos heq, hqueue, Base.Ring.contents_clear]
          · rw [if_neg heq] at hvalid
            exact absurd (h.id_lt j hvalid) (by omega)
      · rw [queueOf, queueOf, hfind q hq]
        split
        · rfl
        · rename_i j hj
          have hne : j ≠ i := fun heq => by
            have hvalid := (findPort_some hj).2.1
            rw [heq, hfree] at hvalid
            cases hvalid
          rw [portTable_setPort, if_neg hne]
    have hnextId := h.nextId
    refine ⟨⟨by simp, by change m.ports.portNextId + 1 ≤ _; omega⟩, fun j => ?_, fun j hj => ?_, fun j hj => ?_,
      fun j => ?_, fun q => (h.channel q).trans (by rw [← hqueues q]; rfl)⟩
    · change (ports.portTable j).valid ↔ j + 1 < m.ports.portNextId + 1
      rw [portTable_setPort]
      split_ifs with heq
      · have hvalid : p.valid := hp ▸ rfl
        exact iff_of_true hvalid (by omega)
      · rw [h.valid_iff j]
        omega
    · change (ports.portTable j).valid = true at hj
      change (ports.portTable j).id < m.ports.portNextId + 1
      rw [portTable_setPort] at hj ⊢
      split_ifs with hne
      · omega
      · rw [if_neg hne] at hj
        exact (h.id_lt j hj).trans (Nat.lt_succ_self _)
    · change (ports.portTable j).valid = true at hj
      change (ports.portTable j).closed = false
      rw [portTable_setPort] at hj ⊢
      split_ifs with hne
      · exact hp ▸ rfl
      · rw [if_neg hne] at hj
        exact h.isOpen j hj
    · change (ports.portTable j).queue.WellFormed ipcPortQueueSize
      rw [portTable_setPort]
      split
      · rw [hqueue]
        exact Base.Ring.wellFormed_clear (by decide)
      · exact h.ring j

theorem step (c : MailCall) : Channels (m.exec c) := by
  cases c with
  | create ownerTid => exact h.create ownerTid
  | send portId msg => exact h.send portId msg
  | receive portId hasOut => exact h.receive portId hasOut
  | capabilities caps => exact ⟨h.nextId, h.valid_iff, h.id_lt, h.isOpen, h.ring, h.channel⟩

theorem run (calls : List MailCall) : Channels (calls.foldl Mail.exec m) := by
  induction calls generalizing m with
  | nil => exact h
  | cons c calls ih => exact ih (h.step c)

theorem length_queueOf_le (q : ℕ) : (queueOf q m.ports).length ≤ ipcPortQueueSize := by
  cases hfind : findPort q m.ports with
  | none => simp [queueOf_of_findPort_none hfind]
  | some i =>
    rw [queueOf_of_findPort hfind, Base.Ring.length_contents]
    exact (h.ring i).count

theorem ipcSend_full_iff (portId : ℕ) (msg : IpcMsg) :
    (ipcSend portId (some msg) m.ports).1 = .full ↔ (queueOf portId m.ports).length = ipcPortQueueSize := by
  have hle := h.length_queueOf_le portId
  cases hfind : findPort portId m.ports with
  | none =>
    rw [queueOf_of_findPort_none hfind]
    simp [ipcSend, hfind, ipcPortQueueSize]
  | some i =>
    rw [queueOf_of_findPort hfind, Base.Ring.length_contents] at hle ⊢
    simp only [ipcSend, hfind, h.isOpen i (findPort_some hfind).2.1, Bool.false_eq_true, if_false]
    split
    · exact iff_of_true rfl (by omega)
    · rename_i hroom
      refine iff_of_false ?_ (by omega)
      split <;> exact IpcErr.noConfusion

end

end Channels

theorem queueOf_other (hne : q ≠ portId) (msg : Option IpcMsg) (hasOut : Bool) (s : Ports) :
    queueOf q (ipcSend portId msg s).2 = queueOf q s ∧
      queueOf q (ipcReceive portId hasOut ipcTimeoutNone s).2 = queueOf q s := by
  constructor
  · rcases ipcSend_cases portId msg s with ⟨err, -, hsend⟩ | ⟨i, m, -, hfind, -, hsend⟩
    · rw [hsend]
    · rw [hsend, queueOf_queue hfind (u := enqueued i m s) rfl, if_neg hne]
  · simp only [ipcReceive]
    split
    · rfl
    · rename_i i hfind
      split
      · rcases receiveAttempt_cases i ipcTimeoutNone 0 s with ⟨-, hattempt⟩ | ⟨err, -, hattempt⟩ | ⟨hbad, -⟩
        · rw [hattempt, queueOf_queue hfind (u := dequeued i s) rfl, if_neg hne]
        · rw [hattempt]
        · exact absurd rfl hbad
      · rfl

/-- Ports are channels: along every run without destruction of ports, what was received is, in order,
the beginning of what was accepted; the rest is queued, is counted and is at most the size of the
ring; a message is refused for want of room exactly when that size is reached; and other ports are
left alone. -/
theorem ports_are_fifo (caps : CapTable) (calls : List MailCall) (portId : ℕ) :
    let s := calls.foldl Mail.exec (Mail.init caps);
    (s.received portId).map body <+: (s.accepted portId).map body ∧
    ipcPending portId s.ports + (s.received portId).length = (s.accepted portId).length ∧
    ipcPending portId s.ports ≤ ipcPortQueueSize ∧
    (∀ msg, (ipcSend portId (some msg) s.ports).1 = .full ↔
      (s.accepted portId).length - (s.received portId).length = ipcPortQueueSize) ∧
    ∀ q, q ≠ portId → ∀ msg hasOut, queueOf q (ipcSend portId msg s.ports).2 = queueOf q s.ports ∧
      queueOf q (ipcReceive portId hasOut ipcTimeoutNone s.ports).2 = queueOf q s.ports := by
  intro s
  have h : Channels s := (Channels.init caps).run calls
  have hchannel := h.channel portId
  have hlength := congrArg List.length hchannel
  rw [length_append, length_map, length_map, length_map] at hlength
  refine ⟨⟨_, hchannel.symm⟩, ?_, ?_, fun msg => ?_, fun q hq msg hasOut => queueOf_other hq msg hasOut _⟩
  · rw [ipcPending_eq]
    omega
  · rw [ipcPending_eq]
    exact h.length_queueOf_le portId
  · rw [h.ipcSend_full_iff]
    omega

end AetherOs.Ipc
