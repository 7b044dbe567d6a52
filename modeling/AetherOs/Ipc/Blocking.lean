import AetherOs.Base.Run
import AetherOs.Ipc.Queues

/-! # Blocked receivers -/

namespace AetherOs.Ipc

open Base Cap Function List

structure Waiter where
  portId : ℕ
  slot : ℕ
  timeoutMs : ℕ
  waited : ℕ

structure Tasks where
  ports : Ports
  waiting : ℕ → Option Waiter
  accepted : ℕ → List IpcMsg
  received : ℕ → List IpcMsg

open Tasks

inductive TaskCall
  | create (ownerTid : BitVec 32)
  | destroy (portId : ℕ)
  | send (portId : ℕ) (msg : Option IpcMsg)
  | receive (task portId : ℕ) (hasOut : Bool) (timeoutMs : ℕ)
  | resume (task : ℕ)
  | capabilities (caps : CapTable)

def Tasks.init (caps : CapTable) : Tasks := ⟨ipcInit caps, fun _ => none, fun _ => [], fun _ => []⟩

def Tasks.settle (s : Tasks) (task : ℕ) (w : Waiter) (r : Attempt × Ports) : Tasks :=
  match r.1 with
  | .returned _ _ =>
    { s with
      ports := r.2
      waiting := update s.waiting task none
      received := note w.portId r.1.delivered s.received }
  | .yields =>
    { s with
      ports := r.2
      waiting := update s.waiting task (some { w with waited := (w.waited + 2) % uint32Size }) }

def Tasks.exec (s : Tasks) : TaskCall → Tasks
  | .create ownerTid => { s with ports := (ipcPortCreate ownerTid s.ports).2 }
  | .destroy portId => { s with ports := ipcPortDestroy portId s.ports }
  | .send portId msg =>
    let (err, ports) := ipcSend portId msg s.ports
    { s with
      ports := ports
      accepted := if err = .ok then note portId msg s.accepted else s.accepted }
  | .receive task portId hasOut timeoutMs =>
    match s.waiting task, findPort portId s.ports with
    | none, some i =>
      s.settle task ⟨portId, i, timeoutMs, 0⟩ (ipcReceive portId hasOut timeoutMs s.ports)
    | _, _ => s
  | .resume task =>
    match s.waiting task with
    | none => s
    | some w => s.settle task w (receiveAttempt w.slot w.timeoutMs w.waited s.ports)
  | .capabilities caps => { s with ports := { s.ports with caps := caps } }

def TaskStep (s : Tasks) (c : TaskCall) (s' : Tasks) : Prop := s' = s.exec c

def SlotReleased (s : Tasks) : TaskCall → Prop
  | .create _ => ∀ task w, s.waiting task = some w → allocPort s.ports ≠ some w.slot
  | _ => True

structure Addressed (s : Tasks) : Prop where
  ring : ∀ i, (s.ports.portTable i).queue.WellFormed ipcPortQueueSize
  queued : ∀ i, ∀ m ∈ (s.ports.portTable i).queue.contents ipcPortQueueSize,
    ∃ m' ∈ s.accepted (s.ports.portTable i).id, m'.body = m.body
  slot : ∀ task w, s.waiting task = some w → (s.ports.portTable w.slot).id = w.portId
  received : ∀ q, ∀ m ∈ s.received q, ∃ m' ∈ s.accepted q, m'.body = m.body

variable {s s' : Tasks} {task portId q : ℕ} {m : IpcMsg} {msg : Option IpcMsg} {w : Waiter}

theorem mem_note_of_mem {log : ℕ → List IpcMsg} (h : m ∈ log q) : m ∈ note portId msg log q := by
  rw [note, update_apply]
  split_ifs with hq
  · rw [← hq]
    exact mem_append_left _ h
  · exact h

namespace Addressed

theorem init (caps : CapTable) : Addressed (init caps) := by
  refine ⟨fun i => ⟨show 0 < ipcPortQueueSize by decide, Nat.zero_le _, rfl⟩, fun i m hm => ?_,
    fun task w hw => ?_, fun q m hm => ?_⟩
  · exact absurd hm not_mem_nil
  · cases hw
  · exact absurd hm not_mem_nil

section

variable (h : Addressed s)
include h

theorem of_slots {ports : Ports} {waiting : ℕ → Option Waiter}
    (hring : ∀ i, (ports.portTable i).queue.WellFormed ipcPortQueueSize)
    (hqueued : ∀ i, ∀ m ∈ (ports.portTable i).queue.contents ipcPortQueueSize,
      m ∈ (s.ports.portTable i).queue.contents ipcPortQueueSize ∧
        (ports.portTable i).id = (s.ports.portTable i).id)
    (hslot : ∀ task w, waiting task = some w → (ports.portTable w.slot).id = w.portId) :
    Addressed ⟨ports, waiting, s.accepted, s.received⟩ := by
  refine ⟨hring, fun i m hm => ?_, hslot, h.received⟩
  obtain ⟨hold, hid⟩ := hqueued i m hm
  change ∃ m' ∈ s.accepted (ports.portTable i).id, _
  rw [hid]
  exact h.queued i m hold

theorem create (ownerTid : BitVec 32) (hok : SlotReleased s (.create ownerTid)) :
    Addressed (s.exec (.create ownerTid)) := by
  simp only [exec, ipcPortCreate]
  split
  · exact h
  · rename_i i halloc
    generalize capCreate capTypePort portRights i ownerTid s.ports.caps = created
    generalize hp : (⟨s.ports.portNextId, created.1, ownerTid, (s.ports.portTable i).queue.clear, true, false⟩ :
      IpcPort) = p
    set ports := setPort i p s.ports
    have hqueue : p.queue = (s.ports.portTable i).queue.clear := hp ▸ rfl
    refine h.of_slots (fun j => ?_) (fun j m hm => ?_) fun task w hw => ?_
    · change (ports.portTable j).queue.WellFormed _
      rw [portTable_setPort]
      split
      · rw [hqueue]
        exact Base.Ring.wellFormed_clear (by decide)
      · exact h.ring j
    · change m ∈ (ports.portTable j).queue.contents _ at hm
      change _ ∧ (ports.portTable j).id = _
      rw [portTable_setPort] at hm ⊢
      split_ifs at hm with hne
      · rw [hqueue, Base.Ring.contents_clear] at hm
        exact absurd hm not_mem_nil
      · rw [if_neg hne]
        exact ⟨hm, rfl⟩
    · change (ports.portTable w.slot).id = w.portId
      have hne : w.slot ≠ i := fun heq => hok task w hw (heq ▸ halloc)
      rw [portTable_setPort, if_neg hne]
      exact h.slot task w hw

theorem destroy (portId : ℕ) : Addressed (s.exec (.destroy portId)) := by
  simp only [exec, ipcPortDestroy]
  split
  · exact h
  · rename_i i hfind
    generalize (if (s.ports.portTable i).cap ≠ 0 then _ else s.ports.caps) = caps
    have hslot : ∀ j, ((setPort i { s.ports.portTable i with closed := true, valid := false, cap := 0 }
        s.ports).portTable j).queue = (s.ports.portTable j).queue ∧
        ((setPort i { s.ports.portTable i with closed := true, valid := false, cap := 0 }
          s.ports).portTable j).id = (s.ports.portTable j).id := fun j => by
      rw [portTable_setPort]
      split_ifs with heq
      · rw [heq]
        exact ⟨rfl, rfl⟩
      · exact ⟨rfl, rfl⟩
    refine h.of_slots (fun j => (hslot j).1 ▸ h.ring j) (fun j m hm => ?_) fun task w hw => ?_
    · exact ⟨(hslot j).1 ▸ hm, (hslot j).2⟩
    · exact (hslot w.slot).2.trans (h.slot task w hw)

theorem send (portId : ℕ) (msg : Option IpcMsg) : Addressed (s.exec (.send portId msg)) := by
  simp only [exec]
  rcases ipcSend_cases portId msg s.ports with ⟨err, herr, hsend⟩ | ⟨i, msg, rfl, hfind, hroom, hsend⟩
  · rw [hsend, if_neg herr]
    exact h
  · rw [hsend, if_pos rfl]
    set ports := enqueued i msg s.ports
    have hid := (findPort_some hfind).2.2
    have hslot : ∀ j, (ports.portTable j).id = (s.ports.portTable j).id ∧
        (ports.portTable j).queue = if j = i then
          (s.ports.portTable i).queue.push ipcPortQueueSize { msg with msgId := s.ports.msgSeq }
          else (s.ports.portTable j).queue := fun j => by
      change ((setPort i _ s.ports).portTable j).id = _ ∧ ((setPort i _ s.ports).portTable j).queue = _
      rw [portTable_setPort]
      split_ifs with heq
      · rw [heq]
        exact ⟨rfl, rfl⟩
      · exact ⟨rfl, rfl⟩
    refine ⟨fun j => ?_, fun j m hm => ?_, fun task w hw => ?_, fun q m hm => ?_⟩
    · change (ports.portTable j).queue.WellFormed _
      rw [(hslot j).2]
      split
      · exact (h.ring i).push hroom _
      · exact h.ring j
    · change m ∈ (ports.portTable j).queue.contents _ at hm
      change ∃ m' ∈ note portId (some msg) s.accepted (ports.portTable j).id, _
      rw [(hslot j).1]
      rw [(hslot j).2] at hm
      have hold : m ∈ (s.ports.portTable j).queue.contents ipcPortQueueSize →
          ∃ m' ∈ note portId (some msg) s.accepted (s.ports.portTable j).id, m'.body = m.body := fun hm => by
        obtain ⟨m', hm', hbody⟩ := h.queued j m hm
        exact ⟨m', mem_note_of_mem hm', hbody⟩
      split_ifs at hm with heq
      · subst heq
        rw [Base.Ring.contents_push (h.ring j) hroom, mem_append, mem_singleton] at hm
        rcases hm with hm | rfl
        · exact hold hm
        · refine ⟨msg, ?_, rfl⟩
          rw [note, hid, update_self]
          exact mem_append_right _ (mem_singleton_self msg)
      · exact hold hm
    · exact (hslot w.slot).1.trans (h.slot task w hw)
    · obtain ⟨m', hm', hbody⟩ := h.received q m hm
      exact ⟨m', mem_note_of_mem hm', hbody⟩

theorem settle {timeoutMs waited : ℕ} (hw : (s.ports.portTable w.slot).id = w.portId) :
    Addressed (s.settle task w (receiveAttempt w.slot timeoutMs waited s.ports)) := by
  have hwaiting : ∀ o : Option Waiter, (∀ v, o = some v → v.slot = w.slot ∧ v.portId = w.portId) →
      ∀ t v, update s.waiting task o t = some v → (s.ports.portTable v.slot).id = v.portId :=
    fun o ho t v hv => by
      rw [update_apply] at hv
      split at hv
      · obtain ⟨hslot, hport⟩ := ho v hv
        rw [hslot, hport, hw]
      · exact h.slot t v hv
  rcases receiveAttempt_cases w.slot timeoutMs waited s.ports with
    ⟨hsome, hattempt⟩ | ⟨err, herr, hattempt⟩ | ⟨-, hattempt⟩
  · rw [hattempt]
    have hcons := Base.Ring.contents_eq_cons (h.ring w.slot) hsome
    have hslot : ∀ j, ((dequeued w.slot s.ports).portTable j).id = (s.ports.portTable j).id ∧
        ((dequeued w.slot s.ports).portTable j).queue = if j = w.slot then
          (s.ports.portTable w.slot).queue.pop ipcPortQueueSize else (s.ports.portTable j).queue := fun j => by
      rw [dequeued, portTable_setPort]
      split_ifs with heq
      · rw [heq]
        exact ⟨rfl, rfl⟩
      · exact ⟨rfl, rfl⟩
    have hpopped : Addressed ⟨dequeued w.slot s.ports, update s.waiting task none, s.accepted,
        s.received⟩ := by
      refine h.of_slots (fun j => ?_) (fun j m hm => ?_) fun t v hv => ?_
      · rw [(hslot j).2]
        split
        · exact (h.ring w.slot).pop hsome
        · exact h.ring j
      · rw [(hslot j).2] at hm
        refine ⟨?_, (hslot j).1⟩
        split_ifs at hm with heq
        · rw [heq, hcons]
          exact mem_cons_of_mem _ hm
        · exact hm
      · exact (hslot v.slot).1.trans (hwaiting none (fun _ hv => by cases hv) t v hv)
    refine ⟨hpopped.ring, hpopped.queued, hpopped.slot, fun q m hm => ?_⟩
    change m ∈ note w.portId (some (s.ports.portTable w.slot).queue.front) s.received q at hm
    rw [note, update_apply] at hm
    split_ifs at hm with hq
    · rw [mem_append, Option.toList_some, mem_singleton] at hm
      rcases hm with hm | rfl
      · exact h.received q m (hq ▸ hm)
      · rw [hq]
        change ∃ m' ∈ s.accepted w.portId, _
        rw [← hw]
        exact h.queued w.slot _ (hcons ▸ mem_cons_self)
    · exact h.received q m hm
  · rw [hattempt]
    have hnone : (Attempt.returned err none).delivered = none := by cases err <;> rfl
    refine ⟨h.ring, h.queued, hwaiting none fun v hv => absurd hv.symm (Option.some_ne_none v), fun q m hm => ?_⟩
    change m ∈ note w.portId (Attempt.returned err none).delivered s.received q at hm
    rw [hnone, note, Option.toList_none, append_nil, update_eq_self] at hm
    exact h.received q m hm
  · rw [hattempt]
    refine ⟨h.ring, h.queued, hwaiting _ fun v hv => ?_, h.received⟩
    obtain rfl := Option.some.inj hv
    exact ⟨rfl, rfl⟩

theorem step {c : TaskCall} (hok : SlotReleased s c) (hstep : TaskStep s c s') : Addressed s' := by
  subst hstep
  cases c with
  | create ownerTid => exact h.create ownerTid hok
  | destroy portId => exact h.destroy portId
  | send portId msg => exact h.send portId msg
  | receive task portId hasOut timeoutMs =>
    simp only [exec]
    split
    · rename_i i hwait hfind
      simp only [ipcReceive, hfind]
      split
      · exact h.settle (w := ⟨portId, i, timeoutMs, 0⟩) (findPort_some hfind).2.2
      · refine ⟨h.ring, h.queued, fun t v hv => ?_, fun q m hm => ?_⟩
        · change update s.waiting task none t = some v at hv
          rw [update_apply] at hv
          split at hv
          · cases hv
          · exact h.slot t v hv
        · change m ∈ note portId none s.received q at hm
          rw [note, Option.toList_none, append_nil, update_eq_self] at hm
          exact h.received q m hm
    · exact h
  | resume task =>
    simp only [exec]
    split
    · exact h
    · rename_i w hw
      exact h.settle (h.slot task w hw)
  | capabilities caps => exact ⟨h.ring, h.queued, h.slot, h.received⟩

end

end Addressed

/-- In every run in which no port is created in a slot at which a receiver is blocked, a receiver gets
what was accepted for its port, and going on changes no other port. -/
theorem receiver_gets_own_mail {caps : CapTable} {calls : List TaskCall}
    (hrun : Run (guarded SlotReleased TaskStep) (init caps) calls s) :
    (∀ q, ∀ m ∈ s.received q, ∃ m' ∈ s.accepted q, m'.body = m.body) ∧
    ∀ task w, s.waiting task = some w → ∀ j, (s.ports.portTable j).id ≠ w.portId →
      (s.exec (.resume task)).ports.portTable j = s.ports.portTable j := by
  have h : Addressed s := hrun.invariant (fun _ _ _ h hstep => h.step hstep.1 hstep.2) (.init caps)
  refine ⟨h.received, fun task w hw j hj => ?_⟩
  simp only [exec, hw]
  rcases receiveAttempt_cases w.slot w.timeoutMs w.waited s.ports with
    ⟨-, hattempt⟩ | ⟨err, -, hattempt⟩ | ⟨-, hattempt⟩
  · have hne : j ≠ w.slot := fun heq => hj (heq ▸ h.slot task w hw)
    rw [hattempt]
    change (dequeued w.slot s.ports).portTable j = _
    rw [dequeued, portTable_setPort, if_neg hne]
  · rw [hattempt]
    rfl
  · rw [hattempt]
    rfl

def waitingTask : Tasks :=
  [.create 7, .create 8, .receive 0 1 true ipcTimeoutForever, .send 1 (some .zero), .resume 0,
    .receive 0 1 true ipcTimeoutForever].foldl exec (init capTableInit)

/-- The waiting task has its own mail. -/
theorem receiver_gets_own_mail_waitingTask :
    (∀ q, ∀ m ∈ waitingTask.received q, ∃ m' ∈ waitingTask.accepted q, m'.body = m.body) ∧
    ∀ task w, waitingTask.waiting task = some w → ∀ j, (waitingTask.ports.portTable j).id ≠ w.portId →
      (waitingTask.exec (.resume task)).ports.portTable j = waitingTask.ports.portTable j := by
  have hrun : Run (guarded SlotReleased TaskStep) (init capTableInit)
      [.create 7, .create 8, .receive 0 1 true ipcTimeoutForever, .send 1 (some .zero), .resume 0,
        .receive 0 1 true ipcTimeoutForever] waitingTask :=
    .cons ⟨fun _ _ hw => (nomatch hw), rfl⟩ (.cons ⟨fun _ _ hw => (nomatch hw), rfl⟩ (.cons ⟨trivial, rfl⟩
      (.cons ⟨trivial, rfl⟩ (.cons ⟨trivial, rfl⟩ (.cons ⟨trivial, rfl⟩ (.nil _))))))
  exact receiver_gets_own_mail hrun

def recycledSlot : Tasks :=
  [.create 7, .receive 0 1 true ipcTimeoutForever, .destroy 1, .create 8, .send 2 (some .zero)].foldl
    exec (init capTableInit)

/-- The receiver at port 1 takes the message out of the queue of port 2, though none was ever accepted
for port 1. -/
theorem blocked_receiver_takes_foreign_mail :
    Run TaskStep (init capTableInit) [.create 7, .receive 0 1 true ipcTimeoutForever, .destroy 1,
      .create 8, .send 2 (some .zero)] recycledSlot ∧
    (recycledSlot.waiting 0).map Waiter.portId = some 1 ∧ ipcPending 2 recycledSlot.ports = 1 ∧
    ((recycledSlot.exec (.resume 0)).accepted 1).length = 0 ∧
    ((recycledSlot.exec (.resume 0)).received 1).length = 1 ∧
    ipcPending 2 (recycledSlot.exec (.resume 0)).ports = 0 :=
  ⟨.cons rfl (.cons rfl (.cons rfl (.cons rfl (.cons rfl (.nil _))))), by decide +kernel, by decide +kernel,
    by decide +kernel, by decide +kernel, by decide +kernel⟩

end AetherOs.Ipc
