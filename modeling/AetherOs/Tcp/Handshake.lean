import AetherOs.Base.Run
import AetherOs.Tcp.Steps

/-! # The handshake -/

namespace AetherOs.Tcp

open Base TcpTable

variable {c : Call} {s s' s'' : TcpSocket} {t t' : TcpTable} {i k n now src port : ℕ} {bytes : List UInt8}
  {seg : Segment}

def Quiet (s s' : TcpSocket) : Prop :=
  (s'.used = true → s.used = true ∧ (s'.state = .synRcvd ∨ s'.state = .synSent →
    s'.state = s.state ∧ s'.txSeq = s.txSeq ∧ s'.rxSeq = s.rxSeq)) ∧
  (s'.state = .established → s.state = .established)

def Belongs (src : ℕ) (seg : Segment) (s : TcpSocket) : Prop :=
  s.localPort = seg.dstPort ∧ s.remotePort = seg.srcPort ∧ s.remoteIp = src

inductive SlotStep (c : Call) (s s' : TcpSocket) : ℕ → Prop
  | quiet (h : Quiet s s') : SlotStep c s s' 0
  | listen (hfree : s.used = false) (hstate : s'.state = .listen) : SlotStep c s s' 0
  | active {ip port now : ℕ} (hfree : s.used = false) (hcall : c = .connect ip port now)
      (hstate : s'.state = .synSent) (htx : s'.txSeq = (randSeq now + 1) % uintSize) : SlotStep c s s' 0
  | passive {src now : ℕ} {bytes : List UInt8} {seg : Segment} (hfree : s.used = false) (hopen : s'.used = true)
      (hcall : c = .arrive src bytes now) (hparse : parseSegment bytes = some seg) (hstate : s'.state = .synRcvd)
      (htx : s'.txSeq = (randSeq now + 1) % uintSize) (hrx : s'.rxSeq = (seg.seq + 1) % uintSize) : SlotStep c s s' 0
  | answered {src now : ℕ} {bytes : List UInt8} {seg : Segment} (hused : s.used = true) (hstate : s.state = .synSent)
      (hcall : c = .arrive src bytes now) (hparse : parseSegment bytes = some seg) (hfrom : Belongs src seg s)
      (hflags : hasFlag seg.flags tcpAck = true ∧ hasFlag seg.flags tcpSyn = true) (hack : seg.ack = s.txSeq)
      (hrx : s'.rxSeq = (seg.seq + 1) % uintSize) (hdone : s'.state = .established) : SlotStep c s s' 0
  | accepted {src now : ℕ} {bytes : List UInt8} {seg : Segment} (hused : s.used = true) (hstate : s.state = .synRcvd)
      (hcall : c = .arrive src bytes now) (hparse : parseSegment bytes = some seg) (hfrom : Belongs src seg s)
      (hflags : hasFlag seg.flags tcpAck = true) (hack : seg.ack = s.txSeq) (hrx : s'.rxSeq = s.rxSeq)
      (hdone : s'.state = .established) : SlotStep c s s' 1

theorem Quiet.refl : Quiet s s := ⟨fun hused => ⟨hused, fun _ => ⟨rfl, rfl, rfl⟩⟩, id⟩

theorem Quiet.of_eq (hused : s'.used = s.used) (hstate : s'.state = s.state) (htx : s'.txSeq = s.txSeq)
    (hrx : s'.rxSeq = s.rxSeq) : Quiet s s' :=
  ⟨fun h => ⟨hused ▸ h, fun _ => ⟨hstate, htx, hrx⟩⟩, fun h => hstate ▸ h⟩

theorem Quiet.trans (h : Quiet s s') (h' : Quiet s' s'') : Quiet s s'' := by
  refine ⟨fun hused => ?_, fun hstate => h.2 (h'.2 hstate)⟩
  obtain ⟨hused', hseq'⟩ := h'.1 hused
  obtain ⟨hused'', hseq⟩ := h.1 hused'
  refine ⟨hused'', fun hopening => ?_⟩
  obtain ⟨hstate', htx', hrx'⟩ := hseq' hopening
  obtain ⟨hstate, htx, hrx⟩ := hseq (hstate' ▸ hopening)
  exact ⟨hstate'.trans hstate, htx'.trans htx, hrx'.trans hrx⟩

theorem Quiet.free (hused : s'.used = false) (hstate : s'.state = s.state ∨ s'.state ≠ .established) : Quiet s s' := by
  refine ⟨fun hbad => absurd (hused.symm.trans hbad) Bool.false_ne_true, fun hest => ?_⟩
  rcases hstate with heq | hne
  · exact heq ▸ hest
  · exact absurd hest hne

theorem Quiet.beyond (hused : s'.used → s.used)
    (hstate : s'.state ≠ .synRcvd ∧ s'.state ≠ .synSent) (hest : s'.state = .established → s.state = .established) :
    Quiet s s' :=
  ⟨fun h => ⟨hused h, fun hbad => absurd hbad (not_or.mpr hstate)⟩, hest⟩

def notices (k : ℕ) (t t' : TcpTable) : ℕ :=
  (t'.accepts.drop t.accepts.length).countP fun a => decide (a.slot = k)

theorem notices_eq_zero (h : t'.accepts = t.accepts) : notices k t t' = 0 := by
  rw [notices, h, List.drop_length]
  rfl

theorem slotStep_one (honly : Only i t t') (h : SlotStep c (t.sockets i) (t'.sockets i) 0) :
    SlotStep c (t.sockets k) (t'.sockets k) (notices k t t') := by
  rw [notices_eq_zero honly.accepts]
  by_cases hk : k = i
  · rw [hk]
    exact h
  · rw [honly.sockets k hk]
    exact .quiet .refl

theorem slotStep_set (honly : Only i t t') (h : SlotStep c (t.sockets i) s' 0) :
    SlotStep c (t.sockets k) ((t'.setSocket i s').sockets k) (notices k t (t'.setSocket i s')) := by
  refine slotStep_one honly.set ?_
  rwa [sockets_setSocket_self]

theorem slotStep_refl : SlotStep c (t.sockets k) (t.sockets k) (notices k t t) := by
  rw [notices_eq_zero rfl]
  exact .quiet .refl

theorem tcpListen_slotStep : SlotStep (.listen port) (t.sockets k) ((tcpListen port t).2.sockets k)
    (notices k t (tcpListen port t).2) := by
  rw [tcpListen]
  split
  · exact slotStep_refl
  · split
    · exact slotStep_refl
    · rename_i hfree
      exact slotStep_set .refl (.listen (unused_of_findFree hfree) rfl)

theorem tcpConnect_slotStep {ip : ℕ} : SlotStep (.connect ip port now) (t.sockets k)
    ((tcpConnect ip port now t).2.sockets k) (notices k t (tcpConnect ip port now t).2) := by
  rcases tcpConnect_cases ip port now t with hnone | ⟨i, t', hfree, hopened, hfail | hdone⟩
  · rw [hnone]
    exact slotStep_refl
  · rw [hfail]
    exact slotStep_set hopened.only (.quiet (.free rfl (.inr (hopened.keeps.state.trans_ne TcpState.noConfusion))))
  · rw [hdone]
    exact slotStep_set hopened.only (.active (unused_of_findFree hfree) rfl hopened.keeps.state hopened.txSeq)

theorem tcpConnectTimeout_slotStep : SlotStep c (t.sockets k) ((tcpConnectTimeout i t).sockets k)
    (notices k t (tcpConnectTimeout i t)) := by
  exact slotStep_set .refl (.quiet (.free rfl (.inl rfl)))

theorem tcpSend_slotStep {sock : ℤ} {data : List UInt8} : SlotStep c (t.sockets k)
    ((tcpSend sock data now t).2.sockets k) (notices k t (tcpSend sock data now t).2) := by
  rw [tcpSend]
  split
  · exact slotStep_refl
  · rename_i i _
    split_ifs with hest
    · have hkeeps : Keeps (t.sockets i) ((tcpSendSegment i (tcpAck ||| tcpPsh) data now t).2.sockets i) :=
        keeps_tcpSendSegment
      refine slotStep_one Only.refl.send (.quiet (.beyond (fun h => hkeeps.used ▸ h) ?_ fun _ => hest))
      rw [hkeeps.state, hest]
      exact ⟨TcpState.noConfusion, TcpState.noConfusion⟩
    · exact slotStep_refl

theorem quiet_readRing {m : ℕ} : Quiet s (s.readRing m).2 := by
  induction m generalizing s with
  | zero => exact .refl
  | succ m ih =>
    rw [TcpSocket.readRing]
    generalize hnext : ({ s with rxHead := (s.rxHead + 1) % wordSize } : TcpSocket) = s'
    have hfirst : Quiet s s' := by
      subst hnext
      exact .of_eq rfl rfl rfl rfl
    exact hfirst.trans ih

theorem tcpRecv_slotStep {sock : ℤ} {len : ℕ} : SlotStep c (t.sockets k) ((tcpRecv sock len t).2.sockets k)
    (notices k t (tcpRecv sock len t).2) := by
  rcases tcpRecv_cases sock len t with ⟨_, hrecv⟩ | ⟨i, n, _, _, hrecv⟩
  · rw [hrecv]
    exact slotStep_refl
  · rw [hrecv]
    exact slotStep_set .refl (.quiet quiet_readRing)

theorem tcpClose_slotStep {sock : ℤ} : SlotStep c (t.sockets k) ((tcpClose sock now t).sockets k)
    (notices k t (tcpClose sock now t)) := by
  rw [tcpClose]
  split
  · exact slotStep_refl
  · refine slotStep_set ?_ (.quiet (.free rfl (.inr TcpState.noConfusion)))
    split
    · exact Only.refl.send.set
    · exact .refl

theorem tickSocket_quiet : Quiet (t.sockets k) ((tickSocket now t i).sockets k) := by
  by_cases hk : k = i
  · subst hk
    rw [sockets_tickSocket_self, TcpSocket.ticked]
    split
    · split
      · exact .free rfl (.inr TcpState.noConfusion)
      · exact .of_eq rfl rfl rfl rfl
    · exact .refl
  · rw [sockets_tickSocket_of_ne hk]
    exact .refl

theorem accepts_tickSocket : (tickSocket now t i).accepts = t.accepts := by
  rw [tickSocket]
  split
  · split <;> rfl
  · rfl

theorem foldl_tickSocket_quiet (is : List ℕ) (t : TcpTable) :
    Quiet (t.sockets k) ((is.foldl (tickSocket now) t).sockets k) ∧
      (is.foldl (tickSocket now) t).accepts = t.accepts := by
  induction is generalizing t with
  | nil => exact ⟨.refl, rfl⟩
  | cons i is ih =>
    obtain ⟨hquiet, haccepts⟩ := ih (tickSocket now t i)
    exact ⟨tickSocket_quiet.trans hquiet, haccepts.trans accepts_tickSocket⟩

theorem tcpTick_slotStep : SlotStep c (t.sockets k) ((tcpTick now t).sockets k) (notices k t (tcpTick now t)) := by
  obtain ⟨hquiet, haccepts⟩ := @foldl_tickSocket_quiet k now (List.range maxSockets) t
  rw [tcpTick, notices_eq_zero haccepts]
  exact .quiet hquiet

theorem receiveSyn_slotStep (hparse : parseSegment bytes = some seg) : SlotStep (.arrive src bytes now) (t.sockets k)
    ((receiveSyn src seg now t).sockets k) (notices k t (receiveSyn src seg now t)) := by
  rcases receiveSyn_cases src seg now t with hsame | ⟨i, t', -, -, hfree, hopened, hdone⟩
  · rw [hsame]
    exact slotStep_refl
  · rw [hdone]
    exact slotStep_set hopened.only (.passive (unused_of_findFree hfree) hopened.keeps.used rfl hparse
      hopened.keeps.state hopened.txSeq hopened.keeps.rxSeq)

theorem state_receiveEstablished (hest : (t.sockets i).state = .established) :
    ((receiveEstablished i seg now t).sockets i).state ≠ .synRcvd ∧
      ((receiveEstablished i seg now t).sockets i).state ≠ .synSent := by
  rw [receiveEstablished]
  split_ifs
  · rw [sockets_setSocket_self]
    exact ⟨TcpState.noConfusion, TcpState.noConfusion⟩
  · rw [receiveFin, sockets_setSocket_self]
    exact ⟨TcpState.noConfusion, TcpState.noConfusion⟩
  · rw [state_receiveData, sockets_setSocket_self, keeps_rtxClearIfAcked.state, hest]
    exact ⟨TcpState.noConfusion, TcpState.noConfusion⟩
  · rw [state_receiveData, hest]
    exact ⟨TcpState.noConfusion, TcpState.noConfusion⟩

section

variable (hparse : parseSegment bytes = some seg) (hused : (t.sockets i).used = true) (hfrom : Belongs src seg (t.sockets i))
include hparse hused hfrom

theorem receiveSynRcvd_slotStep (hstate : (t.sockets i).state = .synRcvd) :
    SlotStep (.arrive src bytes now) (t.sockets k) ((receiveSynRcvd i seg t).sockets k)
      (notices k t (receiveSynRcvd i seg t)) := by
  rw [receiveSynRcvd]
  dsimp only
  split_ifs with hrst hack
  · exact slotStep_set .refl (.quiet (.free rfl (.inr TcpState.noConfusion)))
  · rw [notices, List.drop_left]
    by_cases hk : k = i
    · subst hk
      rw [List.countP_singleton, if_pos (decide_eq_true rfl)]
      dsimp only
      rw [sockets_setSocket_self]
      exact .accepted hused hstate rfl hparse hfrom hack.1 hack.2 keeps_rtxClearIfAcked.rxSeq rfl
    · rw [List.countP_singleton, if_neg (by simpa using fun h : i = k => hk h.symm)]
      dsimp only
      rw [sockets_setSocket_of_ne hk]
      exact .quiet .refl
  · exact slotStep_refl

theorem receiveSynSent_slotStep (hstate : (t.sockets i).state = .synSent) :
    SlotStep (.arrive src bytes now) (t.sockets k) ((receiveSynSent i seg now t).sockets k)
      (notices k t (receiveSynSent i seg now t)) := by
  rw [receiveSynSent]
  dsimp only
  split_ifs with hflags hack
  · refine slotStep_one Only.refl.set.send
      (.answered hused hstate rfl hparse hfrom (hasFlag_of_both hflags) hack ?_ ?_)
    · rw [keeps_tcpSendSegment.rxSeq, sockets_setSocket_self]
    · rw [keeps_tcpSendSegment.state, sockets_setSocket_self]
  · exact slotStep_refl
  · exact slotStep_refl

theorem receiveOn_slotStep :
    SlotStep (.arrive src bytes now) (t.sockets k) ((receiveOn i seg now t).sockets k)
      (notices k t (receiveOn i seg now t)) := by
  rw [receiveOn]
  split
  · rename_i hstate
    exact receiveSynRcvd_slotStep hparse hused hfrom hstate
  · rename_i hstate
    exact receiveSynSent_slotStep hparse hused hfrom hstate
  · rename_i hstate
    exact slotStep_one moves_receiveEstablished.toOnly
      (.quiet (.beyond (fun _ => hused) (state_receiveEstablished hstate) fun _ => hstate))
  · split
    · exact slotStep_set .refl (.quiet (.beyond (fun _ => hused) ⟨TcpState.noConfusion, TcpState.noConfusion⟩
        fun h => TcpState.noConfusion h))
    · exact slotStep_refl
  · exact slotStep_set .refl (.quiet (.free rfl (.inr TcpState.noConfusion)))
  · exact slotStep_refl
  · exact slotStep_refl
  · exact slotStep_refl

end

theorem exec_slotStep (c : Call) (t : TcpTable) (k : ℕ) :
    SlotStep c (t.sockets k) ((exec c t).sockets k) (notices k t (exec c t)) := by
  cases c with
  | listen port => exact tcpListen_slotStep
  | connect ip port now => exact tcpConnect_slotStep
  | connectTimeout slot => exact tcpConnectTimeout_slotStep
  | send sock data now => exact tcpSend_slotStep
  | recv sock len => exact tcpRecv_slotStep
  | close sock now => exact tcpClose_slotStep
  | tick now => exact tcpTick_slotStep
  | arrive src bytes now =>
    rw [exec, tcpReceive]
    split
    · exact slotStep_refl
    · rename_i seg hparse
      split
      · exact receiveSyn_slotStep hparse
      · rename_i i hfound
        obtain ⟨hused, hfrom⟩ := findConnected_some hfound
        exact receiveOn_slotStep hparse hused hfrom

structure Opening where
  passive : Bool
  isn : ℕ
  peerSyn : ℕ
  notified : ℕ

def openedBy : Call → Opening
  | .arrive _ bytes now =>
    { passive := true, isn := randSeq now, peerSyn := ((parseSegment bytes).map Segment.seq).getD 0, notified := 0 }
  | .connect _ _ now => { passive := false, isn := randSeq now, peerSyn := 0, notified := 0 }
  | _ => { passive := false, isn := 0, peerSyn := 0, notified := 0 }

structure Observed where
  table : TcpTable
  openings : ℕ → Opening

def observe (c : Call) (o : Observed) : Observed where
  table := exec c o.table
  openings k :=
    let opening := if (o.table.sockets k).used = false ∧ ((exec c o.table).sockets k).used = true then openedBy c
      else o.openings k
    { opening with notified := opening.notified + notices k o.table (exec c o.table) }

def start (ip : ℕ) (link : ℕ → Bool) : Observed where
  table := ⟨fun _ => .zero, 49152, ip, link, [], []⟩
  openings _ := ⟨false, 0, 0, 0⟩

structure Tracks (s : TcpSocket) (op : Opening) : Prop where
  notified : op.notified ≤ 1
  synRcvd : s.used = true → s.state = .synRcvd → op.passive = true ∧ s.txSeq = (op.isn + 1) % uintSize ∧
    s.rxSeq = (op.peerSyn + 1) % uintSize ∧ op.notified = 0
  synSent : s.used = true → s.state = .synSent → op.passive = false ∧ s.txSeq = (op.isn + 1) % uintSize

theorem notified_openedBy : (openedBy c).notified = 0 := by
  cases c <;> rfl

theorem SlotStep.tracks {op : Opening} (h : SlotStep c s s' n) (htracks : Tracks s op) :
    Tracks s' (let opening := if s.used = false ∧ s'.used = true then openedBy c else op
      { opening with notified := opening.notified + n }) := by
  cases h with
  | quiet hquiet =>
    have hkept : ¬ (s.used = false ∧ s'.used) := by
      rintro ⟨hfree, hopen⟩
      exact absurd (hfree.symm.trans (hquiet.1 hopen).1) Bool.false_ne_true
    rw [if_neg hkept]
    refine ⟨htracks.notified, fun hused hstate => ?_, fun hused hstate => ?_⟩
    · obtain ⟨hused', hseq⟩ := hquiet.1 hused
      obtain ⟨hstate', htx, hrx⟩ := hseq (.inl hstate)
      rw [htx, hrx]
      exact htracks.synRcvd hused' (hstate'.symm.trans hstate)
    · obtain ⟨hused', hseq⟩ := hquiet.1 hused
      obtain ⟨hstate', htx, -⟩ := hseq (.inr hstate)
      rw [htx]
      exact htracks.synSent hused' (hstate'.symm.trans hstate)
  | listen hfree hstate =>
    refine ⟨?_, fun _ hbad => TcpState.noConfusion (hstate.symm.trans hbad),
      fun _ hbad => TcpState.noConfusion (hstate.symm.trans hbad)⟩
    dsimp only
    split
    · exact notified_openedBy.le.trans (Nat.zero_le 1)
    · exact htracks.notified
  | active hfree hcall hstate htx =>
    subst hcall
    by_cases hopen : s'.used
    · rw [if_pos ⟨hfree, hopen⟩]
      exact ⟨Nat.zero_le 1, fun _ hbad => TcpState.noConfusion (hstate.symm.trans hbad), fun _ _ => ⟨rfl, htx⟩⟩
    · rw [if_neg fun hbad => hopen hbad.2]
      exact ⟨htracks.notified, fun hbad => absurd hbad hopen, fun hbad => absurd hbad hopen⟩
  | passive hfree hopen hcall hparse hstate htx hrx =>
    subst hcall
    rw [if_pos ⟨hfree, hopen⟩]
    refine ⟨Nat.zero_le 1, fun _ _ => ⟨rfl, htx, ?_, rfl⟩, fun _ hbad => TcpState.noConfusion (hstate.symm.trans hbad)⟩
    rw [hrx, openedBy, hparse]
    rfl
  | answered hused _ _ _ _ _ _ _ hdone =>
    rw [if_neg fun hbad => Bool.false_ne_true (hbad.1.symm.trans hused)]
    exact ⟨htracks.notified, fun _ hbad => TcpState.noConfusion (hdone.symm.trans hbad),
      fun _ hbad => TcpState.noConfusion (hdone.symm.trans hbad)⟩
  | accepted hused hstate _ _ _ _ _ _ hdone =>
    rw [if_neg fun hbad => Bool.false_ne_true (hbad.1.symm.trans hused)]
    refine ⟨?_, fun _ hbad => TcpState.noConfusion (hdone.symm.trans hbad),
      fun _ hbad => TcpState.noConfusion (hdone.symm.trans hbad)⟩
    change op.notified + 1 ≤ 1
    rw [(htracks.synRcvd hused hstate).2.2.2]

theorem tracks_run {ip : ℕ} {link : ℕ → Bool} {cs : List Call} {o : Observed}
    (hrun : Run (fun o c o' => o' = observe c o) (start ip link) cs o) (k : ℕ) :
    Tracks (o.table.sockets k) (o.openings k) := by
  have hall : ∀ k, Tracks (o.table.sockets k) (o.openings k) := by
    refine hrun.invariant (I := fun o => ∀ k, Tracks (o.table.sockets k) (o.openings k)) ?_ ?_
    · rintro o c _ htracks rfl k
      exact (exec_slotStep c o.table k).tracks (htracks k)
    · exact fun k => ⟨Nat.zero_le 1, fun hbad => Bool.noConfusion hbad, fun hbad => Bool.noConfusion hbad⟩
  exact hall k

def Entered (c : Call) (op : Opening) (s s' : TcpSocket) : Prop :=
  ∃ src bytes now seg, c = .arrive src bytes now ∧ parseSegment bytes = some seg ∧ Belongs src seg s ∧
    hasFlag seg.flags tcpAck = true ∧ seg.ack = (op.isn + 1) % uintSize ∧
    (op.passive = false → hasFlag seg.flags tcpSyn = true) ∧
    s'.rxSeq = ((if op.passive then op.peerSyn else seg.seq) + 1) % uintSize

def synArrived : Observed :=
  observe (.arrive 9 (bareSegment [0, 0, 0, 5] [0, 0, 0, 0] 2) 0) (observe (.listen 80) (start 7 fun _ => true))

end AetherOs.Tcp
