import AetherOs.Tcp.Model

/-! # Calls of the TCP layer -/

namespace AetherOs.Tcp

open Base TcpTable TcpSocket

variable {s s' : TcpSocket} {t t' : TcpTable} {flags : BitVec 8} {data : List UInt8} {i j now : ℕ}

inductive Call
  | listen (port : ℕ)
  | connect (ip port now : ℕ)
  | connectTimeout (slot : ℕ)
  | send (sock : ℤ) (data : List UInt8) (now : ℕ)
  | recv (sock : ℤ) (len : ℕ)
  | close (sock : ℤ) (now : ℕ)
  | tick (now : ℕ)
  | arrive (src : ℕ) (bytes : List UInt8) (now : ℕ)

def exec : Call → TcpTable → TcpTable
  | .listen port, t => (tcpListen port t).2
  | .connect ip port now, t => (tcpConnect ip port now t).2
  | .connectTimeout slot, t => tcpConnectTimeout slot t
  | .send sock data now, t => (tcpSend sock data now t).2
  | .recv sock len, t => (tcpRecv sock len t).2
  | .close sock now, t => tcpClose sock now t
  | .tick now, t => tcpTick now t
  | .arrive src bytes now, t => tcpReceive src bytes now t

structure Keeps (s s' : TcpSocket) : Prop where
  used : s'.used = s.used
  state : s'.state = s.state
  localPort : s'.localPort = s.localPort
  remotePort : s'.remotePort = s.remotePort
  remoteIp : s'.remoteIp = s.remoteIp
  rxSeq : s'.rxSeq = s.rxSeq
  rxBuf : s'.rxBuf = s.rxBuf
  rxHead : s'.rxHead = s.rxHead
  rxTail : s'.rxTail = s.rxTail

theorem Keeps.refl : Keeps s s := ⟨rfl, rfl, rfl, rfl, rfl, rfl, rfl, rfl, rfl⟩

/-- Local port, remote address and remote port. -/
def TcpSocket.endpoint (s : TcpSocket) : ℕ × ℕ × ℕ := (s.localPort, s.remoteIp, s.remotePort)

theorem Keeps.endpoint (h : Keeps s s') : s'.endpoint = s.endpoint := by
  rw [TcpSocket.endpoint, h.localPort, h.remoteIp, h.remotePort, TcpSocket.endpoint]

theorem keeps_afterSend : Keeps s (s.afterSend flags data now) := by
  rw [afterSend]
  split <;> exact ⟨rfl, rfl, rfl, rfl, rfl, rfl, rfl, rfl, rfl⟩

theorem keeps_rtxClearIfAcked {ack : ℕ} : Keeps s (s.rtxClearIfAcked ack) := by
  rw [rtxClearIfAcked]
  split_ifs <;> exact ⟨rfl, rfl, rfl, rfl, rfl, rfl, rfl, rfl, rfl⟩

theorem keeps_tcpSendSegment : Keeps (t.sockets i) ((tcpSendSegment i flags data now t).2.sockets i) := by
  rw [tcpSendSegment]
  split
  · rw [sockets_setSocket_self]
    exact keeps_afterSend
  · exact .refl

/-- At most slot `i` and the packets differ. -/
structure Only (i : ℕ) (t t' : TcpTable) : Prop where
  sockets : ∀ j, j ≠ i → t'.sockets j = t.sockets j
  accepts : t'.accepts = t.accepts

theorem Only.refl : Only i t t := ⟨fun _ _ => rfl, rfl⟩

theorem Only.set (h : Only i t t') : Only i t (t'.setSocket i s) :=
  ⟨fun j hj => (sockets_setSocket_of_ne hj).trans (h.sockets j hj), h.accepts⟩

theorem Only.send (h : Only i t t') : Only i t (tcpSendSegment i flags data now t').2 := by
  have hsent {p : Packet} : Only i t (t'.transmit p) := ⟨h.sockets, h.accepts⟩
  rw [tcpSendSegment]
  split
  · exact hsent.set
  · exact hsent

theorem txSeq_tcpSendSegment_nil :
    ((tcpSendSegment i flags [] now t).2.sockets i).txSeq % uintSize = (t.sockets i).txSeq % uintSize := by
  have hafter : ((t.sockets i).afterSend flags [] now).txSeq = (t.sockets i).txSeq % uintSize := by
    rw [afterSend]
    split <;> rfl
  rw [tcpSendSegment]
  split
  · rw [sockets_setSocket_self, hafter, Nat.mod_mod]
  · rfl

theorem used_of_getSocket {sock : ℤ} (h : getSocket sock t = some i) : (t.sockets i).used := by
  rw [getSocket] at h
  split_ifs at h with hrange hused
  obtain rfl := Option.some.inj h
  exact Bool.eq_true_of_not_eq_false hused

theorem eq_of_getSocket {sock : ℤ} (h : getSocket sock t = some i) : sock = i := by
  rw [getSocket] at h
  split_ifs at h with hrange hused
  obtain rfl := Option.some.inj h
  omega

theorem unused_of_findFree (h : findFree t = some i) : (t.sockets i).used = false := by
  simpa using (search_some h).2.2.1

theorem findConnected_some {src : ℕ} {seg : Segment} (h : findConnected src seg t = some i) :
    (t.sockets i).used ∧ (t.sockets i).localPort = seg.dstPort ∧ (t.sockets i).remotePort = seg.srcPort ∧
      (t.sockets i).remoteIp = src := by
  simpa [and_assoc] using (search_some h).2.2.1

theorem foldl_pushByte_eq (data : List UInt8) (s : TcpSocket) :
    ∃ buf tail, data.foldl pushByte s = { s with rxBuf := buf, rxTail := tail } := by
  induction data generalizing s with
  | nil => exact ⟨s.rxBuf, s.rxTail, rfl⟩
  | cons b data ih =>
    obtain ⟨buf, tail, heq⟩ := ih (s.pushByte b)
    refine ⟨buf, tail, ?_⟩
    rw [List.foldl_cons, heq, pushByte]
    split <;> rfl

structure Moves (i : ℕ) (t t' : TcpTable) : Prop extends Only i t t' where
  endpoint : (t'.sockets i).endpoint = (t.sockets i).endpoint

theorem Moves.refl : Moves i t t := ⟨.refl, rfl⟩

theorem Moves.set (h : Moves i t t') (hs : s.endpoint = (t'.sockets i).endpoint) : Moves i t (t'.setSocket i s) :=
  ⟨h.toOnly.set, by rw [sockets_setSocket_self, hs, h.endpoint]⟩

theorem Moves.send (h : Moves i t t') : Moves i t (tcpSendSegment i flags data now t').2 :=
  ⟨h.toOnly.send, keeps_tcpSendSegment.endpoint.trans h.endpoint⟩

theorem Moves.receiveData {seg : Segment} (h : Moves i t t') : Moves i t (receiveData i seg now t') := by
  rw [Tcp.receiveData]
  split
  · obtain ⟨buf, tail, heq⟩ := foldl_pushByte_eq seg.data (t'.sockets i)
    refine (h.set ?_).send
    rw [heq]
    rfl
  · exact h

theorem keeps_receiveData {seg : Segment} (hdata : 0 < seg.data.length) (hseq : seg.seq = (t.sockets i).rxSeq) :
    Keeps { seg.data.foldl pushByte (t.sockets i) with
      rxSeq := ((t.sockets i).rxSeq + seg.data.length) % uintSize } ((receiveData i seg now t).sockets i) := by
  have hrx : (seg.data.foldl pushByte (t.sockets i)).rxSeq = (t.sockets i).rxSeq := by
    obtain ⟨buf, tail, heq⟩ := foldl_pushByte_eq seg.data (t.sockets i)
    rw [heq]
  rw [receiveData, if_pos ⟨hdata, hseq⟩, ← hrx]
  dsimp only
  generalize ({ seg.data.foldl pushByte (t.sockets i) with
    rxSeq := ((seg.data.foldl pushByte (t.sockets i)).rxSeq + seg.data.length) % uintSize } : TcpSocket) = s
  have hsent : Keeps ((t.setSocket i s).sockets i) ((tcpSendSegment i tcpAck [] now (t.setSocket i s)).2.sockets i) :=
    keeps_tcpSendSegment
  rwa [sockets_setSocket_self] at hsent

theorem state_receiveData {seg : Segment} : ((receiveData i seg now t).sockets i).state = (t.sockets i).state := by
  by_cases htaken : 0 < seg.data.length ∧ seg.seq = (t.sockets i).rxSeq
  · obtain ⟨buf, tail, heq⟩ := foldl_pushByte_eq seg.data (t.sockets i)
    rw [(keeps_receiveData htaken.1 htaken.2).state, heq]
  · rw [receiveData, if_neg htaken]

theorem hasFlag_of_both {flags : BitVec 8} (h : flags &&& (tcpSyn ||| tcpAck) = tcpSyn ||| tcpAck) :
    hasFlag flags tcpAck ∧ hasFlag flags tcpSyn := by
  have hpart : ∀ flag : BitVec 8, (tcpSyn ||| tcpAck) &&& flag = flag → flag ≠ 0 → hasFlag flags flag := by
    intro flag hsub hne
    rw [hasFlag, decide_eq_true_iff, ← hsub, ← BitVec.and_assoc, h, hsub]
    exact hne
  exact ⟨hpart tcpAck (by decide) (by decide), hpart tcpSyn (by decide) (by decide)⟩

theorem moves_receiveEstablished {seg : Segment} : Moves i t (receiveEstablished i seg now t) := by
  rw [receiveEstablished]
  split_ifs
  · exact .set .refl rfl
  · exact .set (.send (.send (.set .refl rfl))) rfl
  · exact .receiveData (.set .refl keeps_rtxClearIfAcked.endpoint)
  · exact Moves.refl.receiveData

theorem moves_receiveOn {seg : Segment} (hstate : (t.sockets i).state ≠ .synRcvd) :
    Moves i t (receiveOn i seg now t) := by
  rw [receiveOn]
  split
  · rename_i hbad
    exact absurd hbad hstate
  · rw [receiveSynSent]
    dsimp only
    split_ifs
    · exact .send (.set .refl keeps_rtxClearIfAcked.endpoint)
    · exact .refl
    · exact .refl
  · exact moves_receiveEstablished
  · split
    · exact .set .refl rfl
    · exact .refl
  · exact .set .refl rfl
  · exact .refl
  · exact .refl
  · exact .refl

theorem sockets_receiveOn {seg : Segment} : (∀ j, j ≠ i → (receiveOn i seg now t).sockets j = t.sockets j) ∧
    ((receiveOn i seg now t).sockets i).endpoint = (t.sockets i).endpoint := by
  by_cases hstate : (t.sockets i).state = .synRcvd
  · have hset (s : TcpSocket) (hs : s.endpoint = (t.sockets i).endpoint) :
        (∀ j, j ≠ i → (t.setSocket i s).sockets j = t.sockets j) ∧
          ((t.setSocket i s).sockets i).endpoint = (t.sockets i).endpoint :=
      ⟨fun _ => sockets_setSocket_of_ne, by rw [sockets_setSocket_self, hs]⟩
    rw [receiveOn, hstate]
    dsimp only [receiveSynRcvd]
    split_ifs
    · exact hset _ rfl
    · exact hset _ keeps_rtxClearIfAcked.endpoint
    · exact ⟨fun _ _ => rfl, rfl⟩
  · exact ⟨(moves_receiveOn hstate).sockets, (moves_receiveOn hstate).endpoint⟩

theorem sockets_receiveOn_of_ne {seg : Segment} (h : j ≠ i) : (receiveOn i seg now t).sockets j = t.sockets j :=
  sockets_receiveOn.1 j h

theorem tcpRecv_cases (sock : ℤ) (len : ℕ) (t : TcpTable) :
    (getSocket sock t = none ∧ tcpRecv sock len t = ((-1, []), t)) ∨
    ∃ i n, getSocket sock t = some i ∧ n ≤ (t.sockets i).available ∧
      tcpRecv sock len t = (((n : ℤ), ((t.sockets i).readRing n).1), t.setSocket i ((t.sockets i).readRing n).2) := by
  rw [tcpRecv]
  cases hget : getSocket sock t with
  | none => exact .inl ⟨rfl, rfl⟩
  | some i =>
    refine .inr ⟨i, ?_⟩
    dsimp only
    generalize (t.sockets i).available = m
    by_cases hzero : m = 0
    · refine ⟨0, rfl, Nat.zero_le m, ?_⟩
      rw [if_pos hzero, readRing, setSocket, Function.update_eq_self]
      rfl
    · rw [if_neg hzero]
      refine ⟨_, rfl, ?_, rfl⟩
      split <;> omega

theorem txSeq_bumpSeq (h : s'.txSeq % uintSize = s.txSeq % uintSize) : s'.bumpSeq.txSeq = (s.txSeq + 1) % uintSize := by
  change (s'.txSeq + 1) % uintSize = (s.txSeq + 1) % uintSize
  rw [Nat.add_mod, h, ← Nat.add_mod]

structure Opened (i : ℕ) (s : TcpSocket) (t t' : TcpTable) : Prop where
  only : Only i t t'
  keeps : Keeps s (t'.sockets i)
  txSeq : (t'.sockets i).bumpSeq.txSeq = (s.txSeq + 1) % uintSize

theorem Only.opened (h : Only i t t') (flags : BitVec 8) (now : ℕ) :
    Opened i s t (tcpSendSegment i flags [] now (t'.setSocket i s)).2 := by
  have hkeeps : Keeps ((t'.setSocket i s).sockets i)
      ((tcpSendSegment i flags [] now (t'.setSocket i s)).2.sockets i) := keeps_tcpSendSegment
  rw [sockets_setSocket_self] at hkeeps
  refine ⟨h.set.send, hkeeps, txSeq_bumpSeq ?_⟩
  rw [txSeq_tcpSendSegment_nil, sockets_setSocket_self]

def TcpTable.dialling (t : TcpTable) (ip port now : ℕ) : TcpSocket :=
  { zero with
    used := true, state := .synSent, localIp := t.ip, remoteIp := ip, localPort := t.ephemeralPort
    remotePort := port, txSeq := randSeq now }

theorem tcpConnect_cases (ip port now : ℕ) (t : TcpTable) :
    tcpConnect ip port now t = (-1, t) ∨ ∃ i t', findFree t = some i ∧ Opened i (t.dialling ip port now) t t' ∧
      (tcpConnect ip port now t = (-1, t'.setSocket i { t'.sockets i with used := false }) ∨
        tcpConnect ip port now t = ((i : ℤ), t'.setSocket i (t'.sockets i).bumpSeq)) := by
  rw [tcpConnect]
  cases hfree : findFree t with
  | none => exact .inl rfl
  | some i =>
    have honly : Only i t { t with ephemeralPort := (t.ephemeralPort + 1) % 2 ^ 16 } := ⟨fun _ _ => rfl, rfl⟩
    refine .inr ⟨i, _, rfl, honly.opened tcpSyn now, ?_⟩
    dsimp only
    split
    · exact .inl rfl
    · exact .inr rfl

def TcpTable.answering (t : TcpTable) (src : ℕ) (seg : Segment) (now : ℕ) : TcpSocket :=
  { zero with
    used := true, state := .synRcvd, localIp := t.ip, localPort := seg.dstPort, remoteIp := src
    remotePort := seg.srcPort, rxSeq := (seg.seq + 1) % uintSize, txSeq := randSeq now }

theorem receiveSyn_cases (src : ℕ) (seg : Segment) (now : ℕ) (t : TcpTable) :
    receiveSyn src seg now t = t ∨ ∃ i t', hasFlag seg.flags tcpSyn ∧ hasFlag seg.flags tcpAck = false ∧
      findFree t = some i ∧ Opened i (t.answering src seg now) t t' ∧
      receiveSyn src seg now t = t'.setSocket i (t'.sockets i).bumpSeq := by
  rw [receiveSyn]
  split_ifs with hsyn hack
  · exact .inl rfl
  · exact .inl rfl
  · split
    · exact .inl rfl
    · split
      · exact .inl rfl
      · rename_i i hfree
        exact .inr ⟨i, _, by simpa using hsyn, by simpa using hack, hfree, Only.refl.opened _ _, rfl⟩

def TcpSocket.ticked (s : TcpSocket) (now : ℕ) : TcpSocket :=
  if s.due now then if maxRetries ≤ s.rtxCount then s.giveUp else s.retry now else s

theorem sockets_tickSocket_self : (tickSocket now t i).sockets i = (t.sockets i).ticked now := by
  rw [tickSocket, ticked]
  split
  · split
    · exact sockets_setSocket_self
    · exact sockets_setSocket_self
  · rfl

theorem sockets_tickSocket_of_ne (h : j ≠ i) : (tickSocket now t i).sockets j = t.sockets j := by
  rw [tickSocket]
  split
  · split
    · exact sockets_setSocket_of_ne h
    · exact sockets_setSocket_of_ne h
  · rfl

def bareSegment (seq ack : List UInt8) (flags : UInt8) : List UInt8 :=
  [16, 0, 0, 80] ++ seq ++ ack ++ [80, flags, 16, 0, 0, 0, 0, 0]

def connected : TcpTable where
  sockets i := if i = 0 then { zero with
      used := true, state := .established, localPort := 80, remoteIp := 9, remotePort := 4096, txSeq := 1, rxSeq := 1 }
    else .zero
  ephemeralPort := 49152
  ip := 7
  link := fun _ => true
  sent := []
  accepts := []

end AetherOs.Tcp
