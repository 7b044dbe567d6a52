import AetherOs.Base.Run
import AetherOs.Net.Ip
import AetherOs.Socket.Model
import Mathlib.Algebra.Order.BigOperators.Group.List
import Mathlib.Algebra.Order.Group.Nat

/-! # What a send and a receive report -/

namespace AetherOs.Socket

open Base Net Tcp

variable {s : SockTable} {sd : ℤ} {d now : ℕ} {data : List UInt8}

/-! ## Sending -/

/-- What a send of `data` on slot `i` that returned `r` owes its caller: either a transmitted segment carries the
first `r` bytes from the old sequence number on, or no byte left. -/
def SendReported (data : List UInt8) (i : ℕ) (r : ℤ) (t t' : TcpTable) : Prop :=
  (0 < r → (∃ p, (p, true) ∈ t'.sent.drop t.sent.length ∧ p.data = data.take r.toNat ∧
      p.seq = (t.sockets i).txSeq) ∧ (t'.sockets i).txSeq = ((t.sockets i).txSeq + r.toNat) % uintSize) ∧
  (r ≤ 0 → (∀ p, (p, true) ∈ t'.sent.drop t.sent.length → p.data = []) ∧
    (t'.sockets i).txSeq = (t.sockets i).txSeq)

def CanSend (k : ℤ) (t : TcpTable) : Prop :=
  ∃ i, getSocket k t = some i ∧ (t.sockets i).state = .established ∧ t.link t.sent.length = true

theorem SendReported.unchanged {i : ℕ} {r : ℤ} {t : TcpTable} (hr : r ≤ 0) : SendReported data i r t t := by
  refine ⟨fun hpos => absurd hr (by omega), fun _ => ⟨fun p hp => ?_, rfl⟩⟩
  rw [List.drop_length] at hp
  cases hp

theorem tcpSend_reported_iff {k : ℤ} {t : TcpTable} (hdata : 0 < data.length) :
    SendReported data k.toNat (tcpSend k data now t).1 t (tcpSend k data now t).2 ↔ ¬ CanSend k t := by
  have hfails : (-1 : ℤ) ≤ 0 := by decide
  rw [tcpSend]
  cases hopen : getSocket k t with
  | none =>
    refine iff_of_true (.unchanged hfails) ?_
    rintro ⟨i, hi, -⟩
    cases hopen.symm.trans hi
  | some i =>
    have hi : k.toNat = i := by rw [eq_of_getSocket hopen, Int.toNat_natCast]
    have hsent (p : Tcp.Packet) : (t.transmit p).sent.drop t.sent.length = [(p, t.link t.sent.length)] :=
      List.drop_left
    rw [hi]
    dsimp only
    split_ifs with hest
    · rw [tcpSendSegment]
      by_cases hlink : t.link t.sent.length
      · rw [if_pos hlink]
        refine iff_of_false (fun hreported => ?_) (not_not_intro ⟨i, hopen, hest, hlink⟩)
        have hempty : data = [] := by
          refine (hreported.2 (Int.le_refl 0)).1 ((t.sockets i).packet (tcpAck ||| tcpPsh) data) ?_
          change _ ∈ (t.transmit _).sent.drop t.sent.length
          rw [hsent, hlink]
          exact List.mem_singleton_self _
        exact absurd (congrArg List.length hempty) (Nat.ne_of_gt hdata)
      · rw [if_neg hlink]
        refine iff_of_true ⟨fun hbad => absurd hfails (Int.not_le.mpr hbad), fun _ => ⟨fun p hp => ?_, rfl⟩⟩ ?_
        · rw [hsent, List.mem_singleton] at hp
          exact absurd (Prod.mk.inj hp).2.symm hlink
        · rintro ⟨j, -, -, hbad⟩
          exact hlink hbad
    · refine iff_of_true (.unchanged hfails) ?_
      rintro ⟨j, hj, hbad, -⟩
      exact hest (Option.some.inj (hopen.symm.trans hj) ▸ hbad)

/-- A send on a connected stream socket reports what was sent exactly if the segment is not transmitted: one that is
transmitted is reported by `0`. -/
theorem sockSend_reported_iff (hget : sockGet sd s = some d) (hstate : (s.socks d).state = .connected)
    (htype : (s.socks d).type = sockStream) (hdata : 0 < data.length) :
    SendReported data (s.socks d).tcpSock.toNat (sockSend sd data now s).1 s.tcp (sockSend sd data now s).2.tcp ↔
      ¬ CanSend (s.socks d).tcpSock s.tcp := by
  rw [sockSend, hget]
  dsimp only
  rw [if_neg (not_not_intro hstate), if_neg (Nat.ne_of_gt hdata)]
  by_cases hslot : 0 ≤ (s.socks d).tcpSock
  · rw [if_pos ⟨htype, hslot⟩]
    exact tcpSend_reported_iff hdata
  · rw [if_neg fun hbad => hslot hbad.2]
    refine iff_of_true (.unchanged (show -enotsup ≤ 0 by decide)) ?_
    rintro ⟨i, hi, -⟩
    rw [eq_of_getSocket hi] at hslot
    omega

/-- Descriptor 0 on the established connection of slot 0. -/
def dialled (link : Bool) : SockTable where
  socks e := if e = 0 then { Sock.zero with used := true, type := sockStream, state := .connected } else .zero
  nextPort := firstEphemeral
  tcp := { Tcp.connected with link := fun _ => link }
  connecting := []
  accepting := []

/-- A send that the link refuses is reported as an error. -/
theorem sockSend_reported_refused :
    SendReported [104] 0 (sockSend 0 [104] 0 (dialled false)).1 (dialled false).tcp
      (sockSend 0 [104] 0 (dialled false)).2.tcp := by
  refine (sockSend_reported_iff (s := dialled false) (d := 0) rfl rfl rfl (by decide)).mpr ?_
  rintro ⟨i, -, -, hbad⟩
  cases hbad

/-- The byte is transmitted and the send returns 0. -/
theorem sockSend_zero_after_sending :
    (sockSend 0 [104] 0 (dialled true)).1 = 0 ∧
      ¬ SendReported [104] 0 (sockSend 0 [104] 0 (dialled true)).1 (dialled true).tcp
        (sockSend 0 [104] 0 (dialled true)).2.tcp := by
  refine ⟨by decide, fun h => ?_⟩
  have hseq : ((sockSend 0 [104] 0 (dialled true)).2.tcp.sockets 0).txSeq = ((dialled true).tcp.sockets 0).txSeq :=
    (h.2 (by decide)).2
  exact absurd hseq (by decide)

/-! ## Receiving -/

/-- `sock_recvfrom` with a place for the address of the sender. -/
def sockRecvfrom (sd : ℤ) (len : ℕ) (flags : BitVec 32) (s : SockTable) :
    (ℤ × List UInt8 × Option SockAddr) × SockTable :=
  match sockRecv sd len flags s with
  | ((n, bytes), s) =>
    ((n, bytes, if 0 ≤ n then (sockGet sd s).map fun d => (s.socks d).remoteAddr else none), s)

/-- The payload of an IP packet as it is handed to `udp_receive`. -/
structure Packet where
  mem : ℕ → UInt8
  off : ℕ
  len : ℕ

namespace Packet

def udpLen (a : Packet) : ℕ := ntohsAt a.mem (a.off + 4)

def payload (a : Packet) : List UInt8 := slice a.mem (a.off + shortHeaderSize) (a.udpLen - shortHeaderSize)

def sender (a : Packet) : SockAddr := ⟨afInet, htons (ntohsAt a.mem a.off), srcAddr a.mem⟩

def ValidFor (a : Packet) (port : ℕ) : Prop :=
  shortHeaderSize < a.udpLen ∧ a.udpLen ≤ a.len ∧ ntohsAt a.mem (a.off + 2) = port

end Packet

inductive MailCall
  | arrive (a : Packet)
  | recvfrom (len : ℕ) (flags : BitVec 32)

/-- The two layers, what has arrived so far and what the calls that succeeded have returned. `udp_receive` hands a
datagram to the callbacks of its port, and no callback is `sock_deliver_udp`. -/
structure Mail where
  net : NetState
  table : SockTable
  arrived : List (List UInt8 × SockAddr)
  read : List (List UInt8 × SockAddr)

def Mail.step (sd : ℤ) (x : Mail) : MailCall → Mail
  | .arrive a =>
    { x with net := udpReceive a.mem a.off a.len x.net, arrived := x.arrived ++ [(a.payload, a.sender)] }
  | .recvfrom len flags =>
    match sockRecvfrom sd len flags x.table with
    | ((n, bytes, src), table) =>
      { x with
        table := table
        read := if 0 ≤ n then x.read ++ [(bytes, src.getD ⟨0, 0, 0⟩)] else x.read }

def Mail.unread (x : Mail) : ℕ := ((x.arrived.drop x.read.length).map fun m => m.1.length).sum

/-- Valid datagrams for the port with room for their payload, and reads with buffers for any of them. -/
def Mail.Admits (port : ℕ) (x : Mail) : MailCall → Prop
  | .arrive a => a.ValidFor port ∧ x.unread + a.payload.length < sockRxbufSize
  | .recvfrom len _ => ∀ m ∈ x.arrived, m.1.length ≤ len

/-- The datagram socket `sd` is bound to the port, has nothing buffered, and no one else uses the port. -/
structure OnlyUser (sd : ℤ) (port : ℕ) (x : Mail) : Prop where
  bound : ∃ d, sockGet sd x.table = some d ∧ (x.table.socks d).type = sockDgram ∧
    (x.table.socks d).state = .bound ∧ ntohs (x.table.socks d).localAddr.sinPort = port ∧ (x.table.socks d).rxHead = (x.table.socks d).rxTail
  others : ∀ e : ℕ, (e : ℤ) ≠ sd → (x.table.socks e).used = true → ntohs (x.table.socks e).localAddr.sinPort ≠ port
  listeners : ∀ i < udpMaxListeners, (x.net.listeners i).port = port → (x.net.listeners i).cb = none
  fresh : x.arrived = [] ∧ x.read = []

/-- The calls that succeeded returned the first datagrams in order, and while there are more the next one succeeds. -/
def Mail.Preserved (sd : ℤ) (x : Mail) : Prop :=
  x.read <+: x.arrived ∧ (x.read.length < x.arrived.length →
    ∀ len flags, (∀ m ∈ x.arrived, m.1.length ≤ len) → 0 ≤ (sockRecvfrom sd len flags x.table).1.1)

abbrev MailRun (sd : ℤ) (port : ℕ) : Mail → List MailCall → Mail → Prop :=
  Run (guarded (Mail.Admits port) fun x c x' => x' = x.step sd c)

theorem sockRecvfrom_bound (hget : sockGet sd s = some d) (hstate : (s.socks d).state = .bound) (len : ℕ)
    (flags : BitVec 32) : sockRecvfrom sd len flags s = ((-enotconn, [], none), s) := by
  have hrecv : sockRecv sd len flags s = ((-enotconn, []), s) := by
    rw [sockRecv, hget]
    dsimp only
    rw [if_pos (hstate.trans_ne SockState.noConfusion)]
  rw [sockRecvfrom, hrecv]
  rfl

/-- No read of a bound datagram socket succeeds, so its datagrams are preserved exactly while none has arrived. -/
theorem datagrams_preserved_iff {port : ℕ} {x x' : Mail} {cs : List MailCall} (huser : OnlyUser sd port x)
    (hrun : MailRun sd port x cs x') : x'.Preserved sd ↔ x'.arrived = [] := by
  obtain ⟨d, hget, -, hstate, -⟩ := huser.bound
  obtain ⟨htable, hread⟩ : x'.table = x.table ∧ x'.read = [] := by
    refine hrun.invariant (I := fun y => y.table = x.table ∧ y.read = []) ?_ ⟨rfl, huser.fresh.2⟩
    rintro y c _ hy ⟨-, rfl⟩
    cases c with
    | arrive a => exact hy
    | recvfrom len flags =>
      rw [Mail.step, hy.1, sockRecvfrom_bound hget hstate]
      exact ⟨rfl, hy.2⟩
  rw [Mail.Preserved, hread, htable]
  constructor
  · rintro ⟨-, hnext⟩
    by_contra hsome
    have hfails := hnext (List.length_pos_iff.mpr hsome) (x'.arrived.map fun m => m.1.length).sum 0 fun m hm =>
      List.le_sum_of_mem (List.mem_map_of_mem hm)
    rw [sockRecvfrom_bound hget hstate] at hfails
    exact absurd (show 0 ≤ -enotconn from hfails) (by decide)
  · intro hnone
    rw [hnone]
    exact ⟨List.nil_prefix, fun hbad => absurd hbad (Nat.lt_irrefl 0)⟩

/-- Descriptor 0 is a datagram socket bound to port 53. -/
def listening : Mail where
  net := ⟨Tcp.connected, fun _ => ⟨0, none⟩, 0, [], [], false⟩
  table := { SockTable.init 7 fun _ => true with socks := fun e => if e = 0 then { Sock.zero with
    used := true, domain := afInet, type := sockDgram, state := .bound, localAddr := ⟨afInet, htons 53, 0⟩ } else .zero }
  arrived := []
  read := []

theorem onlyUser_listening : OnlyUser 0 53 listening where
  bound := ⟨0, rfl, rfl, rfl, by decide, rfl⟩
  others e he hused := by
    have hne : e ≠ 0 := by exact_mod_cast he
    simp [listening, hne, Sock.zero] at hused
  listeners _ _ _ := rfl
  fresh := ⟨rfl, rfl⟩

/-- A read before any datagram. -/
theorem datagrams_preserved_listening :
    MailRun 0 53 listening [.recvfrom 512 0] (listening.step 0 (.recvfrom 512 0)) ∧
      (listening.step 0 (.recvfrom 512 0)).Preserved 0 := by
  have hrun : MailRun 0 53 listening [.recvfrom 512 0] (listening.step 0 (.recvfrom 512 0)) :=
    .cons ⟨fun m hm => absurd hm List.not_mem_nil, rfl⟩ (.nil _)
  exact ⟨hrun, (datagrams_preserved_iff onlyUser_listening hrun).mpr rfl⟩

/-- One byte from port 4096 for port 53. -/
def oneByte : Packet := ⟨fun k => [16, 0, 0, 53, 0, 9, 0, 0, 104].getD k 0, 0, 9⟩

/-- The datagram arrives, and the next read fails with `ENOTCONN`. -/
theorem datagram_not_delivered :
    oneByte.ValidFor 53 ∧ ¬ (listening.step 0 (.arrive oneByte)).Preserved 0 ∧
      (sockRecvfrom 0 512 0 (listening.step 0 (.arrive oneByte)).table).1.1 = -enotconn := by
  refine ⟨⟨by decide, by decide, by decide⟩, fun h => ?_, by decide⟩
  exact absurd (h.2 (by decide) 512 0 (by decide)) (by decide)

end AetherOs.Socket
