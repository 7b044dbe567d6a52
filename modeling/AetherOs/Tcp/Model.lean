import AetherOs.Base.Bytes
import AetherOs.Base.Loop
import AetherOs.Types

/-! # TCP sockets -/

namespace AetherOs.Tcp

open Base Function

def tcpFin : BitVec 8 := 0x01
def tcpSyn : BitVec 8 := 0x02
def tcpRst : BitVec 8 := 0x04
def tcpPsh : BitVec 8 := 0x08
def tcpAck : BitVec 8 := 0x10

def hasFlag (flags flag : BitVec 8) : Bool := flags &&& flag ≠ 0

def maxSockets : ℕ := 16

def rtoInitial : ℕ := 300

def rtoMax : ℕ := 6000

def maxRetries : ℕ := 5

def rtxBufSize : ℕ := 2048

def rxBufSize : ℕ := 4096

def headerSize : ℕ := 20

inductive TcpState
  | closed
  | listen
  | synRcvd
  | synSent
  | established
  | finWait
  | closeWait
  | timeWait
  deriving DecidableEq

structure TcpSocket where
  used : Bool
  state : TcpState
  localIp : ℕ
  remoteIp : ℕ
  localPort : ℕ
  remotePort : ℕ
  txSeq : ℕ
  rxSeq : ℕ
  rxBuf : ℕ → UInt8
  rxHead : ℕ
  rxTail : ℕ
  rtxBuf : ℕ → UInt8
  rtxLen : ℕ
  rtxFlags : BitVec 8
  rtxSeq : ℕ
  rtxEndSeq : ℕ
  rtxTime : ℕ
  rto : ℕ
  rtxCount : ℕ

def TcpSocket.zero : TcpSocket where
  used := false
  state := .closed
  localIp := 0
  remoteIp := 0
  localPort := 0
  remotePort := 0
  txSeq := 0
  rxSeq := 0
  rxBuf := fun _ => 0
  rxHead := 0
  rxTail := 0
  rtxBuf := fun _ => 0
  rtxLen := 0
  rtxFlags := 0
  rtxSeq := 0
  rtxEndSeq := 0
  rtxTime := 0
  rto := 0
  rtxCount := 0

structure Packet where
  dst : ℕ
  srcPort : ℕ
  dstPort : ℕ
  seq : ℕ
  ack : ℕ
  flags : BitVec 8
  data : List UInt8

structure Accept where
  port : ℕ
  remoteIp : ℕ
  remotePort : ℕ
  slot : ℕ

structure TcpTable where
  sockets : ℕ → TcpSocket
  ephemeralPort : ℕ
  ip : ℕ
  link : ℕ → Bool
  sent : List (Packet × Bool)
  accepts : List Accept

namespace TcpTable

def setSocket (i : ℕ) (s : TcpSocket) (t : TcpTable) : TcpTable := { t with sockets := update t.sockets i s }

variable {t : TcpTable} {i j : ℕ} {s : TcpSocket}

@[simp]
theorem sockets_setSocket_self : (t.setSocket i s).sockets i = s := update_self _ _ _

theorem sockets_setSocket_of_ne (h : j ≠ i) : (t.setSocket i s).sockets j = t.sockets j := update_of_ne h _ _

def transmit (p : Packet) (t : TcpTable) : TcpTable :=
  { t with sent := t.sent ++ [(p, t.link t.sent.length)] }

end TcpTable

def randSeq (now : ℕ) : ℕ := (now * 0xDEADBEEF % wordSize ^^^ 0x12345678) % uintSize

def getSocket (sock : ℤ) (t : TcpTable) : Option ℕ :=
  if sock < 0 ∨ maxSockets ≤ sock then none else if (t.sockets sock.toNat).used = false then none else some sock.toNat

def findFree (t : TcpTable) : Option ℕ := search (fun s : TcpSocket => !s.used) t.sockets maxSockets 0

def findListener (port : ℕ) (t : TcpTable) : Option ℕ :=
  search (fun s : TcpSocket => s.used && s.state = .listen && s.localPort = port) t.sockets maxSockets 0

def tcpListen (port : ℕ) (t : TcpTable) : ℤ × TcpTable :=
  match findListener port t with
  | some i => (i, t)
  | none =>
    match findFree t with
    | none => (-1, t)
    | some i =>
      (i, t.setSocket i { TcpSocket.zero with used := true, state := .listen, localIp := t.ip, localPort := port })

def TcpSocket.packet (s : TcpSocket) (flags : BitVec 8) (data : List UInt8) : Packet where
  dst := s.remoteIp
  srcPort := s.localPort
  dstPort := s.remotePort
  seq := s.txSeq
  ack := if hasFlag flags tcpAck then s.rxSeq else 0
  flags := flags
  data := data

def consumesSeq (flags : BitVec 8) (data : List UInt8) : Bool := hasFlag flags (tcpSyn ||| tcpFin) || 0 < data.length

def TcpSocket.afterSend (s : TcpSocket) (flags : BitVec 8) (data : List UInt8) (now : ℕ) : TcpSocket :=
  let txSeq := (s.txSeq + data.length) % uintSize
  if consumesSeq flags data then
    let saveLen := if data.length < rtxBufSize then data.length else rtxBufSize
    { s with
      txSeq := txSeq
      rtxSeq := (txSeq + uintSize - data.length % uintSize) % uintSize
      rtxEndSeq := (txSeq + (if hasFlag flags tcpSyn then 1 else 0) + if hasFlag flags tcpFin then 1 else 0) % uintSize
      rtxFlags := flags
      rtxLen := saveLen
      rtxBuf := splice s.rtxBuf 0 saveLen fun k => data.getD k 0
      rto := if s.rtxCount = 0 then rtoInitial else s.rto
      rtxTime := now % uintSize }
  else { s with txSeq := txSeq }

def tcpSendSegment (i : ℕ) (flags : BitVec 8) (data : List UInt8) (now : ℕ) (t : TcpTable) : ℤ × TcpTable :=
  if t.link t.sent.length then
    (0, (t.transmit ((t.sockets i).packet flags data)).setSocket i ((t.sockets i).afterSend flags data now))
  else (-1, t.transmit ((t.sockets i).packet flags data))

def TcpSocket.bumpSeq (s : TcpSocket) : TcpSocket := { s with txSeq := (s.txSeq + 1) % uintSize }

def tcpConnect (ip port now : ℕ) (t : TcpTable) : ℤ × TcpTable :=
  match findFree t with
  | none => (-1, t)
  | some i =>
    let s := { TcpSocket.zero with
      used := true, state := .synSent, localIp := t.ip, remoteIp := ip, localPort := t.ephemeralPort
      remotePort := port, txSeq := randSeq now }
    let t := { t with ephemeralPort := (t.ephemeralPort + 1) % 2 ^ 16 }
    match tcpSendSegment i tcpSyn [] now (t.setSocket i s) with
    | (ret, t) =>
      if ret < 0 then (-1, t.setSocket i { t.sockets i with used := false })
      else (i, t.setSocket i (t.sockets i).bumpSeq)

def tcpConnectTimeout (i : ℕ) (t : TcpTable) : TcpTable := t.setSocket i { t.sockets i with used := false }

def tcpSend (sock : ℤ) (data : List UInt8) (now : ℕ) (t : TcpTable) : ℤ × TcpTable :=
  match getSocket sock t with
  | none => (-1, t)
  | some i =>
    if (t.sockets i).state = .established then tcpSendSegment i (tcpAck ||| tcpPsh) data now t else (-1, t)

def TcpSocket.available (s : TcpSocket) : ℕ := (s.rxTail + wordSize - s.rxHead % wordSize + rxBufSize) % wordSize % rxBufSize

def TcpSocket.readRing : ℕ → TcpSocket → List UInt8 × TcpSocket
  | 0, s => ([], s)
  | n + 1, s =>
    let out := readRing n { s with rxHead := (s.rxHead + 1) % wordSize }
    (s.rxBuf (s.rxHead % rxBufSize) :: out.1, out.2)

def tcpRecv (sock : ℤ) (len : ℕ) (t : TcpTable) : (ℤ × List UInt8) × TcpTable :=
  match getSocket sock t with
  | none => ((-1, []), t)
  | some i =>
    let n := if (t.sockets i).available < len then (t.sockets i).available else len
    if (t.sockets i).available = 0 then ((0, []), t)
    else ((n, ((t.sockets i).readRing n).1), t.setSocket i ((t.sockets i).readRing n).2)

def tcpClose (sock : ℤ) (now : ℕ) (t : TcpTable) : TcpTable :=
  match getSocket sock t with
  | none => t
  | some i =>
    let t := if (t.sockets i).state = .established then
        let t := (tcpSendSegment i (tcpFin ||| tcpAck) [] now t).2
        t.setSocket i { (t.sockets i).bumpSeq with state := .finWait }
      else t
    t.setSocket i { t.sockets i with rtxTime := 0, rtxLen := 0, used := false, state := .closed }

def TcpSocket.rtxPacket (s : TcpSocket) : Packet where
  dst := s.remoteIp
  srcPort := s.localPort
  dstPort := s.remotePort
  seq := s.rtxSeq
  ack := if hasFlag s.rtxFlags tcpAck then s.rxSeq else 0
  flags := s.rtxFlags
  data := (List.range s.rtxLen).map s.rtxBuf

def TcpSocket.due (s : TcpSocket) (now : ℕ) : Bool :=
  s.used && s.rtxTime ≠ 0 && s.rto ≤ (now % uintSize + uintSize - s.rtxTime) % uintSize

def TcpSocket.giveUp (s : TcpSocket) : TcpSocket :=
  { s with rtxTime := 0, rtxLen := 0, rtxCount := 0, state := .closed, used := false }

def TcpSocket.retry (s : TcpSocket) (now : ℕ) : TcpSocket :=
  { s with
    rtxCount := s.rtxCount + 1
    rto := if s.rto * 2 % uintSize < rtoMax then s.rto * 2 % uintSize else rtoMax
    rtxTime := now % uintSize }

def tickSocket (now : ℕ) (t : TcpTable) (i : ℕ) : TcpTable :=
  let s := t.sockets i
  if s.due now then
    if maxRetries ≤ s.rtxCount then t.setSocket i s.giveUp
    else (t.setSocket i (s.retry now)).transmit (s.retry now).rtxPacket
  else t

def tcpTick (now : ℕ) (t : TcpTable) : TcpTable := (List.range maxSockets).foldl (tickSocket now) t

def TcpSocket.rtxClearIfAcked (s : TcpSocket) (ack : ℕ) : TcpSocket :=
  if s.rtxTime = 0 then s
  else if ack < s.rtxEndSeq then s
  else { s with rtxTime := 0, rtxLen := 0, rtxCount := 0 }

structure Segment where
  srcPort : ℕ
  dstPort : ℕ
  seq : ℕ
  ack : ℕ
  flags : BitVec 8
  data : List UInt8
  deriving DecidableEq

def beNat (bytes : List UInt8) (off n : ℕ) : ℕ :=
  (List.range n).foldl (fun acc k => acc * 256 + (bytes.getD (off + k) 0).toNat) 0

def parseSegment (bytes : List UInt8) : Option Segment :=
  if bytes.length < headerSize then none
  else
    let dataOff := (bytes.getD 12 0).toNat / 16 * 4
    some ⟨beNat bytes 0 2, beNat bytes 2 2, beNat bytes 4 4, beNat bytes 8 4, BitVec.ofNat 8 (beNat bytes 13 1),
      if dataOff ≤ bytes.length then bytes.drop dataOff else []⟩

def TcpSocket.pushByte (s : TcpSocket) (b : UInt8) : TcpSocket :=
  if (s.rxTail + 1) % wordSize % rxBufSize ≠ s.rxHead % rxBufSize then
    { s with
      rxBuf := update s.rxBuf (s.rxTail % rxBufSize) b
      rxTail := (s.rxTail + 1) % wordSize }
  else s

def findConnected (src : ℕ) (seg : Segment) (t : TcpTable) : Option ℕ :=
  search (fun s : TcpSocket => s.used && s.localPort = seg.dstPort && s.remotePort = seg.srcPort && s.remoteIp = src)
    t.sockets maxSockets 0

def receiveSyn (src : ℕ) (seg : Segment) (now : ℕ) (t : TcpTable) : TcpTable :=
  if hasFlag seg.flags tcpSyn = false then t
  else if hasFlag seg.flags tcpAck then t
  else
    match findListener seg.dstPort t with
    | none => t
    | some _ =>
      match findFree t with
      | none => t
      | some i =>
        let s := { TcpSocket.zero with
          used := true, state := .synRcvd, localIp := t.ip, localPort := seg.dstPort, remoteIp := src
          remotePort := seg.srcPort, rxSeq := (seg.seq + 1) % uintSize, txSeq := randSeq now }
        let t := (tcpSendSegment i (tcpSyn ||| tcpAck) [] now (t.setSocket i s)).2
        t.setSocket i (t.sockets i).bumpSeq

def receiveSynRcvd (i : ℕ) (seg : Segment) (t : TcpTable) : TcpTable :=
  let s := t.sockets i
  if hasFlag seg.flags tcpRst then t.setSocket i { s with rtxTime := 0, used := false, state := .closed }
  else if hasFlag seg.flags tcpAck ∧ seg.ack = s.txSeq then
    { t.setSocket i { s.rtxClearIfAcked seg.ack with state := .established } with
      accepts := t.accepts ++ [⟨s.localPort, s.remoteIp, s.remotePort, i⟩] }
  else t

def receiveSynSent (i : ℕ) (seg : Segment) (now : ℕ) (t : TcpTable) : TcpTable :=
  let s := t.sockets i
  if seg.flags &&& (tcpSyn ||| tcpAck) = tcpSyn ||| tcpAck then
    if seg.ack = s.txSeq then
      (tcpSendSegment i tcpAck [] now (t.setSocket i
        { s.rtxClearIfAcked seg.ack with rxSeq := (seg.seq + 1) % uintSize, state := .established })).2
    else t
  else t

def receiveFin (i : ℕ) (seg : Segment) (now : ℕ) (t : TcpTable) : TcpTable :=
  let t := t.setSocket i { t.sockets i with rxSeq := (seg.seq + 1) % uintSize, state := .closeWait }
  let t := (tcpSendSegment i tcpAck [] now t).2
  let t := (tcpSendSegment i (tcpFin ||| tcpAck) [] now t).2
  t.setSocket i { (t.sockets i).bumpSeq with state := .timeWait }

def receiveData (i : ℕ) (seg : Segment) (now : ℕ) (t : TcpTable) : TcpTable :=
  let s := t.sockets i
  if 0 < seg.data.length ∧ seg.seq = s.rxSeq then
    let s := seg.data.foldl TcpSocket.pushByte s
    (tcpSendSegment i tcpAck [] now (t.setSocket i { s with rxSeq := (s.rxSeq + seg.data.length) % uintSize })).2
  else t

def receiveEstablished (i : ℕ) (seg : Segment) (now : ℕ) (t : TcpTable) : TcpTable :=
  let s := t.sockets i
  if hasFlag seg.flags tcpRst then t.setSocket i { s with state := .closed, used := false }
  else if hasFlag seg.flags tcpFin then receiveFin i seg now t
  else
    receiveData i seg now
      (if hasFlag seg.flags tcpAck ∧ s.rtxTime ≠ 0 then t.setSocket i (s.rtxClearIfAcked seg.ack) else t)

def receiveOn (i : ℕ) (seg : Segment) (now : ℕ) (t : TcpTable) : TcpTable :=
  match (t.sockets i).state with
  | .synRcvd => receiveSynRcvd i seg t
  | .synSent => receiveSynSent i seg now t
  | .established => receiveEstablished i seg now t
  | .finWait => if hasFlag seg.flags tcpAck then t.setSocket i { t.sockets i with state := .timeWait } else t
  | .timeWait => t.setSocket i { t.sockets i with state := .closed, used := false }
  | .closed => t
  | .listen => t
  | .closeWait => t

def tcpReceive (src : ℕ) (bytes : List UInt8) (now : ℕ) (t : TcpTable) : TcpTable :=
  match parseSegment bytes with
  | none => t
  | some seg =>
    match findConnected src seg t with
    | none => receiveSyn src seg now t
    | some i => receiveOn i seg now t

end AetherOs.Tcp
