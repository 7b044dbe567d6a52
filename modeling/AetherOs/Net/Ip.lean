import AetherOs.Tcp.Model

/-! # IPv4 input -/

namespace AetherOs.Net

open Base Tcp

def ip4HeaderSize : ℕ := 20

def shortHeaderSize : ℕ := 8

def netBufSize : ℕ := 2048

def udpMaxListeners : ℕ := 16

def icmpEchoRequest : UInt8 := 8
def icmpEchoReply : UInt8 := 0

inductive Proto
  | icmp
  | tcp
  | udp
  deriving DecidableEq

def protoOf (b : UInt8) : Option Proto :=
  if b = 1 then some .icmp else if b = 6 then some .tcp else if b = 17 then some .udp else none

variable (mem : ℕ → UInt8)

def ntohsAt (off : ℕ) : ℕ := (mem off).toNat * 256 + (mem (off + 1)).toNat

def foldCarry : ℕ → ℕ → ℕ
  | 0, acc => acc
  | fuel + 1, acc => if acc / 65536 = 0 then acc else foldCarry fuel (acc % 65536 + acc / 65536)

def sumWords (off len : ℕ) : ℕ :=
  let words := (List.range (len / 2)).foldl (fun acc k => (acc + leNat mem 2 (off + 2 * k)) % uintSize) 0
  if len % 2 = 1 then (words + (mem (off + 2 * (len / 2))).toNat) % uintSize else words

def netChecksum (off len : ℕ) : ℕ := 65535 - foldCarry 3 (sumWords mem off len)

def ihl : ℕ := (mem 0).toNat % 16 * 4

def totalLen : ℕ := ntohsAt mem 2

def srcAddr : ℕ := leNat mem 4 12
def dstAddr : ℕ := leNat mem 4 16

structure Call where
  proto : Proto
  offset : ℕ
  len : ℕ
  deriving DecidableEq

def ip4Dispatch (len ip : ℕ) : Option Call :=
  if len < ip4HeaderSize then none
  else if ihl mem < 20 ∨ len < ihl mem then none
  else if netChecksum mem 0 (ihl mem) ≠ 0 then none
  else if dstAddr mem ≠ ip ∧ dstAddr mem ≠ 0xFFFFFFFF then none
  else (protoOf (mem 9)).map fun proto => ⟨proto, ihl mem, subWord (totalLen mem) (ihl mem)⟩

structure UdpListener where
  port : ℕ
  cb : Option ℕ

structure Reply where
  dst : ℕ
  bytes : List UInt8
  deriving DecidableEq

structure Datagram where
  cb : ℕ
  src : ℕ
  srcPort : ℕ
  data : List UInt8
  deriving DecidableEq

structure NetState where
  tcp : TcpTable
  listeners : ℕ → UdpListener
  icmpReplySeq : ℕ
  replies : List Reply
  datagrams : List Datagram
  overrun : Bool

def slice (off len : ℕ) : List UInt8 := (List.range len).map fun k => mem (off + k)

def replyDraft (off : ℕ) : ℕ → UInt8 :=
  fun k => if k = 0 then icmpEchoReply else if k < 4 then 0 else mem (off + k)

def echoReply (off len : ℕ) : List UInt8 :=
  slice (putLE 2 2 (netChecksum (replyDraft mem off) 0 len) (replyDraft mem off)) 0 len

def icmpReceive (buf : Bool) (mem : ℕ → UInt8) (off len : ℕ) (n : NetState) : NetState :=
  if len < shortHeaderSize then n
  else if mem off = icmpEchoRequest then
    if buf = false then n
    else if netBufSize < len then { n with overrun := true }
    else { n with replies := n.replies ++ [⟨srcAddr mem, echoReply mem off len⟩] }
  else if mem off = icmpEchoReply then { n with icmpReplySeq := ntohsAt mem (off + 6) }
  else n

def udpReceive (off len : ℕ) (n : NetState) : NetState :=
  if len < shortHeaderSize then n
  else
    let udpLen := ntohsAt mem (off + 4)
    if udpLen < shortHeaderSize ∨ len < udpLen then n
    else
      let calls := (List.range udpMaxListeners).filterMap fun i =>
        if (n.listeners i).port = ntohsAt mem (off + 2) then
          (n.listeners i).cb.map fun cb =>
            ⟨cb, srcAddr mem, ntohsAt mem off, slice mem (off + shortHeaderSize) (udpLen - shortHeaderSize)⟩
        else none
      { n with datagrams := n.datagrams ++ calls }

def handle (buf : Bool) (mem : ℕ → UInt8) (now : ℕ) (n : NetState) (call : Call) : NetState :=
  match call.proto with
  | .icmp => icmpReceive buf mem call.offset call.len n
  | .tcp => { n with tcp := tcpReceive (srcAddr mem) (slice mem call.offset call.len) now n.tcp }
  | .udp => udpReceive mem call.offset call.len n

def ip4Receive (buf : Bool) (mem : ℕ → UInt8) (len now : ℕ) (n : NetState) : NetState :=
  ((ip4Dispatch mem len n.tcp.ip).map (handle buf mem now n)).getD n

end AetherOs.Net
