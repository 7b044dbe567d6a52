import AetherOs.Tcp.Steps

/-! # Sockets -/

namespace AetherOs.Socket

open Base Tcp Function

def eio : ℤ := 5
def ebadf : ℤ := 9
def eagain : ℤ := 11
def einval : ℤ := 22
def emfile : ℤ := 24
def eprototype : ℤ := 91
def eopnotsupp : ℤ := 95
def enotsup : ℤ := 95
def eafnosupport : ℤ := 97
def eaddrinuse : ℤ := 98
def enotconn : ℤ := 107
def etimedout : ℤ := 110
def econnrefused : ℤ := 111

def afUnix : ℤ := 1
def afInet : ℤ := 2

def sockStream : ℤ := 1
def sockDgram : ℤ := 2
def sockRaw : ℤ := 3

def msgDontwait : BitVec 32 := 0x40

def sockMax : ℕ := 256

def sockBacklogMax : ℕ := 8

def sockRxbufSize : ℕ := 8192

def firstEphemeral : ℕ := 49152

def ntohs (x : ℕ) : ℕ := x % 256 * 256 + x / 256 % 256

def htons (x : ℕ) : ℕ := ntohs x

structure SockAddr where
  sinFamily : ℤ
  sinPort : ℕ
  sinAddr : ℕ
  deriving DecidableEq

inductive SockState
  | free
  | created
  | bound
  | listening
  | connected
  | closing
  | closed
  deriving DecidableEq

structure Sock where
  used : Bool
  domain : ℤ
  type : ℤ
  protocol : ℤ
  state : SockState
  localAddr : SockAddr
  remoteAddr : SockAddr
  tcpSock : ℤ
  rxbuf : ℕ → UInt8
  rxHead : ℕ
  rxTail : ℕ
  backlog : ℕ → ℤ
  backlogHead : ℕ
  backlogTail : ℕ
  backlogSize : ℤ
  owner : ℕ

def Sock.zero : Sock where
  used := false
  domain := 0
  type := 0
  protocol := 0
  state := .free
  localAddr := ⟨0, 0, 0⟩
  remoteAddr := ⟨0, 0, 0⟩
  tcpSock := 0
  rxbuf := fun _ => 0
  rxHead := 0
  rxTail := 0
  backlog := fun _ => 0
  backlogHead := 0
  backlogTail := 0
  backlogSize := 0
  owner := 0

structure Connecting where
  sd : ℕ
  slot : ℕ
  deriving DecidableEq

structure SockTable where
  socks : ℕ → Sock
  nextPort : ℕ
  tcp : TcpTable
  connecting : List Connecting
  accepting : List ℕ

namespace SockTable

def setSock (d : ℕ) (k : Sock) (s : SockTable) : SockTable := { s with socks := update s.socks d k }

variable {s : SockTable} {d e : ℕ} {k : Sock}

@[simp]
theorem socks_setSock_self : (s.setSock d k).socks d = k := update_self _ _ _

theorem socks_setSock_of_ne (h : e ≠ d) : (s.setSock d k).socks e = s.socks e := update_of_ne h _ _

end SockTable

def SockTable.init (ip : ℕ) (link : ℕ → Bool) : SockTable where
  socks := fun _ => .zero
  nextPort := firstEphemeral
  tcp :=
    { sockets := fun _ => .zero, ephemeralPort := firstEphemeral, ip := ip, link := link, sent := [], accepts := [] }
  connecting := []
  accepting := []

def sockGet (sd : ℤ) (s : SockTable) : Option ℕ :=
  if sd < 0 ∨ sockMax ≤ sd then none else if (s.socks sd.toNat).used = false then none else some sd.toNat

def sockAlloc (s : SockTable) : Option ℕ := search (fun k : Sock => !k.used) s.socks sockMax 0

def sockEphemeralPort (s : SockTable) : ℕ × SockTable :=
  let next := (s.nextPort + 1) % 2 ^ 16
  (s.nextPort, { s with nextPort := if next = 0 then firstEphemeral else next })

def rxbufAvailable (k : Sock) : ℕ :=
  if k.rxHead ≤ k.rxTail then k.rxTail - k.rxHead else sockRxbufSize - k.rxHead + k.rxTail

def takeBytes : ℕ → Sock → List UInt8 × Sock
  | 0, k => ([], k)
  | n + 1, k =>
    let out := takeBytes n { k with rxHead := (k.rxHead + 1) % sockRxbufSize }
    (k.rxbuf k.rxHead :: out.1, out.2)

def rxbufPop (len : ℕ) (k : Sock) : List UInt8 × Sock := takeBytes (min len (rxbufAvailable k)) k

def sockCreate (domain type protocol : ℤ) (owner : ℕ) (s : SockTable) : ℤ × SockTable :=
  if domain ≠ afInet ∧ domain ≠ afUnix then (-eafnosupport, s)
  else if type ≠ sockStream ∧ type ≠ sockDgram ∧ type ≠ sockRaw then (-einval, s)
  else
    match sockAlloc s with
    | none => (-emfile, s)
    | some d =>
      (d, s.setSock d { Sock.zero with
        used := true, domain := domain, type := type, protocol := protocol, state := .created, tcpSock := -1
        owner := owner })

def sockBind (sd : ℤ) (addr : Option SockAddr) (s : SockTable) : ℤ × SockTable :=
  match sockGet sd s with
  | none => (-ebadf, s)
  | some d =>
    match addr with
    | none => (-einval, s)
    | some a =>
      if a.sinFamily ≠ afInet then (-einval, s)
      else if (s.socks d).state ≠ .created then (-einval, s)
      else (0, s.setSock d { s.socks d with localAddr := a, state := .bound })

def connectAddresses (d : ℕ) (a : SockAddr) (s : SockTable) : SockTable :=
  let s := s.setSock d { s.socks d with remoteAddr := a }
  if (s.socks d).localAddr.sinPort = 0 then
    match sockEphemeralPort s with
    | (port, s) =>
      s.setSock d { s.socks d with localAddr := { (s.socks d).localAddr with sinPort := htons port } }
  else s

def sockConnect (sd : ℤ) (addr : Option SockAddr) (now : ℕ) (s : SockTable) : Option ℤ × SockTable :=
  match sockGet sd s with
  | none => (some (-ebadf), s)
  | some d =>
    match addr with
    | none => (some (-einval), s)
    | some a =>
      if a.sinFamily ≠ afInet then (some (-einval), s)
      else if (s.socks d).type ≠ sockStream then (some (-eprototype), s)
      else
        let s := connectAddresses d a s
        match tcpConnect a.sinAddr (ntohs a.sinPort) now s.tcp with
        | (slot, tcp) =>
          if slot < 0 then (some (-econnrefused), { s with tcp := tcp })
          else (none, { s with tcp := tcp, connecting := s.connecting ++ [⟨d, slot.toNat⟩] })

def sockConnectDone (k : ℕ) (s : SockTable) : Option ℤ × SockTable :=
  match s.connecting[k]? with
  | none => (none, s)
  | some w =>
    if (s.tcp.sockets w.slot).state = .established then
      (some 0, { s.setSock w.sd { s.socks w.sd with tcpSock := w.slot, state := .connected } with
        connecting := s.connecting.eraseIdx k })
    else (none, s)

def sockConnectTimeout (k : ℕ) (s : SockTable) : Option ℤ × SockTable :=
  match s.connecting[k]? with
  | none => (none, s)
  | some w =>
    (some (-econnrefused),
      { s with tcp := tcpConnectTimeout w.slot s.tcp, connecting := s.connecting.eraseIdx k })

def listenPort (d : ℕ) (s : SockTable) : ℕ × SockTable :=
  let port := ntohs (s.socks d).localAddr.sinPort
  if port = 0 then
    match sockEphemeralPort s with
    | (port, s) =>
      (port, s.setSock d { s.socks d with localAddr := { (s.socks d).localAddr with sinPort := htons port } })
  else (port, s)

def attachListener (d port : ℕ) (s : SockTable) : ℤ × SockTable :=
  match tcpListen port s.tcp with
  | (slot, tcp) =>
    let s := { s with tcp := tcp }
    if slot < 0 then (-eaddrinuse, s.setSock d { s.socks d with state := .bound })
    else (0, s.setSock d { s.socks d with tcpSock := slot })

def sockListen (sd backlog : ℤ) (s : SockTable) : ℤ × SockTable :=
  match sockGet sd s with
  | none => (-ebadf, s)
  | some d =>
    if (s.socks d).type ≠ sockStream then (-eopnotsupp, s)
    else if (s.socks d).state ≠ .bound ∧ (s.socks d).state ≠ .created then (-einval, s)
    else
      let backlog := if (sockBacklogMax : ℤ) < backlog then (sockBacklogMax : ℤ) else backlog
      match listenPort d (s.setSock d { s.socks d with backlogSize := backlog, state := .listening }) with
      | (port, s) => attachListener d port s

def sockAccept (sd : ℤ) (s : SockTable) : Option ℤ × SockTable :=
  match sockGet sd s with
  | none => (some (-ebadf), s)
  | some d =>
    if (s.socks d).state ≠ .listening then (some (-einval), s)
    else (none, { s with accepting := s.accepting ++ [d] })

def sockAcceptDone (k : ℕ) (s : SockTable) : Option (ℤ × SockAddr) × SockTable :=
  match s.accepting[k]? with
  | none => (none, s)
  | some d =>
    if (s.socks d).backlogHead = (s.socks d).backlogTail then (none, s)
    else
      let newSd := (s.socks d).backlog (s.socks d).backlogHead
      let s := { s.setSock d { s.socks d with backlogHead := ((s.socks d).backlogHead + 1) % sockBacklogMax } with
        accepting := s.accepting.eraseIdx k }
      match sockGet newSd s with
      | none => (some (-eio, ⟨0, 0, 0⟩), s)
      | some e => (some (newSd, (s.socks e).remoteAddr), s)

def sockAcceptTimeout (k : ℕ) (s : SockTable) : Option ℤ × SockTable :=
  match s.accepting[k]? with
  | none => (none, s)
  | some _ => (some (-etimedout), { s with accepting := s.accepting.eraseIdx k })

def sockSend (sd : ℤ) (data : List UInt8) (now : ℕ) (s : SockTable) : ℤ × SockTable :=
  match sockGet sd s with
  | none => (-ebadf, s)
  | some d =>
    if (s.socks d).state ≠ .connected then (-enotconn, s)
    else if data.length = 0 then (0, s)
    else if (s.socks d).type = sockStream ∧ 0 ≤ (s.socks d).tcpSock then
      match tcpSend (s.socks d).tcpSock data now s.tcp with
      | (ret, tcp) => (ret, { s with tcp := tcp })
    else (-enotsup, s)

def sockRecv (sd : ℤ) (len : ℕ) (flags : BitVec 32) (s : SockTable) : (ℤ × List UInt8) × SockTable :=
  match sockGet sd s with
  | none => ((-ebadf, []), s)
  | some d =>
    if (s.socks d).state ≠ .connected then ((-enotconn, []), s)
    else if len = 0 then ((0, []), s)
    else if (s.socks d).type = sockStream ∧ 0 ≤ (s.socks d).tcpSock ∧ rxbufAvailable (s.socks d) = 0 then
      match tcpRecv (s.socks d).tcpSock len s.tcp with
      | (out, tcp) => (out, { s with tcp := tcp })
    else if rxbufAvailable (s.socks d) = 0 then
      ((if flags &&& msgDontwait ≠ 0 then -eagain else -etimedout, []), s)
    else
      match rxbufPop len (s.socks d) with
      | (bytes, k) => ((bytes.length, bytes), s.setSock d k)

def closeTcp (d now : ℕ) (s : SockTable) : SockTable :=
  if 0 ≤ (s.socks d).tcpSock then { s with tcp := tcpClose (s.socks d).tcpSock now s.tcp } else s

def sockShutdown (sd : ℤ) (now : ℕ) (s : SockTable) : ℤ × SockTable :=
  match sockGet sd s with
  | none => (-ebadf, s)
  | some d =>
    let s := closeTcp d now s
    (0, s.setSock d { s.socks d with state := .closing })

def sockClose (sd : ℤ) (now : ℕ) (s : SockTable) : ℤ × SockTable :=
  match sockGet sd s with
  | none => (-ebadf, s)
  | some d => (0, (closeTcp d now s).setSock d .zero)

def Sock.pushBacklog (k : Sock) (sd : ℤ) : Sock :=
  let next := (k.backlogTail + 1) % sockBacklogMax
  if next ≠ k.backlogHead then { k with backlog := update k.backlog k.backlogTail sd, backlogTail := next }
  else k

def findListening (port : ℕ) (s : SockTable) : Option ℕ :=
  search (fun k : Sock => k.used && k.state = .listening && ntohs k.localAddr.sinPort = port) s.socks sockMax 0

def sockNotifyAccept (s : SockTable) (a : Accept) : SockTable :=
  match findListening a.port s with
  | none => s
  | some d =>
    match sockAlloc s with
    | none => s
    | some e =>
      let s := s.setSock e { Sock.zero with
        used := true, domain := afInet, type := sockStream, state := .connected, tcpSock := a.slot
        remoteAddr := ⟨afInet, htons a.remotePort, a.remoteIp⟩, localAddr := (s.socks d).localAddr
        owner := (s.socks d).owner }
      s.setSock d ((s.socks d).pushBacklog e)

def segmentArrives (src : ℕ) (bytes : List UInt8) (now : ℕ) (s : SockTable) : SockTable :=
  let tcp := tcpReceive src bytes now s.tcp
  (tcp.accepts.drop s.tcp.accepts.length).foldl sockNotifyAccept { s with tcp := tcp }

inductive Use
  | send (data : List UInt8) (now : ℕ)
  | recv (len : ℕ) (flags : BitVec 32)
  | shutdown (now : ℕ)
  | close (now : ℕ)

def sockUse (sd : ℤ) : Use → SockTable → (ℤ × List UInt8) × SockTable
  | .send data now, s => (((sockSend sd data now s).1, []), (sockSend sd data now s).2)
  | .recv len flags, s => sockRecv sd len flags s
  | .shutdown now, s => (((sockShutdown sd now s).1, []), (sockShutdown sd now s).2)
  | .close now, s => (((sockClose sd now s).1, []), (sockClose sd now s).2)

inductive SockCall
  | create (domain type protocol : ℤ) (owner : ℕ)
  | bind (sd : ℤ) (addr : Option SockAddr)
  | connect (sd : ℤ) (addr : Option SockAddr) (now : ℕ)
  | connectDone (k : ℕ)
  | connectTimeout (k : ℕ)
  | listen (sd backlog : ℤ)
  | accept (sd : ℤ)
  | acceptDone (k : ℕ)
  | acceptTimeout (k : ℕ)
  | use (sd : ℤ) (u : Use)
  | tick (now : ℕ)
  | arrive (src : ℕ) (bytes : List UInt8) (now : ℕ)

def sockExec : SockCall → SockTable → SockTable
  | .create domain type protocol owner, s => (sockCreate domain type protocol owner s).2
  | .bind sd addr, s => (sockBind sd addr s).2
  | .connect sd addr now, s => (sockConnect sd addr now s).2
  | .connectDone k, s => (sockConnectDone k s).2
  | .connectTimeout k, s => (sockConnectTimeout k s).2
  | .listen sd backlog, s => (sockListen sd backlog s).2
  | .accept sd, s => (sockAccept sd s).2
  | .acceptDone k, s => (sockAcceptDone k s).2
  | .acceptTimeout k, s => (sockAcceptTimeout k s).2
  | .use sd u, s => (sockUse sd u s).2
  | .tick now, s => { s with tcp := tcpTick now s.tcp }
  | .arrive src bytes now, s => segmentArrives src bytes now s

end AetherOs.Socket
