import AetherOs.Base.Ring
import AetherOs.Base.Run
import AetherOs.Tcp.Steps

/-! # The received stream -/

namespace AetherOs.Tcp

open Base List TcpTable TcpSocket

variable {s s' : TcpSocket} {t : TcpTable} {i k n now : ℕ} {b : UInt8} {data got : List UInt8} {seg : Segment}

def TcpSocket.ring (s : TcpSocket) : Base.Ring UInt8 where
  slots := s.rxBuf
  head := s.rxHead % rxBufSize
  tail := s.rxTail % rxBufSize
  count := s.available

def TcpSocket.unread (s : TcpSocket) : List UInt8 := s.ring.contents rxBufSize

theorem rxBufSize_dvd : rxBufSize ∣ wordSize := by decide

theorem available_lt : s.available < rxBufSize := Nat.mod_lt _ (by decide)

theorem available_spec : (s.rxHead + s.available) % rxBufSize = s.rxTail % rxBufSize := by
  have hhead : s.rxHead % wordSize < wordSize := Nat.mod_lt _ (by decide)
  have hdvd : wordSize = rxBufSize * (wordSize / rxBufSize) := (Nat.mul_div_cancel' rxBufSize_dvd).symm
  rw [available, Nat.mod_mod_of_dvd _ rxBufSize_dvd, Nat.add_mod_mod,
    ← Nat.mod_add_mod, ← Nat.mod_mod_of_dvd s.rxHead rxBufSize_dvd, Nat.mod_add_mod,
    show s.rxHead % wordSize + (s.rxTail + wordSize - s.rxHead % wordSize + rxBufSize) =
      s.rxTail + wordSize + rxBufSize by omega, Nat.add_mod_right, hdvd, Nat.add_mul_mod_self_left]

theorem available_eq (hn : n < rxBufSize) (h : (s.rxHead + n) % rxBufSize = s.rxTail % rxBufSize) :
    s.available = n := by
  have hmod : s.rxHead + s.available ≡ s.rxHead + n [MOD rxBufSize] := available_spec.trans h.symm
  exact Nat.ModEq.eq_of_lt_of_lt (Nat.ModEq.add_left_cancel' s.rxHead hmod) available_lt hn

theorem wellFormed_ring : s.ring.WellFormed rxBufSize := by
  refine ⟨Nat.mod_lt _ (by decide), available_lt.le, ?_⟩
  change s.rxTail % rxBufSize = (s.rxHead % rxBufSize + s.available) % rxBufSize
  rw [Nat.mod_add_mod, available_spec]

theorem length_unread : s.unread.length = s.available := Base.Ring.length_contents

theorem room_iff : (s.rxTail + 1) % wordSize % rxBufSize ≠ s.rxHead % rxBufSize ↔ s.available + 1 < rxBufSize := by
  have hlt : s.available < rxBufSize := available_lt
  have htail : (s.rxTail + 1) % wordSize % rxBufSize = (s.rxHead + (s.available + 1)) % rxBufSize := by
    rw [Nat.mod_mod_of_dvd _ rxBufSize_dvd, ← Nat.mod_add_mod, ← available_spec, Nat.mod_add_mod, Nat.add_assoc]
  rw [htail]
  refine ⟨fun hne => ?_, fun hroom heq => ?_⟩
  · by_contra hfull
    have hsize : s.available + 1 = rxBufSize := by omega
    rw [hsize, Nat.add_mod_right] at hne
    exact hne rfl
  · exact Base.Ring.position_ne (Nat.succ_pos s.available) (by omega) s.rxHead heq.symm

theorem succ_position (p : ℕ) : (p + 1) % wordSize % rxBufSize = (p % rxBufSize + 1) % rxBufSize := by
  rw [Nat.mod_mod_of_dvd _ rxBufSize_dvd, Nat.mod_add_mod]

theorem unread_pushByte (hroom : s.available + 1 < rxBufSize) : (s.pushByte b).unread = s.unread ++ [b] := by
  rw [pushByte, if_pos (room_iff.mpr hroom)]
  generalize hpushed : ({ s with
    rxBuf := Function.update s.rxBuf (s.rxTail % rxBufSize) b
    rxTail := (s.rxTail + 1) % wordSize } : TcpSocket) = s'
  have hcount : s'.available = s.available + 1 := by
    refine available_eq hroom ?_
    subst hpushed
    dsimp only
    rw [succ_position, ← available_spec, Nat.mod_add_mod, Nat.add_assoc]
  have hring : s'.ring = s.ring.push rxBufSize b := by
    rw [ring, hcount, Base.Ring.push, Base.Ring.mk.injEq]
    subst hpushed
    exact ⟨rfl, rfl, succ_position s.rxTail, rfl⟩
  rw [unread, hring, Base.Ring.contents_push wellFormed_ring available_lt, unread]

theorem unread_foldl_pushByte (hroom : s.unread.length + data.length < rxBufSize) :
    (data.foldl pushByte s).unread = s.unread ++ data := by
  induction data generalizing s with
  | nil => rw [foldl_nil, append_nil]
  | cons b data ih =>
    rw [length_cons, length_unread] at hroom
    have hone : (s.pushByte b).unread = s.unread ++ [b] := unread_pushByte (by omega)
    rw [foldl_cons, ih, hone, append_assoc, singleton_append]
    rw [hone, length_append, length_singleton, length_unread]
    omega

theorem available_next (hsome : 0 < s.available) (hnext : s' = { s with rxHead := (s.rxHead + 1) % wordSize }) :
    s'.available = s.available - 1 := by
  have hlt : s.available < rxBufSize := available_lt
  refine available_eq (by omega) ?_
  subst hnext
  dsimp only
  rw [← Nat.mod_add_mod, succ_position, Nat.mod_add_mod, Nat.add_assoc, Nat.mod_add_mod,
    Nat.add_sub_cancel' hsome, available_spec]

theorem ring_next (hsome : 0 < s.available) (hnext : s' = { s with rxHead := (s.rxHead + 1) % wordSize }) :
    s'.ring = s.ring.pop rxBufSize := by
  rw [ring, available_next hsome hnext, Base.Ring.pop, Base.Ring.mk.injEq]
  subst hnext
  exact ⟨rfl, succ_position s.rxHead, rfl, rfl⟩

theorem readRing_append_unread (hn : n ≤ s.available) : (s.readRing n).1 ++ (s.readRing n).2.unread = s.unread := by
  induction n generalizing s with
  | zero => exact nil_append _
  | succ n ih =>
    rw [readRing]
    generalize hnext : ({ s with rxHead := (s.rxHead + 1) % wordSize } : TcpSocket) = s'
    have hsome : 0 < s.available := by omega
    have hcount : s'.available = s.available - 1 := available_next hsome hnext.symm
    rw [cons_append, ih (by omega), unread, ring_next hsome hnext.symm, unread,
      Base.Ring.contents_eq_cons wellFormed_ring hsome]
    rfl

theorem rxSeq_readRing : (s.readRing n).2.rxSeq = s.rxSeq := by
  induction n generalizing s with
  | zero => rfl
  | succ n ih =>
    rw [readRing]
    generalize hnext : ({ s with rxHead := (s.rxHead + 1) % wordSize } : TcpSocket) = s'
    rw [ih, ← hnext]

structure Receiving where
  table : TcpTable
  got : List UInt8

def received (k : ℕ) : Call → TcpTable → List UInt8
  | .recv sock len, t => if sock = k then (tcpRecv sock len t).1.2 else []
  | _, _ => []

def rxStep (k : ℕ) (o : Receiving) (c : Call) (o' : Receiving) : Prop :=
  o' = ⟨exec c o.table, o.got ++ received k c o.table⟩

structure Cut (isn : ℕ) (stream : List UInt8) (p : ℕ) (seg : Segment) : Prop where
  seq : seg.seq = (isn + 1 + p) % uintSize
  within : p + seg.data.length ≤ stream.length
  data : seg.data = (stream.drop p).take seg.data.length
  fin : hasFlag seg.flags tcpFin = true → p + seg.data.length = stream.length
  syn : hasFlag seg.flags tcpSyn = false

def FromPeer (isn : ℕ) (stream : List UInt8) : Call → Prop
  | .recv _ _ => True
  | .arrive _ bytes _ => ∃ seg p, parseSegment bytes = some seg ∧ Cut isn stream p seg
  | _ => False

structure Intact (isn : ℕ) (stream : List UInt8) (s : TcpSocket) (got : List UInt8) : Prop where
  bytes : got ++ s.unread = stream.take (got ++ s.unread).length
  rxSeq : s.rxSeq = (isn + 1 + (got ++ s.unread).length) % uintSize ∨
    (got ++ s.unread).length = stream.length ∧ s.rxSeq = (isn + 1 + (got ++ s.unread).length + 1) % uintSize

def Suits (s : TcpSocket) (n p : ℕ) (seg : Segment) : Prop :=
  s.state = .established → hasFlag seg.flags tcpRst = false →
    (hasFlag seg.flags tcpFin = true → seg.seq = s.rxSeq ∧ seg.data = []) ∧
    (seg.seq = s.rxSeq → p = n ∧ s.unread.length + seg.data.length < rxBufSize)

def InOrder (isn : ℕ) (stream : List UInt8) (k : ℕ) (o : Receiving) : Call → Prop
  | .recv _ _ => True
  | .arrive _ bytes _ => ∃ seg p, parseSegment bytes = some seg ∧ Cut isn stream p seg ∧
    Suits (o.table.sockets k) (o.got ++ (o.table.sockets k).unread).length p seg
  | _ => False

variable {isn p : ℕ} {stream : List UInt8}

theorem take_append_cut (hn : got = stream.take n) (hdata : data = (stream.drop n).take data.length) :
    got ++ data = stream.take (n + data.length) := by
  rw [take_add, ← hn, ← hdata]

theorem unread_congr (hbuf : s'.rxBuf = s.rxBuf) (hhead : s'.rxHead = s.rxHead) (htail : s'.rxTail = s.rxTail) :
    s'.unread = s.unread := by
  rw [unread, unread, ring, ring, available,
    available, hbuf, hhead, htail]

section

variable (h : Intact isn stream s got)
include h

theorem Intact.congr (hseq : s'.rxSeq = s.rxSeq) (hbuf : s'.rxBuf = s.rxBuf)
    (hhead : s'.rxHead = s.rxHead) (htail : s'.rxTail = s.rxTail) : Intact isn stream s' got := by
  have hunread : s'.unread = s.unread := unread_congr hbuf hhead htail
  refine ⟨?_, ?_⟩
  · rw [hunread]
    exact h.bytes
  · rw [hunread, hseq]
    exact h.rxSeq

theorem Intact.keeps (hk : Keeps s s') : Intact isn stream s' got :=
  h.congr hk.rxSeq hk.rxBuf hk.rxHead hk.rxTail

theorem Intact.push (hcut : Cut isn stream (got ++ s.unread).length seg)
    (hpos : 0 < seg.data.length) (hroom : s.unread.length + seg.data.length < rxBufSize)
    (hunread : s'.unread = (seg.data.foldl pushByte s).unread)
    (hseq : s'.rxSeq = (s.rxSeq + seg.data.length) % uintSize) : Intact isn stream s' got := by
  have hwithin := hcut.within
  have hbytes : got ++ s'.unread = got ++ s.unread ++ seg.data := by
    rw [hunread, unread_foldl_pushByte hroom, append_assoc]
  have hlen : (got ++ s'.unread).length = (got ++ s.unread).length + seg.data.length := by
    rw [hbytes, length_append]
  refine ⟨?_, .inl ?_⟩
  · rw [hlen, hbytes]
    exact take_append_cut h.bytes hcut.data
  · rcases h.rxSeq with hrx | ⟨hall, -⟩
    · rw [hseq, hrx, Nat.mod_add_mod, hlen, Nat.add_assoc]
    · omega

theorem Intact.fin (hcut : Cut isn stream (got ++ s.unread).length seg)
    (hfin : hasFlag seg.flags tcpFin) (hdata : seg.data = []) (hunread : s'.unread = s.unread)
    (hseq : s'.rxSeq = (seg.seq + 1) % uintSize) : Intact isn stream s' got := by
  have hall := hcut.fin hfin
  rw [hdata, length_nil, Nat.add_zero] at hall
  refine ⟨?_, .inr ⟨?_, ?_⟩⟩
  · rw [hunread]
    exact h.bytes
  · rw [hunread]
    exact hall
  · rw [hunread, hseq, hcut.seq, Nat.mod_add_mod]

end

section

variable (h : Intact isn stream (t.sockets i) got) (hcut : Cut isn stream p seg)

include h hcut

theorem Intact.receiveData_spec (hnext : seg.seq = (t.sockets i).rxSeq →
      p = (got ++ (t.sockets i).unread).length ∧ (t.sockets i).unread.length + seg.data.length < rxBufSize) :
    Intact isn stream ((receiveData i seg now t).sockets i) got := by
  by_cases htaken : 0 < seg.data.length ∧ seg.seq = (t.sockets i).rxSeq
  · obtain ⟨rfl, hroom⟩ := hnext htaken.2
    have hpushed : Intact isn stream { seg.data.foldl pushByte (t.sockets i) with
        rxSeq := ((t.sockets i).rxSeq + seg.data.length) % uintSize } got :=
      h.push hcut htaken.1 hroom (unread_congr rfl rfl rfl) rfl
    exact hpushed.keeps (keeps_receiveData htaken.1 htaken.2)
  · rw [receiveData, if_neg htaken]
    exact h

theorem Intact.receiveEstablished_spec (hest : (t.sockets i).state = .established)
    (hsuits : Suits (t.sockets i) (got ++ (t.sockets i).unread).length p seg) :
    Intact isn stream ((receiveEstablished i seg now t).sockets i) got := by
  rw [receiveEstablished]
  split
  · rw [sockets_setSocket_self]
    exact h.congr rfl rfl rfl rfl
  · rename_i hrst
    obtain ⟨hfin, hnext⟩ := hsuits hest (Bool.eq_false_iff.mpr hrst)
    split
    · rename_i hflag
      obtain ⟨hseq, hdata⟩ := hfin hflag
      obtain ⟨rfl, -⟩ := hnext hseq
      have hmid : Intact isn stream ((t.setSocket i
          { t.sockets i with rxSeq := (seg.seq + 1) % uintSize, state := .closeWait }).sockets i) got := by
        rw [sockets_setSocket_self]
        exact h.fin hcut hflag hdata (unread_congr rfl rfl rfl) rfl
      rw [receiveFin, sockets_setSocket_self]
      exact ((hmid.keeps keeps_tcpSendSegment).keeps keeps_tcpSendSegment).congr rfl rfl rfl rfl
    · split
      · have hkeeps : Keeps (t.sockets i)
            ((t.setSocket i ((t.sockets i).rtxClearIfAcked seg.ack)).sockets i) := by
          rw [sockets_setSocket_self]
          exact keeps_rtxClearIfAcked
        refine (h.keeps hkeeps).receiveData_spec hcut ?_
        rw [hkeeps.rxSeq, unread_congr hkeeps.rxBuf hkeeps.rxHead hkeeps.rxTail]
        exact hnext
      · exact h.receiveData_spec hcut hnext

theorem Intact.receiveOn_spec (hsuits : Suits (t.sockets i) (got ++ (t.sockets i).unread).length p seg):
    Intact isn stream ((receiveOn i seg now t).sockets i) got := by
  rw [receiveOn]
  split
  · rw [receiveSynRcvd]
    dsimp only
    split_ifs
    · rw [sockets_setSocket_self]
      exact h.congr rfl rfl rfl rfl
    · dsimp only
      rw [sockets_setSocket_self]
      exact (h.keeps keeps_rtxClearIfAcked).congr rfl rfl rfl rfl
    · exact h
  · -- the peer's stream does not answer a SYN
    rw [receiveSynSent, if_neg]
    · exact h
    · intro hboth
      exact absurd ((hasFlag_of_both hboth).2.symm.trans hcut.syn) Bool.noConfusion
  · rename_i hest
    exact h.receiveEstablished_spec hcut hest hsuits
  · split
    · rw [sockets_setSocket_self]
      exact h.congr rfl rfl rfl rfl
    · exact h
  · rw [sockets_setSocket_self]
    exact h.congr rfl rfl rfl rfl
  · exact h
  · exact h
  · exact h

end

theorem Intact.readRing_spec (h : Intact isn stream s got) (hn : n ≤ s.available) :
    Intact isn stream (s.readRing n).2 (got ++ (s.readRing n).1) := by
  have hbytes : got ++ (s.readRing n).1 ++ (s.readRing n).2.unread = got ++ s.unread := by
    rw [append_assoc, readRing_append_unread hn]
  refine ⟨?_, ?_⟩
  · rw [hbytes]
    exact h.bytes
  · rw [hbytes, rxSeq_readRing]
    exact h.rxSeq

theorem Intact.recv_spec (h : Intact isn stream (t.sockets k) got) {sock : ℤ} {len : ℕ} :
    Intact isn stream ((tcpRecv sock len t).2.sockets k) (got ++ received k (.recv sock len) t) := by
  rcases tcpRecv_cases sock len t with ⟨hget, hrecv⟩ | ⟨i, n, hget, hn, hrecv⟩
  · rw [received, hrecv, ite_self, append_nil]
    exact h
  · rw [received, hrecv, eq_of_getSocket hget]
    by_cases hk : i = k
    · subst hk
      rw [if_pos rfl, sockets_setSocket_self]
      exact h.readRing_spec hn
    · rw [if_neg (show ¬ (i : ℤ) = k by omega), append_nil,
        sockets_setSocket_of_ne fun hbad => hk hbad.symm]
      exact h

theorem intact_step {o o' : Receiving} {c : Call} (h : Intact isn stream (o.table.sockets k) o.got)
    (hok : InOrder isn stream k o c) (hstep : rxStep k o c o') : Intact isn stream (o'.table.sockets k) o'.got := by
  rw [hstep]
  cases c with
  | recv sock len => exact h.recv_spec
  | arrive src bytes now =>
    obtain ⟨seg, p, hparse, hcut, hsuits⟩ := hok
    dsimp only [received, exec]
    rw [append_nil, tcpReceive, hparse]
    dsimp only
    split
    · rw [receiveSyn, if_pos hcut.syn]
      exact h
    · rename_i i _
      by_cases hk : k = i
      · subst hk
        exact h.receiveOn_spec hcut hsuits
      · rw [sockets_receiveOn_of_ne hk]
        exact h
  | _ => exact hok.elim

def firstByte (flags : UInt8) : List UInt8 := bareSegment [0, 0, 0, 1] [0, 0, 0, 0] flags ++ [7]

theorem cut_firstByte {flags : BitVec 8} (hsyn : hasFlag flags tcpSyn = false) :
    Cut 0 [7] 0 ⟨4096, 80, 1, 0, flags, [7]⟩ :=
  ⟨show 1 = (0 + 1 + 0) % uintSize by decide, Nat.le_refl 1, rfl, fun _ => rfl, hsyn⟩

end AetherOs.Tcp
