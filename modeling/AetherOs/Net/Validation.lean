import AetherOs.Net.Ip
import AetherOs.Tcp.Steps

/-! # Validation of IPv4 input -/

namespace AetherOs.Net

open Base Tcp List Option TcpTable TcpSocket

variable {mem mem' : ℕ → UInt8} {len now ip off i : ℕ} {n : NetState} {buf : Bool} {call : Call} {s s' : TcpSocket}
  {t : TcpTable} {seg : Segment}

/-! ## The bytes that go to a ring -/

def hasRoom (s : TcpSocket) : Bool := (s.rxTail + 1) % wordSize % rxBufSize ≠ s.rxHead % rxBufSize

def putFrom (mem : ℕ → UInt8) : List ℕ → TcpSocket → List ℕ
  | [], _ => []
  | o :: os, s => if hasRoom s then o :: putFrom mem os (s.pushByte (mem o)) else putFrom mem os s

def takesData (seg : Segment) (s : TcpSocket) : Bool :=
  s.state = .established && !hasFlag seg.flags tcpRst && !hasFlag seg.flags tcpFin && seg.seq = s.rxSeq

def dataOff (mem : ℕ → UInt8) (off : ℕ) : ℕ := (mem (off + 12)).toNat / 16 * 4

def putOffsets (mem : ℕ → UInt8) (off len src : ℕ) (t : TcpTable) (i : ℕ) : List ℕ :=
  match parseSegment (slice mem off len) with
  | none => []
  | some seg =>
    if findConnected src seg t = some i ∧ takesData seg (t.sockets i) then
      putFrom mem ((List.range seg.data.length).map fun k => off + dataOff mem off + k) (t.sockets i)
    else []

def streamed (mem : ℕ → UInt8) (len : ℕ) (n : NetState) (i : ℕ) : List ℕ :=
  match ip4Dispatch mem len n.tcp.ip with
  | none => []
  | some call => if call.proto = .tcp then putOffsets mem call.offset call.len (srcAddr mem) n.tcp i else []

structure SameRing (s s' : TcpSocket) : Prop where
  rxBuf : s'.rxBuf = s.rxBuf
  rxHead : s'.rxHead = s.rxHead
  rxTail : s'.rxTail = s.rxTail

theorem SameRing.refl : SameRing s s := ⟨rfl, rfl, rfl⟩

theorem SameRing.trans {s'' : TcpSocket} (h : SameRing s s') (h' : SameRing s' s'') : SameRing s s'' :=
  ⟨h'.rxBuf.trans h.rxBuf, h'.rxHead.trans h.rxHead, h'.rxTail.trans h.rxTail⟩

theorem SameRing.of_keeps (h : Keeps s s') : SameRing s s' := ⟨h.rxBuf, h.rxHead, h.rxTail⟩

theorem pushByte_of_full {b : UInt8} (h : hasRoom s = false) : s.pushByte b = s := by
  rw [pushByte, if_neg]
  simpa [hasRoom] using h

theorem foldl_putFrom (os : List ℕ) (s : TcpSocket) :
    ((putFrom mem os s).map mem).foldl pushByte s = (os.map mem).foldl pushByte s := by
  induction os generalizing s with
  | nil => rfl
  | cons o os ih =>
    rw [putFrom]
    split_ifs with hfull
    · rw [map_cons, foldl_cons, map_cons, foldl_cons]
      exact ih (s.pushByte (mem o))
    · rw [ih, map_cons, foldl_cons, pushByte_of_full (Bool.eq_false_iff.mpr hfull)]

theorem mem_of_mem_putFrom {os : List ℕ} {o : ℕ} (h : o ∈ putFrom mem os s) : o ∈ os := by
  induction os generalizing s with
  | nil => exact h
  | cons p os ih =>
    rw [putFrom] at h
    split at h
    · rcases mem_cons.mp h with rfl | h
      · exact mem_cons_self
      · exact mem_cons_of_mem _ (ih h)
    · exact mem_cons_of_mem _ (ih h)

theorem putFrom_of_full {os : List ℕ} (h : hasRoom s = false) : putFrom mem os s = [] := by
  induction os with
  | nil => rfl
  | cons o os ih => rw [putFrom, if_neg (Bool.eq_false_iff.mp h), ih]

theorem SameRing.push (h : SameRing s s') (b : UInt8) : SameRing (s.pushByte b) (s'.pushByte b) := by
  rw [pushByte, pushByte, h.rxBuf, h.rxHead, h.rxTail]
  split
  · exact ⟨rfl, rfl, rfl⟩
  · exact h

theorem SameRing.foldl (h : SameRing s s') (data : List UInt8) :
    SameRing (data.foldl pushByte s) (data.foldl pushByte s') := by
  induction data generalizing s s' with
  | nil => exact h
  | cons b data ih => exact ih (h.push b)

theorem ring_setSocket (h : SameRing (t.sockets i) s) : SameRing (t.sockets i) ((t.setSocket i s).sockets i) := by
  rw [sockets_setSocket_self]
  exact h

theorem ring_tcpSendSegment {flags : BitVec 8} {data : List UInt8} (h : SameRing s (t.sockets i)) :
    SameRing s ((tcpSendSegment i flags data now t).2.sockets i) := h.trans (.of_keeps keeps_tcpSendSegment)

theorem ring_receiveData :
    SameRing (if seg.seq = (t.sockets i).rxSeq then seg.data.foldl pushByte (t.sockets i) else t.sockets i)
      ((receiveData i seg now t).sockets i) := by
  by_cases hseq : seg.seq = (t.sockets i).rxSeq
  · rw [if_pos hseq]
    rcases Nat.eq_zero_or_pos seg.data.length with hzero | hdata
    · rw [receiveData, if_neg fun h => Nat.ne_of_gt h.1 hzero, eq_nil_of_length_eq_zero hzero]
      exact .refl
    · have hkeeps : SameRing _ ((receiveData i seg now t).sockets i) := .of_keeps (keeps_receiveData hdata hseq)
      exact ⟨hkeeps.rxBuf, hkeeps.rxHead, hkeeps.rxTail⟩
  · rw [if_neg hseq, receiveData, if_neg fun h => hseq h.2]
    exact .refl

theorem ring_receiveEstablished (hest : (t.sockets i).state = .established) :
    SameRing (if takesData seg (t.sockets i) then seg.data.foldl pushByte (t.sockets i) else t.sockets i)
      ((receiveEstablished i seg now t).sockets i) := by
  rw [receiveEstablished, takesData, hest]
  simp only [decide_true, Bool.true_and]
  cases hrst : hasFlag seg.flags tcpRst with
  | true => exact ring_setSocket ⟨rfl, rfl, rfl⟩
  | false =>
    cases hfin : hasFlag seg.flags tcpFin with
    | true =>
      simp only [receiveFin, Bool.not_true, Bool.and_false, Bool.false_and, Bool.false_eq_true, if_false, if_true]
      rw [sockets_setSocket_self]
      refine SameRing.trans (ring_tcpSendSegment (ring_tcpSendSegment (ring_setSocket ?_))) ⟨rfl, rfl, rfl⟩
      exact ⟨rfl, rfl, rfl⟩
    | false =>
      simp only [Bool.not_false, Bool.true_and, Bool.false_eq_true, if_false, decide_eq_true_eq]
      generalize hcleared : (if hasFlag seg.flags tcpAck ∧ (t.sockets i).rtxTime ≠ 0
        then t.setSocket i ((t.sockets i).rtxClearIfAcked seg.ack) else t) = u
      have hkeeps : Keeps (t.sockets i) (u.sockets i) := by
        rw [← hcleared]
        split
        · rw [sockets_setSocket_self]
          exact keeps_rtxClearIfAcked
        · exact .refl
      refine SameRing.trans ?_ ring_receiveData
      rw [hkeeps.rxSeq]
      split
      · exact SameRing.foldl (.of_keeps hkeeps) seg.data
      · exact .of_keeps hkeeps

theorem ring_receiveOn :
    SameRing (if takesData seg (t.sockets i) then seg.data.foldl pushByte (t.sockets i) else t.sockets i)
      ((receiveOn i seg now t).sockets i) := by
  by_cases hest : (t.sockets i).state = .established
  · rw [receiveOn, hest]
    exact ring_receiveEstablished hest
  · rw [takesData, decide_eq_false hest]
    simp only [Bool.false_and, Bool.false_eq_true, if_false]
    rw [receiveOn]
    split
    · rw [receiveSynRcvd]
      dsimp only
      split_ifs
      · exact ring_setSocket ⟨rfl, rfl, rfl⟩
      · exact ring_setSocket (SameRing.trans (.of_keeps keeps_rtxClearIfAcked) ⟨rfl, rfl, rfl⟩)
      · exact .refl
    · rw [receiveSynSent]
      dsimp only
      split_ifs
      · exact ring_tcpSendSegment (ring_setSocket (SameRing.trans (.of_keeps keeps_rtxClearIfAcked) ⟨rfl, rfl, rfl⟩))
      · exact .refl
      · exact .refl
    · rename_i heq
      exact absurd heq hest
    · split
      · exact ring_setSocket ⟨rfl, rfl, rfl⟩
      · exact .refl
    · exact ring_setSocket ⟨rfl, rfl, rfl⟩
    · exact .refl
    · exact .refl
    · exact .refl

@[simp]
theorem length_slice : (slice mem off len).length = len := by rw [slice, length_map, length_range]

theorem drop_slice (d : ℕ) : (slice mem off len).drop d = slice mem (off + d) (len - d) := by
  refine ext_getElem (by simp) fun k hk _ => ?_
  simp only [slice, getElem_drop, getElem_map, getElem_range, Nat.add_assoc]

theorem parseSegment_data (h : parseSegment (slice mem off len) = some seg) :
    headerSize ≤ len ∧ seg.data = slice mem (off + dataOff mem off) (len - dataOff mem off) := by
  rw [parseSegment, length_slice] at h
  split at h
  · cases h
  rename_i hlen
  have hle : headerSize ≤ len := Nat.not_lt.mp hlen
  have hbyte : (slice mem off len).getD 12 0 = mem (off + 12) := by
    rw [headerSize] at hle
    rw [slice, getD_eq_getElem?_getD, List.getElem?_map, List.getElem?_range (by omega), map_some,
      getD_some]
  obtain rfl := some.inj h
  refine ⟨hle, ?_⟩
  simp only [hbyte]
  change (if dataOff mem off ≤ len then (slice mem off len).drop (dataOff mem off) else []) = _
  split_ifs with hbeyond
  · exact drop_slice (dataOff mem off)
  · rw [Nat.sub_eq_zero_of_le (by omega)]
    rfl

theorem mem_putOffsets {src o : ℕ} (h : o ∈ putOffsets mem off len src t i) :
    off + dataOff mem off ≤ o ∧ o < off + len := by
  rw [putOffsets] at h
  split at h
  · cases h
  rename_i seg hparse
  obtain ⟨-, hdata⟩ := parseSegment_data hparse
  split at h
  · obtain ⟨k, hk, rfl⟩ := mem_map.mp (mem_of_mem_putFrom h)
    rw [mem_range, hdata, length_slice] at hk
    omega
  · cases h

theorem taken_of_mem_putOffsets {src o : ℕ} (h : o ∈ putOffsets mem off len src t i) :
    ∃ seg, parseSegment (slice mem off len) = some seg ∧ findConnected src seg t = some i ∧
      takesData seg (t.sockets i) ∧ hasRoom (t.sockets i) := by
  rw [putOffsets] at h
  split at h
  · cases h
  rename_i seg hparse
  split_ifs at h with hfound
  · refine ⟨seg, hparse, hfound.1, hfound.2, Bool.not_eq_false _ ▸ fun hfull => ?_⟩
    rw [putFrom_of_full hfull] at h
    cases h
  · cases h

theorem ring_tcpReceive {src : ℕ} (hused : (t.sockets i).used) :
    SameRing (((putOffsets mem off len src t i).map mem).foldl pushByte (t.sockets i))
      ((tcpReceive src (slice mem off len) now t).sockets i) := by
  rw [putOffsets, tcpReceive]
  cases hparse : parseSegment (slice mem off len) with
  | none => exact .refl
  | some seg =>
    obtain ⟨-, hdata⟩ := parseSegment_data hparse
    have hbytes : ((List.range seg.data.length).map fun k => off + dataOff mem off + k).map mem = seg.data := by
      rw [List.map_map, hdata, length_slice]
      rfl
    simp only
    cases hfound : findConnected src seg t with
    | none =>
      rw [if_neg (by simp)]
      rcases receiveSyn_cases src seg now t with hsame | ⟨j, t', -, -, hfree, hopened, hdone⟩
      · rw [hsame]
        exact .refl
      · -- the slot of the new connection was not in use
        have hne : i ≠ j := by
          rintro rfl
          rw [unused_of_findFree hfree] at hused
          cases hused
        rw [hdone, hopened.only.set.sockets i hne]
        exact .refl
    | some j =>
      by_cases hij : i = j
      · subst hij
        have hring : SameRing _ ((receiveOn i seg now t).sockets i) := ring_receiveOn
        by_cases htakes : takesData seg (t.sockets i)
        · rw [if_pos ⟨rfl, htakes⟩, foldl_putFrom, hbytes]
          rwa [if_pos htakes] at hring
        · rw [if_neg fun h => htakes h.2]
          rwa [if_neg htakes] at hring
      · rw [if_neg fun h => hij (some.inj h.1).symm, sockets_receiveOn_of_ne hij]
        exact .refl

/-! ## The header -/

structure Passes (mem : ℕ → UInt8) (len ip : ℕ) : Prop where
  room : ip4HeaderSize ≤ len
  least : 20 ≤ ihl mem
  header : ihl mem ≤ len
  checksum : netChecksum mem 0 (ihl mem) = 0
  dst : dstAddr mem = ip ∨ dstAddr mem = 0xFFFFFFFF
  proto : (protoOf (mem 9)).isSome

theorem ip4Dispatch_eq_some : ip4Dispatch mem len ip = some call ↔
    Passes mem len ip ∧ protoOf (mem 9) = some call.proto ∧ call.offset = ihl mem ∧
      call.len = subWord (totalLen mem) (ihl mem) := by
  rw [ip4Dispatch]
  constructor
  · intro h
    split_ifs at h with hroom hihl hsum hdst
    obtain ⟨proto, hproto, rfl⟩ := map_eq_some_iff.mp h
    refine ⟨⟨Nat.not_lt.mp hroom, by omega, by omega, not_not.mp hsum, by omega, ?_⟩, hproto, rfl, rfl⟩
    rw [hproto]
    rfl
  · rintro ⟨⟨hroom, hleast, hheader, hsum, hdst, -⟩, hproto, hoff, hlen⟩
    rw [if_neg (by omega), if_neg (by omega), if_neg (not_not.mpr hsum), if_neg (by omega), hproto, map_some,
      ← hlen, ← hoff]

theorem ip4Dispatch_eq_none : ip4Dispatch mem len ip = none ↔ ¬ Passes mem len ip := by
  constructor
  · intro hnone hpass
    obtain ⟨proto, hproto⟩ := isSome_iff_exists.mp hpass.proto
    have hsome : ip4Dispatch mem len ip = some ⟨proto, ihl mem, subWord (totalLen mem) (ihl mem)⟩ :=
      ip4Dispatch_eq_some.mpr ⟨hpass, hproto, rfl, rfl⟩
    rw [hnone] at hsome
    cases hsome
  · intro hnot
    cases hcall : ip4Dispatch mem len ip with
    | none => rfl
    | some call => exact absurd (ip4Dispatch_eq_some.mp hcall).1 hnot

/-! ## Memory outside the packet -/

def AgreeBelow (len : ℕ) (mem mem' : ℕ → UInt8) : Prop := ∀ j < len, mem' j = mem j

section

variable (h : AgreeBelow len mem mem')

include h

theorem ntohsAt_congr (hoff : off + 2 ≤ len) : ntohsAt mem' off = ntohsAt mem off := by
  rw [ntohsAt, ntohsAt, h off (by omega), h (off + 1) (by omega)]

theorem slice_congr {k : ℕ} (hoff : off + k ≤ len) : slice mem' off k = slice mem off k := by
  refine map_congr_left fun j hj => ?_
  rw [mem_range] at hj
  exact h _ (by omega)

theorem netChecksum_congr {k : ℕ} (hoff : off + k ≤ len) :
    netChecksum mem' off k = netChecksum mem off k := by
  have hwords : ∀ (ks : List ℕ) (acc : ℕ), (∀ j ∈ ks, off + 2 * j + 2 ≤ len) →
      ks.foldl (fun acc j => (acc + leNat mem' 2 (off + 2 * j)) % uintSize) acc =
        ks.foldl (fun acc j => (acc + leNat mem 2 (off + 2 * j)) % uintSize) acc := by
    intro ks
    induction ks with
    | nil => exact fun _ _ => rfl
    | cons j ks ih =>
      intro acc hks
      have hj := hks j mem_cons_self
      rw [foldl_cons, foldl_cons, leNat_congr fun b _ hlt => h b (by omega)]
      exact ih _ fun j hj => hks j (mem_cons_of_mem _ hj)
  have hrange : ∀ j ∈ List.range (k / 2), off + 2 * j + 2 ≤ len := by
    intro j hj
    rw [mem_range] at hj
    omega
  rw [netChecksum, netChecksum, sumWords, sumWords, hwords _ 0 hrange]
  by_cases hodd : k % 2 = 1
  · rw [if_pos hodd, if_pos hodd, h _ (by omega)]
  · rw [if_neg hodd, if_neg hodd]

theorem echoReply_congr {k : ℕ} (hoff : off + k ≤ len) :
    echoReply mem' off k = echoReply mem off k := by
  have hdraft : AgreeBelow k (replyDraft mem off) (replyDraft mem' off) := by
    intro j hj
    rw [replyDraft, replyDraft, h (off + j) (by omega)]
  have hfinal : ∀ sum, AgreeBelow k (putLE 2 2 sum (replyDraft mem off)) (putLE 2 2 sum (replyDraft mem' off)) := by
    intro sum j hj
    rw [putLE, putLE, splice, splice, hdraft j hj]
  rw [echoReply, echoReply, netChecksum_congr hdraft (by omega), slice_congr (hfinal _) (by omega)]

theorem srcAddr_congr (hlen : ip4HeaderSize ≤ len) : srcAddr mem' = srcAddr mem :=
  leNat_congr fun j _ hlt => h j (by rw [ip4HeaderSize] at hlen; omega)

theorem icmpReceive_congr {k : ℕ} (hlen : ip4HeaderSize ≤ len) (hoff : off + k ≤ len) :
    icmpReceive buf mem' off k n = icmpReceive buf mem off k n := by
  rw [icmpReceive, icmpReceive, srcAddr_congr h hlen, echoReply_congr h hoff]
  by_cases hk : k < shortHeaderSize
  · rw [if_pos hk, if_pos hk]
  · have hk' := hk
    rw [shortHeaderSize] at hk'
    rw [if_neg hk, if_neg hk, h off (by omega), ntohsAt_congr h (by omega)]

theorem udpReceive_congr {k : ℕ} (hlen : ip4HeaderSize ≤ len) (hoff : off + k ≤ len) :
    udpReceive mem' off k n = udpReceive mem off k n := by
  rw [udpReceive, udpReceive]
  by_cases hk : k < shortHeaderSize
  · rw [if_pos hk, if_pos hk]
  · have hk' := hk
    rw [shortHeaderSize] at hk'
    rw [if_neg hk, if_neg hk]
    simp only [ntohsAt_congr h (show off + 4 + 2 ≤ len by omega)]
    by_cases hbad : ntohsAt mem (off + 4) < shortHeaderSize ∨ k < ntohsAt mem (off + 4)
    · rw [if_pos hbad, if_pos hbad]
    · rw [if_neg hbad, if_neg hbad, srcAddr_congr h hlen, ntohsAt_congr h (show off + 2 ≤ len by omega),
        ntohsAt_congr h (show off + 2 + 2 ≤ len by omega),
        slice_congr h (show off + shortHeaderSize + (ntohsAt mem (off + 4) - shortHeaderSize) ≤ len by omega)]

theorem ip4Dispatch_congr : ip4Dispatch mem' len ip = ip4Dispatch mem len ip := by
  rw [ip4Dispatch, ip4Dispatch]
  by_cases hroom : len < ip4HeaderSize
  · rw [if_pos hroom, if_pos hroom]
  · have hlen := Nat.not_lt.mp hroom
    rw [ip4HeaderSize] at hlen
    have hihl : ihl mem' = ihl mem := by rw [ihl, ihl, h 0 (by omega)]
    have hdst : dstAddr mem' = dstAddr mem := leNat_congr fun j _ hlt => h j (by omega)
    have htotal : totalLen mem' = totalLen mem := ntohsAt_congr h (by omega)
    rw [if_neg hroom, if_neg hroom, hihl, hdst, htotal, h 9 (by omega)]
    by_cases hbad : ihl mem < 20 ∨ len < ihl mem
    · rw [if_pos hbad, if_pos hbad]
    · rw [if_neg hbad, if_neg hbad, netChecksum_congr h (by omega)]

end

/-! ## Validation -/

structure Validated (buf : Bool) (mem : ℕ → UInt8) (len now : ℕ) (n : NetState) : Prop where
  dropped : totalLen mem < ihl mem ∨ len < totalLen mem → ip4Dispatch mem len n.tcp.ip = none
  exact : ∀ call, ip4Dispatch mem len n.tcp.ip = some call →
    call.offset = ihl mem ∧ call.offset + call.len = totalLen mem
  reply : ∀ r, (ip4Receive buf mem len now n).replies = n.replies ++ [r] → ∀ k, 8 ≤ k → k < r.bytes.length →
    r.bytes[k]? = some (mem (ihl mem + k)) ∧ ihl mem + k < totalLen mem ∧ ihl mem + k < len
  stream : ∀ i, ∀ o ∈ streamed mem len n i, ihl mem + 20 ≤ o ∧ o < totalLen mem ∧ o < len
  rings : ∀ i, (n.tcp.sockets i).used = true →
    SameRing (((streamed mem len n i).map mem).foldl pushByte (n.tcp.sockets i))
      ((ip4Receive buf mem len now n).tcp.sockets i)
  independent : ∀ mem', AgreeBelow len mem mem' → ip4Receive buf mem' len now n = ip4Receive buf mem len now n

def Taken (mem : ℕ → UInt8) (n : NetState) : Prop :=
  ∃ seg i, parseSegment (slice mem (ihl mem) (totalLen mem - ihl mem)) = some seg ∧
    findConnected (srcAddr mem) seg n.tcp = some i ∧ takesData seg (n.tcp.sockets i) = true ∧
      hasRoom (n.tcp.sockets i) = true

def LengthsFit (mem : ℕ → UInt8) (len : ℕ) (n : NetState) : Prop :=
  ihl mem ≤ totalLen mem ∧ totalLen mem ≤ len ∧
    (protoOf (mem 9) = some .tcp → Taken mem n → headerSize ≤ dataOff mem (ihl mem))

theorem totalLen_lt : totalLen mem < wordSize := by
  have hhigh : (mem 2).toNat < 256 := (mem 2).toNat_lt
  have hlow : (mem (2 + 1)).toNat < 256 := (mem (2 + 1)).toNat_lt
  rw [totalLen, ntohsAt, wordSize]
  omega

theorem getElem_echoReply {k l : ℕ} (hk : 8 ≤ k) (hl : k < l) : (echoReply mem off l)[k]? = some (mem (off + k)) := by
  rw [echoReply, slice, List.getElem?_map, List.getElem?_range hl, map_some, Nat.zero_add, putLE,
    splice_outside (by omega), replyDraft, if_neg (by omega), if_neg (by omega)]

theorem reply_icmpReceive {l : ℕ} {r : Reply} (h : (icmpReceive buf mem off l n).replies = n.replies ++ [r]) :
    r.bytes = echoReply mem off l := by
  have hsame : n.replies ≠ n.replies ++ [r] := by simp
  rw [icmpReceive] at h
  split_ifs at h
  all_goals first
    | exact absurd h hsame
    | exact (congrArg Reply.bytes (singleton_inj.mp (append_cancel_left h))).symm

theorem replies_udpReceive {l : ℕ} : (udpReceive mem off l n).replies = n.replies := by
  rw [udpReceive]
  split_ifs
  · rfl
  · simp only
    split_ifs <;> rfl

theorem tcp_icmpReceive {l : ℕ} : (icmpReceive buf mem off l n).tcp = n.tcp := by
  rw [icmpReceive]
  split_ifs <;> rfl

theorem tcp_udpReceive {l : ℕ} : (udpReceive mem off l n).tcp = n.tcp := by
  rw [udpReceive]
  split_ifs
  · rfl
  · simp only
    split_ifs <;> rfl

theorem mem_streamed_of_taken (hcall : ip4Dispatch mem len n.tcp.ip = some ⟨.tcp, ihl mem, totalLen mem - ihl mem⟩)
    (htaken : Taken mem n) (hshort : dataOff mem (ihl mem) < headerSize) :
    ∃ i, ihl mem + dataOff mem (ihl mem) ∈ streamed mem len n i := by
  obtain ⟨seg, i, hparse, hfound, htakes, hroom⟩ := htaken
  refine ⟨i, ?_⟩
  obtain ⟨hle, hdata⟩ := parseSegment_data hparse
  have hlength : seg.data.length = totalLen mem - ihl mem - dataOff mem (ihl mem) := by rw [hdata, length_slice]
  obtain ⟨m, hm⟩ : ∃ m, seg.data.length = m + 1 := ⟨seg.data.length - 1, by omega⟩
  rw [streamed, hcall]
  simp only [if_true]
  rw [putOffsets, hparse]
  simp only
  rw [if_pos ⟨hfound, htakes⟩, hm, range_succ_eq_map, map_cons, putFrom, if_pos hroom, Nat.add_zero]
  exact mem_cons_self

theorem ip4Receive_of_none (h : ip4Dispatch mem len n.tcp.ip = none) : ip4Receive buf mem len now n = n := by
  rw [ip4Receive, h, map_none, getD_none]

theorem ip4Receive_of_some (h : ip4Dispatch mem len n.tcp.ip = some call) :
    ip4Receive buf mem len now n = handle buf mem now n call := by
  rw [ip4Receive, h, map_some, getD_some]

theorem validated_of_none (hnone : ip4Dispatch mem len n.tcp.ip = none) : Validated buf mem len now n := by
  have hstreamed : ∀ i, streamed mem len n i = [] := fun i => by rw [streamed, hnone]
  refine ⟨fun _ => hnone, ?_, ?_, ?_, ?_, ?_⟩
  · intro call hsome
    rw [hnone] at hsome
    cases hsome
  · intro r hr
    rw [ip4Receive_of_none hnone] at hr
    exact absurd hr (by simp)
  · intro i o ho
    rw [hstreamed] at ho
    cases ho
  · intro i _
    rw [hstreamed, ip4Receive_of_none hnone]
    exact .refl
  · intro mem' hagree
    rw [ip4Receive_of_none hnone, ip4Receive_of_none ((ip4Dispatch_congr hagree).trans hnone)]

theorem rings_ip4Receive {proto : Proto} {l : ℕ} (hcall : ip4Dispatch mem len n.tcp.ip = some ⟨proto, off, l⟩)
    (hused : (n.tcp.sockets i).used) :
    SameRing (((streamed mem len n i).map mem).foldl pushByte (n.tcp.sockets i))
      ((ip4Receive buf mem len now n).tcp.sockets i) := by
  rw [streamed, hcall, ip4Receive_of_some hcall]
  cases proto with
  | icmp =>
    simp only [handle, reduceCtorEq, if_false, tcp_icmpReceive]
    exact .refl
  | tcp =>
    simp only [if_true]
    exact ring_tcpReceive hused
  | udp =>
    simp only [handle, reduceCtorEq, if_false, tcp_udpReceive]
    exact .refl

theorem ip4Receive_congr {proto : Proto} {l : ℕ} (hcall : ip4Dispatch mem len n.tcp.ip = some ⟨proto, off, l⟩)
    (hlen : ip4HeaderSize ≤ len) (hend : off + l ≤ len) (h : AgreeBelow len mem mem') :
    ip4Receive buf mem' len now n = ip4Receive buf mem len now n := by
  rw [ip4Receive_of_some hcall, ip4Receive_of_some ((ip4Dispatch_congr h).trans hcall)]
  cases proto with
  | icmp => exact icmpReceive_congr h hlen hend
  | tcp => simp only [handle, srcAddr_congr h hlen, slice_congr h hend]
  | udp => exact udpReceive_congr h hlen hend

theorem reply_ip4Receive {proto : Proto} {l k : ℕ} {r : Reply}
    (hcall : ip4Dispatch mem len n.tcp.ip = some ⟨proto, off, l⟩)
    (hr : (ip4Receive buf mem len now n).replies = n.replies ++ [r]) (hk : 8 ≤ k) (hlt : k < r.bytes.length) :
    r.bytes[k]? = some (mem (off + k)) ∧ k < l := by
  have hsame : n.replies ≠ n.replies ++ [r] := by simp
  rw [ip4Receive_of_some hcall] at hr
  cases proto with
  | icmp =>
    have hbytes := reply_icmpReceive hr
    rw [hbytes, echoReply, length_slice] at hlt
    exact ⟨hbytes ▸ getElem_echoReply hk hlt, hlt⟩
  | tcp => exact absurd hr hsame
  | udp => exact absurd (replies_udpReceive.symm.trans hr) hsame

/-- A packet is handled by its received bytes and nothing else exactly when it does not pass the checks of its header or
its lengths fit. -/
theorem validated_iff (buf : Bool) (mem : ℕ → UInt8) (len now : ℕ) (n : NetState) :
    Validated buf mem len now n ↔ (Passes mem len n.tcp.ip → LengthsFit mem len n) := by
  constructor
  · intro hv hpass
    obtain ⟨proto, hproto⟩ := isSome_iff_exists.mp hpass.proto
    have hcall : ip4Dispatch mem len n.tcp.ip = some ⟨proto, ihl mem, subWord (totalLen mem) (ihl mem)⟩ :=
      ip4Dispatch_eq_some.mpr ⟨hpass, hproto, rfl, rfl⟩
    have hlens : ¬ (totalLen mem < ihl mem ∨ len < totalLen mem) := by
      intro hbad
      rw [hv.dropped hbad] at hcall
      cases hcall
    have hle : ihl mem ≤ totalLen mem := by omega
    rw [subWord_eq totalLen_lt hle] at hcall
    refine ⟨hle, by omega, fun htcp htaken => ?_⟩
    obtain rfl : proto = .tcp := some.inj (hproto.symm.trans htcp)
    by_contra hshort
    obtain ⟨i, hmem⟩ := mem_streamed_of_taken hcall htaken (by omega)
    have := (hv.stream i _ hmem).1
    rw [headerSize] at hshort
    omega
  · intro hfit
    by_cases hpass : Passes mem len n.tcp.ip
    · obtain ⟨hle, hlen, htcp⟩ := hfit hpass
      obtain ⟨proto, hproto⟩ := isSome_iff_exists.mp hpass.proto
      have hcall : ip4Dispatch mem len n.tcp.ip = some ⟨proto, ihl mem, totalLen mem - ihl mem⟩ :=
        ip4Dispatch_eq_some.mpr ⟨hpass, hproto, rfl, (subWord_eq totalLen_lt hle).symm⟩
      have hend : ihl mem + (totalLen mem - ihl mem) ≤ len := by omega
      refine ⟨fun hbad => by omega, ?_, ?_, ?_, fun i hused => rings_ip4Receive hcall hused,
        fun mem' hagree => ip4Receive_congr hcall hpass.room hend hagree⟩
      · intro call hsome
        obtain rfl := some.inj (hcall.symm.trans hsome)
        exact ⟨rfl, Nat.add_sub_cancel' hle⟩
      · intro r hr k hk hlt
        obtain ⟨hbyte, hkl⟩ := reply_ip4Receive hcall hr hk hlt
        exact ⟨hbyte, by omega, by omega⟩
      · intro i o ho
        rw [streamed, hcall] at ho
        by_cases hisTcp : proto = .tcp
        · rw [hisTcp] at ho hproto
          simp only [if_true] at ho
          obtain ⟨seg, hparse, hfound, htakes, hroom⟩ := taken_of_mem_putOffsets ho
          have hoff := htcp hproto ⟨seg, i, hparse, hfound, htakes, hroom⟩
          obtain ⟨hlo, hhi⟩ := mem_putOffsets ho
          rw [headerSize] at hoff
          omega
        · simp only [hisTcp, if_false] at ho
          cases ho
    · exact validated_of_none (ip4Dispatch_eq_none.mpr hpass)

def longRequest (after : UInt8) : ℕ → UInt8 := fun k =>
  ([0x45, 0, 0, 32, 0, 0, 0, 0, 64, 1, 0x62, 0xCD, 10, 0, 2, 2, 10, 0, 2, 15, 8, 0, 0, 0, 0, 1, 0, 1] : List UInt8).getD k
    after

def quiet : NetState where
  tcp := ⟨fun _ => .zero, 0, 0x0F02000A, fun _ => true, [], []⟩
  listeners := fun _ => ⟨0, none⟩
  icmpReplySeq := 0
  replies := []
  datagrams := []
  overrun := false

/-- The request is answered with four bytes of the memory behind the packet. -/
theorem reply_reads_beyond_packet :
    AgreeBelow 28 (longRequest 0xAA) (longRequest 0xBB) ∧
    (ip4Receive true (longRequest 0xAA) 28 0 quiet).replies.map (fun r => r.bytes.drop 8) = [[0xAA, 0xAA, 0xAA, 0xAA]] ∧
    (ip4Receive true (longRequest 0xBB) 28 0 quiet).replies.map (fun r => r.bytes.drop 8) = [[0xBB, 0xBB, 0xBB, 0xBB]] ∧
    ¬ Validated true (longRequest 0xAA) 28 0 quiet := by
  have hagree : AgreeBelow 28 (longRequest 0xAA) (longRequest 0xBB) := by
    rw [AgreeBelow]
    decide
  refine ⟨hagree, by decide +kernel, by decide +kernel, fun hv => ?_⟩
  have hsame := congrArg (fun n => n.replies.map fun r => r.bytes.drop 8) (hv.independent _ hagree)
  exact absurd hsame (by decide +kernel)

end AetherOs.Net
