import AetherOs.Base.Run
import AetherOs.Tcp.Steps
import Mathlib.Data.List.GetD

/-! # Data that was not acknowledged -/

namespace AetherOs.Tcp

open Base Function List TcpTable TcpSocket

variable {s s' s'' : TcpSocket} {t : TcpTable} {i j k n now base x y ack : ℕ} {b : UInt8} {data : List UInt8}
  {seg : Segment} {flags : BitVec 8}

def covers (ack x : ℕ) : Bool :=
  let d := (ack + uintSize - x % uintSize) % uintSize
  0 < d && d ≤ 2 ^ 31

def Saved (s : TcpSocket) (x : ℕ) (b : UInt8) : Prop :=
  s.rtxTime ≠ 0 ∧ ∃ off, off < s.rtxLen ∧ (s.rtxSeq + off) % uintSize = x % uintSize ∧ s.rtxBuf off = b

def Carries (p : Packet) (x : ℕ) (b : UInt8) : Prop :=
  ∃ off, p.data[off]? = some b ∧ (p.seq + off) % uintSize = x % uintSize

def Resent (t : TcpTable) (k x : ℕ) (b : UInt8) : Prop :=
  ∀ now, (t.sockets k).due now = true → (t.sockets k).rtxCount < maxRetries →
    ∃ p taken, (p, taken) ∈ (tcpTick now t).sent.drop t.sent.length ∧ Carries p x b

structure Sending where
  table : TcpTable
  handed : List UInt8
  covered : ℕ → Bool

def ackedBy (k : ℕ) : Call → TcpTable → Option ℕ
  | .arrive src bytes _, t =>
    match parseSegment bytes with
    | none => none
    | some seg => if findConnected src seg t = some k then some seg.ack else none
  | _, _ => none

def handedBy (k : ℕ) : Call → TcpTable → List UInt8
  | .send sock data now, t => if sock = k ∧ (tcpSend sock data now t).1 = 0 then data else []
  | _, _ => []

def txStep (base k : ℕ) (o : Sending) (c : Call) (o' : Sending) : Prop :=
  o' = {
    table := exec c o.table
    handed := o.handed ++ handedBy k c o.table
    covered := match ackedBy k c o.table with
      | none => o.covered
      | some ack => fun j => o.covered j || decide (j < o.handed.length) && covers ack (base + j) }

def Kept (base k : ℕ) (o : Sending) : Prop :=
  (o.table.sockets k).used = true → (o.table.sockets k).state = .established →
    ∀ j, j < o.handed.length → o.covered j = false →
      Saved (o.table.sockets k) (base + j) (o.handed.getD j 0) ∧
      Resent o.table k (base + j) (o.handed.getD j 0)

def PureAck (seg : Segment) : Prop :=
  hasFlag seg.flags tcpAck = true ∧ hasFlag seg.flags (tcpSyn ||| tcpFin ||| tcpRst) = false

def SenderCall : Call → Prop
  | .send _ data _ => 0 < data.length ∧ data.length ≤ 1400
  | .arrive _ bytes _ => ∃ seg, parseSegment bytes = some seg ∧ PureAck seg
  | .tick _ => True
  | _ => False

def Careful (k : ℕ) (o : Sending) : Call → Prop
  | .send sock _ now => sock = k → (∀ j, j < o.handed.length → o.covered j = true) ∧ now % uintSize ≠ 0
  | .arrive src bytes now => ∀ ack, ackedBy k (.arrive src bytes now) o.table = some ack →
    (o.table.sockets k).rtxTime ≠ 0 → (o.table.sockets k).rtxEndSeq ≤ ack →
    ∀ off, off < (o.table.sockets k).rtxLen → covers ack ((o.table.sockets k).rtxSeq + off) = true
  | .tick now => (o.table.sockets k).due now = true → now % uintSize ≠ 0
  | _ => True

theorem covers_congr (h : x % uintSize = y % uintSize) : covers ack x = covers ack y := by
  rw [covers, covers, h]

theorem sockets_foldl_tickSocket {is : List ℕ} (h : k ∉ is) : (is.foldl (tickSocket now) t).sockets k = t.sockets k := by
  induction is generalizing t with
  | nil => rfl
  | cons i is ih =>
    rw [mem_cons, not_or] at h
    rw [foldl_cons, ih h.2, sockets_tickSocket_of_ne h.1]

theorem sent_foldl_tickSocket (now : ℕ) (t : TcpTable) (is : List ℕ) :
    ∃ new, (is.foldl (tickSocket now) t).sent = t.sent ++ new := by
  induction is generalizing t with
  | nil => exact ⟨[], (append_nil _).symm⟩
  | cons i is ih =>
    have hone : ∃ new, (tickSocket now t i).sent = t.sent ++ new := by
      rw [tickSocket]
      split
      · split
        · exact ⟨[], (append_nil _).symm⟩
        · exact ⟨_, rfl⟩
      · exact ⟨[], (append_nil _).symm⟩
    obtain ⟨first, hfirst⟩ := hone
    obtain ⟨rest, hrest⟩ := ih (tickSocket now t i)
    exact ⟨first ++ rest, by rw [foldl_cons, hrest, hfirst, append_assoc]⟩

theorem range_split (hk : k < n) : ∃ before after, List.range n = before ++ k :: after ∧ k ∉ before ∧ k ∉ after := by
  obtain ⟨before, after, hsplit⟩ := append_of_mem (mem_range.mpr hk)
  have hnodup : (before ++ k :: after).Nodup := hsplit ▸ nodup_range
  rw [nodup_append, nodup_cons] at hnodup
  exact ⟨before, after, hsplit, fun hmem => hnodup.2.2 k hmem k mem_cons_self rfl, hnodup.2.1.1⟩

theorem sockets_tcpTick (hk : k < maxSockets) : (tcpTick now t).sockets k = (t.sockets k).ticked now := by
  obtain ⟨before, after, hsplit, hbefore, hafter⟩ := range_split hk
  rw [tcpTick, hsplit, foldl_append, foldl_cons, sockets_foldl_tickSocket hafter, sockets_tickSocket_self,
    sockets_foldl_tickSocket hbefore]

theorem sent_tcpTick (hk : k < maxSockets) (hdue : (t.sockets k).due now)
    (hcount : (t.sockets k).rtxCount < maxRetries) :
    ∃ taken, (((t.sockets k).retry now).rtxPacket, taken) ∈ (tcpTick now t).sent.drop t.sent.length := by
  obtain ⟨before, after, hsplit, hbefore, -⟩ := range_split hk
  rw [tcpTick, hsplit, foldl_append, foldl_cons]
  obtain ⟨first, hfirst⟩ := sent_foldl_tickSocket now t before
  have hself : (before.foldl (tickSocket now) t).sockets k = t.sockets k := sockets_foldl_tickSocket hbefore
  generalize before.foldl (tickSocket now) t = mid at *
  obtain ⟨rest, hrest⟩ := sent_foldl_tickSocket now (tickSocket now mid k) after
  refine ⟨mid.link mid.sent.length, ?_⟩
  have htick : (tickSocket now mid k).sent =
      mid.sent ++ [(((t.sockets k).retry now).rtxPacket, mid.link mid.sent.length)] := by
    rw [tickSocket, hself, if_pos hdue, if_neg (Nat.not_le.mpr hcount)]
    rfl
  rw [hrest, htick, hfirst, append_assoc, append_assoc, drop_left]
  exact mem_append_right _ (mem_append_left _ mem_cons_self)

theorem Saved.resent (hk : k < maxSockets) (h : Saved (t.sockets k) x b) : Resent t k x b := by
  obtain ⟨-, off, hoff, hseq, hbyte⟩ := h
  intro now hdue hcount
  obtain ⟨taken, hsent⟩ := sent_tcpTick hk hdue hcount
  refine ⟨_, taken, hsent, off, ?_, hseq⟩
  change ((List.range (t.sockets k).rtxLen).map (t.sockets k).rtxBuf)[off]? = some b
  rw [List.getElem?_map, List.getElem?_range hoff, Option.map_some, hbyte]

structure SameTx (s s' : TcpSocket) : Prop where
  used : s'.used = s.used
  state : s'.state = s.state
  txSeq : s'.txSeq % uintSize = s.txSeq % uintSize
  rtxTime : s'.rtxTime = s.rtxTime
  rtxLen : s'.rtxLen = s.rtxLen
  rtxSeq : s'.rtxSeq = s.rtxSeq
  rtxBuf : s'.rtxBuf = s.rtxBuf

theorem SameTx.refl : SameTx s s := ⟨rfl, rfl, rfl, rfl, rfl, rfl, rfl⟩

theorem SameTx.trans (h : SameTx s s') (h' : SameTx s' s'') : SameTx s s'' :=
  ⟨h'.used.trans h.used, h'.state.trans h.state, h'.txSeq.trans h.txSeq, h'.rtxTime.trans h.rtxTime,
    h'.rtxLen.trans h.rtxLen, h'.rtxSeq.trans h.rtxSeq, h'.rtxBuf.trans h.rtxBuf⟩

theorem Saved.sameTx (h : Saved s x b) (hsame : SameTx s s') : Saved s' x b := by
  rw [Saved, hsame.rtxTime, hsame.rtxLen, hsame.rtxSeq, hsame.rtxBuf]
  exact h

theorem sameTx_sendAck : SameTx (t.sockets i) ((tcpSendSegment i tcpAck [] now t).2.sockets i) := by
  have hafter : (t.sockets i).afterSend tcpAck [] now =
      { t.sockets i with txSeq := ((t.sockets i).txSeq + 0) % uintSize } := by
    rw [afterSend, if_neg (by decide), length_nil]
  rw [tcpSendSegment]
  split
  · rw [sockets_setSocket_self, hafter]
    exact ⟨rfl, rfl, Nat.mod_mod _ _, rfl, rfl, rfl, rfl⟩
  · exact .refl

theorem sameTx_receiveData : SameTx (t.sockets i) ((receiveData i seg now t).sockets i) := by
  rw [receiveData]
  split
  · obtain ⟨buf, tail, heq⟩ := foldl_pushByte_eq seg.data (t.sockets i)
    refine SameTx.trans ?_ sameTx_sendAck
    rw [sockets_setSocket_self, heq]
    exact ⟨rfl, rfl, rfl, rfl, rfl, rfl, rfl⟩
  · exact .refl

theorem afterSend_saved (hpos : 0 < data.length) (hlen : data.length ≤ 1400) (hnow : now % uintSize ≠ 0)
    (hj : j < data.length) : Saved (s.afterSend flags data now) (s.txSeq + j) (data.getD j 0) := by
  have hconsumes : consumesSeq flags data := by
    rw [consumesSeq, decide_eq_true hpos, Bool.or_true]
  have hlt : data.length < uintSize := Nat.lt_of_le_of_lt hlen (by decide)
  have hfits : data.length < rtxBufSize := Nat.lt_of_le_of_lt hlen (by decide)
  rw [afterSend, if_pos hconsumes, if_pos hfits]
  refine ⟨hnow, j, hj, ?_, ?_⟩
  · dsimp only
    rw [Nat.mod_eq_of_lt hlt, Nat.mod_add_mod, Nat.add_sub_assoc hlt.le, Nat.add_assoc, Nat.mod_add_mod,
      show s.txSeq + data.length + (uintSize - data.length + j) = s.txSeq + j + uintSize by omega, Nat.add_mod_right]
  · dsimp only
    rw [splice_inside (Nat.zero_le j) (by omega), Nat.sub_zero]

structure Keeping (base k : ℕ) (o : Sending) : Prop where
  state : (o.table.sockets k).used = true → (o.table.sockets k).state = .established
  txSeq : (o.table.sockets k).used = true → (o.table.sockets k).txSeq % uintSize = (base + o.handed.length) % uintSize
  saved : (o.table.sockets k).used = true → ∀ j, j < o.handed.length → o.covered j = false →
    Saved (o.table.sockets k) (base + j) (o.handed.getD j 0)

theorem Keeping.sameTx {o o' : Sending} (h : Keeping base k o)
    (hsame : SameTx (o.table.sockets k) (o'.table.sockets k)) (hhanded : o'.handed = o.handed)
    (hcovered : ∀ j, o'.covered j = false → o.covered j = false) : Keeping base k o' := by
  refine ⟨fun hused => ?_, fun hused => ?_, fun hused j hj huncovered => ?_⟩
  · rw [hsame.state]
    exact h.state (hsame.used ▸ hused)
  · rw [hsame.txSeq, hhanded]
    exact h.txSeq (hsame.used ▸ hused)
  · rw [hhanded] at hj ⊢
    exact (h.saved (hsame.used ▸ hused) j hj (hcovered j huncovered)).sameTx hsame

theorem tcpSend_cases (sock : ℤ) (data : List UInt8) (now : ℕ) (t : TcpTable) :
    (tcpSend sock data now t).1 = -1 ∧ (tcpSend sock data now t).2.sockets = t.sockets ∨
    ∃ i : ℕ, sock = i ∧ (tcpSend sock data now t).1 = 0 ∧ (tcpSend sock data now t).2.sockets =
      update t.sockets i ((t.sockets i).afterSend (tcpAck ||| tcpPsh) data now) := by
  rw [tcpSend]
  cases hget : getSocket sock t with
  | none => exact .inl ⟨rfl, rfl⟩
  | some i =>
    dsimp only
    split
    · rw [tcpSendSegment]
      split
      · exact .inr ⟨i, eq_of_getSocket hget, rfl, rfl⟩
      · exact .inl ⟨rfl, rfl⟩
    · exact .inl ⟨rfl, rfl⟩

theorem Keeping.send_spec {o o' : Sending} {sock : ℤ} (h : Keeping base k o) (hpos : 0 < data.length)
    (hlen : data.length ≤ 1400)
    (hok : sock = k → (∀ j, j < o.handed.length → o.covered j) ∧ now % uintSize ≠ 0)
    (htable : o'.table = (tcpSend sock data now o.table).2)
    (hhanded : o'.handed = o.handed ++ handedBy k (.send sock data now) o.table) (hcovered : o'.covered = o.covered) :
    Keeping base k o' := by
  rcases tcpSend_cases sock data now o.table with ⟨hfail, hsockets⟩ | ⟨i, rfl, hret, hsockets⟩
  · refine h.sameTx ?_ ?_ fun j hj => hcovered ▸ hj
    · rw [htable, hsockets]
      exact .refl
    · rw [hhanded, handedBy, if_neg fun hbad => absurd (hfail.symm.trans hbad.2) (by decide), append_nil]
  · by_cases hk : i = k
    · subst hk
      obtain ⟨hall, hnow⟩ := hok rfl
      rw [handedBy, if_pos ⟨rfl, hret⟩] at hhanded
      have hsocket : o'.table.sockets i = (o.table.sockets i).afterSend (tcpAck ||| tcpPsh) data now := by
        rw [htable, hsockets, update_self]
      have hkeeps : Keeps (o.table.sockets i) (o'.table.sockets i) := hsocket ▸ keeps_afterSend
      have hused : (o'.table.sockets i).used → (o.table.sockets i).used := fun hu => hkeeps.used ▸ hu
      have htx : (o'.table.sockets i).txSeq = ((o.table.sockets i).txSeq + data.length) % uintSize := by
        rw [hsocket, afterSend]
        split <;> rfl
      refine ⟨fun hu => hkeeps.state.trans (h.state (hused hu)), fun hu => ?_, fun hu j hj huncovered => ?_⟩
      · rw [htx, Nat.mod_mod, ← Nat.mod_add_mod, h.txSeq (hused hu), Nat.mod_add_mod, hhanded, length_append,
          Nat.add_assoc]
      · rw [hhanded, length_append] at hj
        rw [hcovered] at huncovered
        have hnew : o.handed.length ≤ j := by
          by_contra hold
          exact absurd ((hall j (by omega)).symm.trans huncovered) Bool.noConfusion
        obtain ⟨m, rfl⟩ := Nat.exists_eq_add_of_le hnew
        have hsaved : Saved ((o.table.sockets i).afterSend (tcpAck ||| tcpPsh) data now)
            ((o.table.sockets i).txSeq + m) (data.getD m 0) := afterSend_saved hpos hlen hnow (by omega)
        rw [hsocket, hhanded, getD_append_right _ _ _ _ hnew, Nat.add_sub_cancel_left]
        refine ⟨hsaved.1, ?_⟩
        obtain ⟨off, hoff, hseq, hbyte⟩ := hsaved.2
        refine ⟨off, hoff, hseq.trans ?_, hbyte⟩
        rw [← Nat.mod_add_mod, h.txSeq (hused hu), Nat.mod_add_mod, Nat.add_assoc]
    · refine h.sameTx ?_ ?_ fun j hj => hcovered ▸ hj
      · rw [htable, hsockets, update_of_ne fun hbad => hk hbad.symm]
        exact .refl
      · rw [hhanded, handedBy, if_neg fun hbad => hk (Int.ofNat.inj hbad.1), append_nil]

theorem Keeping.tick_spec {o o' : Sending} (hk : k < maxSockets) (h : Keeping base k o)
    (hok : (o.table.sockets k).due now → now % uintSize ≠ 0) (htable : o'.table = tcpTick now o.table)
    (hhanded : o'.handed = o.handed) (hcovered : o'.covered = o.covered) : Keeping base k o' := by
  have hsocket : o'.table.sockets k = (o.table.sockets k).ticked now := by
    rw [htable, sockets_tcpTick hk]
  rw [ticked] at hsocket
  split at hsocket
  · rename_i hdue
    split at hsocket
    · have hfree : ¬ (o'.table.sockets k).used := by
        rw [hsocket]
        exact Bool.noConfusion
      exact ⟨fun hu => absurd hu hfree, fun hu => absurd hu hfree, fun hu => absurd hu hfree⟩
    · refine ⟨fun hu => ?_, fun hu => ?_, fun hu j hj huncovered => ?_⟩
      · rw [hsocket] at hu ⊢
        exact h.state hu
      · rw [hsocket] at hu
        rw [hsocket, hhanded]
        exact h.txSeq hu
      · rw [hsocket] at hu
        rw [hhanded] at hj
        rw [hcovered] at huncovered
        rw [hsocket, hhanded]
        exact ⟨hok hdue, (h.saved hu j hj huncovered).2⟩
  · refine h.sameTx ?_ hhanded fun j hj => hcovered ▸ hj
    rw [hsocket]
    exact .refl

theorem PureAck.flags_false (h : PureAck seg) :
    hasFlag seg.flags tcpSyn = false ∧ hasFlag seg.flags tcpFin = false ∧ hasFlag seg.flags tcpRst = false := by
  have hzero : seg.flags &&& (tcpSyn ||| tcpFin ||| tcpRst) = 0 := by
    by_contra hne
    exact absurd (h.2.symm.trans (decide_eq_true hne)) Bool.noConfusion
  have hpart : ∀ flag : BitVec 8, (tcpSyn ||| tcpFin ||| tcpRst) &&& flag = flag → hasFlag seg.flags flag = false := by
    intro flag hsub
    rw [hasFlag, decide_eq_false_iff_not, not_not, ← hsub, ← BitVec.and_assoc, hzero]
    exact BitVec.zero_and
  exact ⟨hpart tcpSyn (by decide), hpart tcpFin (by decide), hpart tcpRst (by decide)⟩

theorem sameTx_receiveOn (h : PureAck seg) (hest : (t.sockets i).state = .established) :
    SameTx ((t.sockets i).rtxClearIfAcked seg.ack) ((receiveOn i seg now t).sockets i) := by
  obtain ⟨-, hfin, hrst⟩ := h.flags_false
  rw [receiveOn, hest]
  dsimp only
  rw [receiveEstablished, if_neg (Bool.eq_false_iff.mp hrst), if_neg (Bool.eq_false_iff.mp hfin)]
  split_ifs with hnothing
  · have hdata : SameTx ((t.setSocket i ((t.sockets i).rtxClearIfAcked seg.ack)).sockets i)
        ((receiveData i seg now (t.setSocket i ((t.sockets i).rtxClearIfAcked seg.ack))).sockets i) :=
      sameTx_receiveData
    rwa [sockets_setSocket_self] at hdata
  · have hzero : (t.sockets i).rtxTime = 0 := by
      by_contra hne
      exact hnothing ⟨h.1, hne⟩
    rw [rtxClearIfAcked, if_pos hzero]
    exact sameTx_receiveData

theorem Keeping.ack_spec {o o' : Sending} (h : Keeping base k o) (hack : PureAck seg)
    (hok : (o.table.sockets k).rtxTime ≠ 0 → (o.table.sockets k).rtxEndSeq ≤ seg.ack →
      ∀ off, off < (o.table.sockets k).rtxLen → covers seg.ack ((o.table.sockets k).rtxSeq + off))
    (hused : (o.table.sockets k).used)
    (htable : o'.table = receiveOn k seg now o.table) (hhanded : o'.handed = o.handed)
    (hcovered : o'.covered = fun j => o.covered j || decide (j < o.handed.length) && covers seg.ack (base + j)) :
    Keeping base k o' := by
  have hsame : SameTx ((o.table.sockets k).rtxClearIfAcked seg.ack)
      ((receiveOn k seg now o.table).sockets k) := sameTx_receiveOn hack (h.state hused)
  rw [← htable] at hsame
  have hbefore : ∀ j, o'.covered j = false → o.covered j = false := by
    intro j hj
    rw [hcovered] at hj
    exact (Bool.or_eq_false_iff.mp hj).1
  rw [rtxClearIfAcked] at hsame
  split_ifs at hsame with hzero hlow
  · exact h.sameTx hsame hhanded hbefore
  · exact h.sameTx hsame hhanded hbefore
  · refine ⟨fun _ => hsame.state.trans (h.state hused), fun _ => ?_, fun _ j hj huncovered => ?_⟩
    · rw [hhanded]
      exact hsame.txSeq.trans (h.txSeq hused)
    · rw [hhanded] at hj
      obtain ⟨-, off, hoff, hseq, -⟩ := h.saved hused j hj (hbefore j huncovered)
      have hcovers := hok hzero (Nat.not_lt.mp hlow) off hoff
      rw [covers_congr hseq] at hcovers
      rw [hcovered] at huncovered
      have hno := (Bool.or_eq_false_iff.mp huncovered).2
      rw [decide_eq_true hj, Bool.true_and, hcovers] at hno
      exact Bool.noConfusion hno

theorem keeping_step {o o' : Sending} {c : Call} (hk : k < maxSockets) (h : Keeping base k o) (hcall : SenderCall c)
    (hok : Careful k o c) (hstep : txStep base k o c o') : Keeping base k o' := by
  cases c with
  | send sock data now =>
    subst hstep
    exact h.send_spec hcall.1 hcall.2 hok rfl rfl rfl
  | tick now =>
    subst hstep
    exact h.tick_spec hk hok rfl (append_nil _) rfl
  | arrive src bytes now =>
    obtain ⟨seg, hparse, hack⟩ := hcall
    have hacked : ackedBy k (.arrive src bytes now) o.table =
        if findConnected src seg o.table = some k then some seg.ack else none := by
      rw [ackedBy, hparse]
    cases hfound : findConnected src seg o.table with
    | none =>
      have htable : exec (.arrive src bytes now) o.table = o.table := by
        simp only [exec, tcpReceive, hparse, hfound, receiveSyn, hack.flags_false.1, if_true]
      rw [txStep, hacked, htable, hfound, if_neg (Option.some_ne_none k).symm] at hstep
      subst hstep
      exact h.sameTx .refl (append_nil _) fun _ hj => hj
    | some i =>
      have htable : exec (.arrive src bytes now) o.table = receiveOn i seg now o.table := by
        simp only [exec, tcpReceive, hparse, hfound]
      by_cases hki : k = i
      · subst hki
        rw [txStep, hacked, htable, if_pos hfound] at hstep
        rw [Careful, hacked, if_pos hfound] at hok
        subst hstep
        exact h.ack_spec hack (hok seg.ack rfl) (findConnected_some hfound).1 rfl (append_nil _) rfl
      · rw [txStep, hacked, htable, hfound, if_neg fun hbad => hki (Option.some.inj hbad).symm] at hstep
        subst hstep
        refine h.sameTx ?_ (append_nil _) fun _ hj => hj
        rw [sockets_receiveOn_of_ne hki]
        exact .refl
  | _ => exact hcall.elim

/-- The sender keeps what is not acknowledged: from an established connection on, every byte that is not covered is
kept and part of the next retransmission, in every run whose calls are careful. -/
theorem unacked_kept {cs : List Call} {o : Sending} (hk : k < maxSockets)
    (hest : (t.sockets k).state = .established)
    (hrun : Run (guarded (fun o c => SenderCall c ∧ Careful k o c) (txStep (t.sockets k).txSeq k))
      ⟨t, [], fun _ => false⟩ cs o) :
    Kept (t.sockets k).txSeq k o := by
  have hkeeping : Keeping (t.sockets k).txSeq k o := by
    refine hrun.invariant (I := Keeping (t.sockets k).txSeq k) ?_ ?_
    · exact fun o c o' h hstep => keeping_step hk h hstep.1.1 hstep.1.2 hstep.2
    · exact ⟨fun _ => hest, fun _ => rfl, fun _ j hj => absurd hj (Nat.not_lt_zero j)⟩
  intro hused _ j hj huncovered
  have hsaved := hkeeping.saved hused j hj huncovered
  exact ⟨hsaved, hsaved.resent hk⟩

/-- One byte is sent, and it is kept. -/
theorem unacked_kept_one : ∃ o : Sending, o.handed = [5] ∧ o.covered 0 = false ∧ Kept 1 0 o := by
  have hcall : SenderCall (.send 0 [5] 8) := ⟨by decide, by decide⟩
  have hcareful : Careful 0 ⟨connected, [], fun _ => false⟩ (.send 0 [5] 8) :=
    fun _ => ⟨fun j hj => absurd hj (Nat.not_lt_zero j), by decide⟩
  exact ⟨_, by decide +kernel, rfl, unacked_kept (t := connected) (k := 0) (by decide) rfl
    (.cons ⟨⟨hcall, hcareful⟩, rfl⟩ (.nil _))⟩

/-- A second byte is sent before the first is acknowledged: the first is not kept any more. -/
theorem second_send_forgets : ∃ o : Sending, (connected.sockets 0).state = .established ∧
    Run (guarded (fun _ => SenderCall) (txStep (connected.sockets 0).txSeq 0)) ⟨connected, [], fun _ => false⟩
      [.send 0 [5] 8, .send 0 [6] 9] o ∧
    ¬ Kept (connected.sockets 0).txSeq 0 o := by
  have hone : ∀ (b : UInt8) (now : ℕ), SenderCall (.send 0 [b] now) := fun _ _ => ⟨Nat.one_pos, show 1 ≤ 1400 by decide⟩
  refine ⟨_, rfl, .cons ⟨hone 5 8, rfl⟩ (.cons ⟨hone 6 9, rfl⟩ (.nil _)), fun hkept => ?_⟩
  obtain ⟨⟨-, off, hoff, hseq, -⟩, -⟩ := hkept (by decide +kernel) (by decide +kernel) 0 (by decide +kernel) rfl
  have hall : ∀ off : Fin 1, ¬ (2 + off.val) % uintSize = (1 + 0) % uintSize := by decide
  exact hall ⟨off, hoff⟩ hseq

end AetherOs.Tcp
