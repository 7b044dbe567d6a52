import AetherOs.Tcp.Handshake

/-! # Slots of the TCP layer -/

namespace AetherOs.Tcp

open Base TcpTable

variable {t t' : TcpTable} {i j now : ℕ} {sock : ℤ}

/-! ## Calls that open no connection -/

def TcpCalm (t t' : TcpTable) : Prop :=
  ∀ i, (t'.sockets i).used = true →
    (t.sockets i).used = true ∧ ((t'.sockets i).state = .synRcvd → (t.sockets i).state = .synRcvd)

theorem TcpCalm.refl : TcpCalm t t := fun _ hused => ⟨hused, id⟩

theorem TcpCalm.of_quiet (h : ∀ i, Quiet (t.sockets i) (t'.sockets i)) : TcpCalm t t' := by
  intro i hused
  obtain ⟨hbefore, hstate⟩ := (h i).1 hused
  exact ⟨hbefore, fun hhalf => (hstate (.inl hhalf)).1 ▸ hhalf⟩

theorem TcpCalm.of_one {a : Call} {n : ℕ} (hused : (t.sockets i).used)
    (hothers : ∀ j, j ≠ i → t'.sockets j = t.sockets j) (h : SlotStep a (t.sockets i) (t'.sockets i) n) :
    TcpCalm t t' := by
  intro j hj
  by_cases hji : j = i
  · subst hji
    refine ⟨hused, fun hhalf => ?_⟩
    have hfree : (t.sockets j).used ≠ false := by
      rw [hused]
      exact Bool.noConfusion
    cases h with
    | quiet hquiet => exact ((hquiet.1 hj).2 (.inl hhalf)).1 ▸ hhalf
    | listen hbad _ => exact absurd hbad hfree
    | active hbad _ _ _ => exact absurd hbad hfree
    | passive hbad _ _ _ _ _ _ => exact absurd hbad hfree
    | answered _ _ _ _ _ _ _ _ hdone => exact TcpState.noConfusion (hhalf.symm.trans hdone)
    | accepted _ hstate _ _ _ _ _ _ _ => exact hstate
  · rw [hothers j hji] at hj ⊢
    exact ⟨hj, id⟩

theorem sockets_tcpSend_of_ne {data : List UInt8} (h : getSocket sock t ≠ some j) :
    (tcpSend sock data now t).2.sockets j = t.sockets j := by
  rw [tcpSend]
  split
  · rfl
  · rename_i i hget
    split
    · exact Only.refl.send.sockets j fun hji => h (hji ▸ hget)
    · rfl

theorem sockets_tcpRecv_of_ne {len : ℕ} (h : getSocket sock t ≠ some j) :
    (tcpRecv sock len t).2.sockets j = t.sockets j := by
  rcases tcpRecv_cases sock len t with ⟨_, hrecv⟩ | ⟨i, n, hget, _, hrecv⟩
  · rw [hrecv]
  · rw [hrecv]
    exact sockets_setSocket_of_ne fun hji => h (hji ▸ hget)

theorem sockets_tcpClose_of_ne (h : getSocket sock t ≠ some j) : (tcpClose sock now t).sockets j = t.sockets j := by
  rw [tcpClose]
  split
  · rfl
  · rename_i i hget
    have hji : j ≠ i := fun hji => h (hji ▸ hget)
    rw [sockets_setSocket_of_ne hji]
    split
    · exact Only.refl.send.set.sockets j hji
    · rfl

theorem TcpCalm.of_getSocket (hothers : ∀ j, getSocket sock t ≠ some j → t'.sockets j = t.sockets j)
    (h : ∀ i, ∃ n, SlotStep (.tick 0) (t.sockets i) (t'.sockets i) n) : TcpCalm t t' := by
  cases hget : getSocket sock t with
  | none =>
    intro i hused
    rw [hothers i (by simp [hget])] at hused ⊢
    exact ⟨hused, id⟩
  | some i =>
    obtain ⟨n, hstep⟩ := h i
    refine .of_one (used_of_getSocket hget) (fun j hj => hothers j ?_) hstep
    rw [hget]
    exact fun heq => hj (Option.some.inj heq).symm

theorem tcpCalm_tcpSend {data : List UInt8} : TcpCalm t (tcpSend sock data now t).2 :=
  .of_getSocket (fun _ => sockets_tcpSend_of_ne) fun _ => ⟨_, tcpSend_slotStep⟩

theorem tcpCalm_tcpRecv {len : ℕ} : TcpCalm t (tcpRecv sock len t).2 :=
  .of_getSocket (fun _ => sockets_tcpRecv_of_ne) fun _ => ⟨_, tcpRecv_slotStep⟩

theorem tcpCalm_tcpClose : TcpCalm t (tcpClose sock now t) :=
  .of_getSocket (fun _ => sockets_tcpClose_of_ne) fun _ => ⟨_, tcpClose_slotStep⟩

theorem tcpCalm_tcpTick : TcpCalm t (tcpTick now t) :=
  .of_quiet fun _ => (foldl_tickSocket_quiet (List.range maxSockets) t).1

theorem tcpCalm_tcpConnectTimeout : TcpCalm t (tcpConnectTimeout i t) := by
  refine .of_quiet fun j => ?_
  by_cases hji : j = i
  · rw [hji, tcpConnectTimeout, sockets_setSocket_self]
    exact .free rfl (.inl rfl)
  · rw [tcpConnectTimeout, sockets_setSocket_of_ne hji]
    exact .refl

/-! ## Calls that open a connection -/

def listenSlot (port : ℕ) (t : TcpTable) : Option ℕ := (findListener port t).or (findFree t)

theorem tcpListen_spec (port : ℕ) (t : TcpTable) :
    (listenSlot port t = none ∧ tcpListen port t = (-1, t)) ∨
    ∃ i, listenSlot port t = some i ∧ (tcpListen port t).1 = i ∧
      (∀ j, j ≠ i → (tcpListen port t).2.sockets j = t.sockets j) ∧
      ((tcpListen port t).2.sockets i).state = .listen := by
  rw [tcpListen, listenSlot]
  cases hlistener : findListener port t with
  | some i =>
    refine .inr ⟨i, rfl, rfl, fun _ _ => rfl, ?_⟩
    have hfound := (search_some hlistener).2.2.1
    simp only [Bool.and_eq_true, decide_eq_true_iff] at hfound
    exact hfound.1.2
  | none =>
    cases hfree : findFree t with
    | none => exact .inl ⟨rfl, rfl⟩
    | some i =>
      refine .inr ⟨i, rfl, rfl, fun j hj => sockets_setSocket_of_ne hj, ?_⟩
      dsimp only
      rw [sockets_setSocket_self]

theorem tcpConnect_spec (ip port now : ℕ) (t : TcpTable) :
    ((tcpConnect ip port now t).1 < 0 ∧ TcpCalm t (tcpConnect ip port now t).2) ∨
    ∃ i, findFree t = some i ∧ (tcpConnect ip port now t).1 = i ∧
      (∀ j, j ≠ i → (tcpConnect ip port now t).2.sockets j = t.sockets j) ∧
      ((tcpConnect ip port now t).2.sockets i).used ∧
      ((tcpConnect ip port now t).2.sockets i).state = .synSent := by
  have hfails : (-1 : ℤ) < 0 := by decide
  rcases tcpConnect_cases ip port now t with hnone | ⟨i, t', hfree, hopened, hfail | hdone⟩
  · rw [hnone]
    exact .inl ⟨hfails, .refl⟩
  · rw [hfail]
    refine .inl ⟨hfails, fun j hj => ?_⟩
    by_cases hji : j = i
    · rw [hji, sockets_setSocket_self] at hj
      cases hj
    · rw [hopened.only.set.sockets j hji] at hj ⊢
      exact ⟨hj, id⟩
  · rw [hdone]
    refine .inr ⟨i, hfree, rfl, hopened.only.set.sockets, ?_⟩
    rw [sockets_setSocket_self]
    exact ⟨hopened.keeps.used, hopened.keeps.state⟩

inductive Arrival (src : ℕ) (bytes : List UInt8) (t t' : TcpTable) : Prop
  | calm (hcalm : TcpCalm t t') (haccepts : t'.accepts = t.accepts)
  | opens {seg : Segment} {i : ℕ} (hparse : parseSegment bytes = some seg) (hnone : findConnected src seg t = none)
      (hsyn : hasFlag seg.flags tcpSyn = true) (hack : hasFlag seg.flags tcpAck = false) (hfree : findFree t = some i)
      (hothers : ∀ j, j ≠ i → t'.sockets j = t.sockets j) (haccepts : t'.accepts = t.accepts)
  | establishes {seg : Segment} {i : ℕ} {a : Accept} (hparse : parseSegment bytes = some seg)
      (hfound : findConnected src seg t = some i) (hstate : (t.sockets i).state = .synRcvd) (hslot : a.slot = i)
      (hcalm : TcpCalm t t') (hdone : (t'.sockets i).state = .established) (haccepts : t'.accepts = t.accepts ++ [a])

theorem receiveSyn_arrival {src : ℕ} {bytes : List UInt8} {seg : Segment} (hparse : parseSegment bytes = some seg)
    (hnone : findConnected src seg t = none) : Arrival src bytes t (receiveSyn src seg now t) := by
  rcases receiveSyn_cases src seg now t with hsame | ⟨i, t', hsyn, hack, hfree, hopened, hdone⟩
  · rw [hsame]
    exact .calm .refl rfl
  · rw [hdone]
    exact .opens hparse hnone hsyn hack hfree hopened.only.set.sockets hopened.only.accepts

theorem tcpReceive_arrival (src : ℕ) (bytes : List UInt8) (now : ℕ) (t : TcpTable) :
    Arrival src bytes t (tcpReceive src bytes now t) := by
  rw [tcpReceive]
  cases hparse : parseSegment bytes with
  | none => exact .calm .refl rfl
  | some seg =>
    dsimp only
    cases hfound : findConnected src seg t with
    | none => exact receiveSyn_arrival hparse hfound
    | some i =>
      obtain ⟨hused, hfrom⟩ := findConnected_some hfound
      have hcalm : TcpCalm t (receiveOn i seg now t) :=
        .of_one hused (fun j hj => sockets_receiveOn_of_ne hj) (receiveOn_slotStep hparse hused hfrom)
      dsimp only
      by_cases hstate : (t.sockets i).state = .synRcvd
      · rw [receiveOn, hstate] at hcalm ⊢
        dsimp only [receiveSynRcvd] at hcalm ⊢
        split_ifs at hcalm ⊢ with hrst hack
        · exact .calm hcalm rfl
        · exact .establishes hparse hfound hstate rfl hcalm (by rw [sockets_setSocket_self]) rfl
        · exact .calm hcalm rfl
      · exact .calm hcalm (moves_receiveOn hstate).accepts

/-! ## What a call by number depends on -/

theorem getSocket_congr (h : ∀ i : ℕ, sock = i → t'.sockets i = t.sockets i) : getSocket sock t' = getSocket sock t := by
  rw [getSocket, getSocket]
  split
  · rfl
  · rw [h sock.toNat (by omega)]

theorem tcpRecv_congr {len : ℕ} (hsent : t'.sent = t.sent) (h : ∀ i : ℕ, sock = i → t'.sockets i = t.sockets i) :
    (tcpRecv sock len t').1 = (tcpRecv sock len t).1 ∧ (tcpRecv sock len t').2.sent = (tcpRecv sock len t).2.sent := by
  rw [tcpRecv, tcpRecv, getSocket_congr h]
  cases hget : getSocket sock t with
  | none => exact ⟨rfl, hsent⟩
  | some i =>
    dsimp only
    rw [h i (eq_of_getSocket hget)]
    split
    · exact ⟨rfl, hsent⟩
    · exact ⟨rfl, hsent⟩

section

variable (hlink : t'.link = t.link) (hsent : t'.sent = t.sent)
include hlink hsent

theorem tcpSendSegment_congr {flags : BitVec 8} {data : List UInt8} (h : t'.sockets i = t.sockets i) :
    (tcpSendSegment i flags data now t').1 = (tcpSendSegment i flags data now t).1 ∧
      (tcpSendSegment i flags data now t').2.sent = (tcpSendSegment i flags data now t).2.sent := by
  have htransmit : ∀ p, (t'.transmit p).sent = (t.transmit p).sent := by
    intro p
    rw [transmit, transmit, hlink, hsent]
  rw [tcpSendSegment, tcpSendSegment, hlink, hsent, h]
  split
  · exact ⟨rfl, htransmit _⟩
  · exact ⟨rfl, htransmit _⟩

theorem tcpSend_congr {data : List UInt8} (h : ∀ i : ℕ, sock = i → t'.sockets i = t.sockets i) :
    (tcpSend sock data now t').1 = (tcpSend sock data now t).1 ∧
      (tcpSend sock data now t').2.sent = (tcpSend sock data now t).2.sent := by
  rw [tcpSend, tcpSend, getSocket_congr h]
  cases hget : getSocket sock t with
  | none => exact ⟨rfl, hsent⟩
  | some i =>
    have hi : t'.sockets i = t.sockets i := h i (eq_of_getSocket hget)
    dsimp only
    rw [hi]
    split
    · exact tcpSendSegment_congr hlink hsent hi
    · exact ⟨rfl, hsent⟩

theorem sent_tcpClose_congr (h : ∀ i : ℕ, sock = i → t'.sockets i = t.sockets i) : (tcpClose sock now t').sent = (tcpClose sock now t).sent := by
  rw [tcpClose, tcpClose, getSocket_congr h]
  cases hget : getSocket sock t with
  | none => exact hsent
  | some i =>
    have hi : t'.sockets i = t.sockets i := h i (eq_of_getSocket hget)
    dsimp only
    by_cases hest : (t.sockets i).state = .established
    · rw [if_pos hest, if_pos (hi ▸ hest)]
      exact (tcpSendSegment_congr hlink hsent hi).2
    · rw [if_neg hest, if_neg (hi ▸ hest)]
      exact hsent

end

end AetherOs.Tcp
