import AetherOs.Socket.Model
import AetherOs.Tcp.Slots

/-! # Steps of the sockets -/

namespace AetherOs.Socket

open Base Tcp SockTable

variable {s s' s'' : SockTable} {t : TcpTable} {d i k now : ℕ} {sd : ℤ}

def Designates (s : SockTable) (d i : ℕ) : Prop := (s.socks d).used = true ∧ (s.socks d).tcpSock = i

/-! ## Steps that hand nothing out -/

structure Calm (s s' : SockTable) : Prop where
  tcp : TcpCalm s.tcp s'.tcp
  used : ∀ d, (s'.socks d).used = true → (s.socks d).used = true
  designates : ∀ d i, Designates s' d i → Designates s d i ∨ ⟨d, i⟩ ∈ s.connecting
  connecting : ∀ w ∈ s'.connecting, w ∈ s.connecting

theorem Calm.refl : Calm s s := ⟨.refl, fun _ => id, fun _ _ => .inl, fun _ => id⟩

theorem Calm.trans (h : Calm s s') (h' : Calm s' s'') : Calm s s'' where
  tcp i hused := by
    obtain ⟨hmid, hhalf'⟩ := h'.tcp i hused
    obtain ⟨hbefore, hhalf⟩ := h.tcp i hmid
    exact ⟨hbefore, fun hstate => hhalf (hhalf' hstate)⟩
  used d hused := h.used d (h'.used d hused)
  designates d i hdes := by
    rcases h'.designates d i hdes with hmid | hwait
    · exact h.designates d i hmid
    · exact .inr (h.connecting _ hwait)
  connecting w hw := h.connecting w (h'.connecting w hw)

theorem Calm.of_tcp (h : TcpCalm s.tcp t) : Calm s { s with tcp := t } :=
  ⟨h, fun _ => id, fun _ _ => .inl, fun _ => id⟩

def SameSlots (s s' : SockTable) : Prop :=
  ∀ d, (s'.socks d).used = (s.socks d).used ∧ (s'.socks d).tcpSock = (s.socks d).tcpSock

theorem SameSlots.setSock {k : Sock} (hused : k.used = (s.socks d).used) (hslot : k.tcpSock = (s.socks d).tcpSock) :
    SameSlots s (s.setSock d k) := by
  intro e
  by_cases he : e = d
  · rw [he, socks_setSock_self]
    exact ⟨hused, hslot⟩
  · rw [socks_setSock_of_ne he]
    exact ⟨rfl, rfl⟩

theorem SameSlots.trans (h : SameSlots s s') (h' : SameSlots s' s'') : SameSlots s s'' :=
  fun d => ⟨(h' d).1.trans (h d).1, (h' d).2.trans (h d).2⟩

theorem SameSlots.designates (h : SameSlots s s') : Designates s' d i ↔ Designates s d i := by
  rw [Designates, Designates, (h d).1, (h d).2]

theorem Calm.of_same (h : SameSlots s s') (htcp : TcpCalm s.tcp s'.tcp)
    (hconnecting : ∀ w ∈ s'.connecting, w ∈ s.connecting) : Calm s s' :=
  ⟨htcp, fun d hused => (h d).1 ▸ hused, fun _ _ hdes => .inl (h.designates.mp hdes), hconnecting⟩

theorem Calm.setSock {k : Sock} (hused : k.used = (s.socks d).used) (hslot : k.tcpSock = (s.socks d).tcpSock) :
    Calm s (s.setSock d k) := .of_same (.setSock hused hslot) .refl fun _ => id

theorem sockGet_some (h : sockGet sd s = some d) : sd.toNat = d ∧ sd = d ∧ (s.socks d).used := by
  rw [sockGet] at h
  split_ifs at h with hrange hused
  obtain rfl := Option.some.inj h
  exact ⟨rfl, by omega, Bool.eq_true_of_not_eq_false hused⟩

theorem unused_of_sockAlloc (h : sockAlloc s = some d) : (s.socks d).used = false := by
  simpa using (search_some h).2.2.1

theorem takeBytes_same (n : ℕ) (k : Sock) : (takeBytes n k).2.used = k.used ∧ (takeBytes n k).2.tcpSock = k.tcpSock := by
  induction n generalizing k with
  | zero => exact ⟨rfl, rfl⟩
  | succ n ih =>
    rw [takeBytes]
    exact ih { k with rxHead := (k.rxHead + 1) % sockRxbufSize }

theorem calm_closeTcp : Calm s (closeTcp d now s) := by
  rw [closeTcp]
  split
  · exact .of_tcp tcpCalm_tcpClose
  · exact .refl

theorem calm_setSock_zero : Calm s (s.setSock d .zero) := by
  have hother : ∀ e, ((s.setSock d .zero).socks e).used → (s.setSock d .zero).socks e = s.socks e := by
    intro e hused
    refine socks_setSock_of_ne fun he => ?_
    rw [he, socks_setSock_self] at hused
    cases hused
  refine ⟨.refl, fun e hused => hother e hused ▸ hused, fun e i hdes => .inl ?_, fun _ => id⟩
  rw [Designates, hother e hdes.1] at hdes
  exact hdes

theorem calm_sockUse (u : Use) : Calm s (sockUse sd u s).2 := by
  cases u with
  | send data now =>
    dsimp only [sockUse, sockSend]
    cases sockGet sd s with
    | none => exact .refl
    | some d =>
      dsimp only
      split_ifs
      · exact .refl
      · exact .refl
      · exact .of_tcp tcpCalm_tcpSend
      · exact .refl
  | recv len flags =>
    dsimp only [sockUse, sockRecv]
    cases sockGet sd s with
    | none => exact .refl
    | some d =>
      dsimp only
      split_ifs
      · exact .refl
      · exact .refl
      · exact .of_tcp tcpCalm_tcpRecv
      · exact .refl
      · exact .refl
      · obtain ⟨hused, hslot⟩ := takeBytes_same (min len (rxbufAvailable (s.socks d))) (s.socks d)
        exact .setSock hused hslot
  | shutdown now =>
    dsimp only [sockUse, sockShutdown]
    cases sockGet sd s with
    | none => exact .refl
    | some d => exact calm_closeTcp.trans (.setSock rfl rfl)
  | close now =>
    dsimp only [sockUse, sockClose]
    cases sockGet sd s with
    | none => exact .refl
    | some d => exact calm_closeTcp.trans calm_setSock_zero

theorem calm_sockBind {addr : Option SockAddr} : Calm s (sockBind sd addr s).2 := by
  rw [sockBind]
  cases sockGet sd s with
  | none => exact .refl
  | some d =>
    cases addr with
    | none => exact .refl
    | some a =>
      dsimp only
      split_ifs
      · exact .refl
      · exact .refl
      · exact .setSock rfl rfl

theorem calm_sockConnectDone : Calm s (sockConnectDone k s).2 := by
  rw [sockConnectDone]
  cases hw : s.connecting[k]? with
  | none => exact .refl
  | some w =>
    dsimp only
    split
    · refine ⟨.refl, fun d hused => ?_, fun d i hdes => ?_, fun _ => List.mem_of_mem_eraseIdx⟩
      · by_cases hd : d = w.sd
        · subst hd
          simpa using hused
        · exact (socks_setSock_of_ne hd) ▸ hused
      · by_cases hd : d = w.sd
        · subst hd
          have hslot : w.slot = i := by simpa [Designates] using hdes.2
          exact .inr (hslot ▸ List.mem_of_getElem? hw)
        · rw [Designates, socks_setSock_of_ne hd] at hdes
          exact .inl hdes
    · exact .refl

theorem calm_sockConnectTimeout : Calm s (sockConnectTimeout k s).2 := by
  rw [sockConnectTimeout]
  cases s.connecting[k]? with
  | none => exact .refl
  | some w => exact .of_same (fun _ => ⟨rfl, rfl⟩) tcpCalm_tcpConnectTimeout fun _ => List.mem_of_mem_eraseIdx

theorem calm_sockAccept : Calm s (sockAccept sd s).2 := by
  rw [sockAccept]
  cases sockGet sd s with
  | none => exact .refl
  | some d =>
    dsimp only
    split
    · exact .refl
    · exact .of_same (fun _ => ⟨rfl, rfl⟩) .refl fun _ => id

theorem calm_sockAcceptDone : Calm s (sockAcceptDone k s).2 := by
  rw [sockAcceptDone]
  cases s.accepting[k]? with
  | none => exact .refl
  | some d =>
    dsimp only
    split_ifs
    · exact .refl
    · have hset : Calm s { s.setSock d { s.socks d with
          backlogHead := ((s.socks d).backlogHead + 1) % sockBacklogMax } with accepting := s.accepting.eraseIdx k } :=
        .of_same (SameSlots.setSock (s := s) rfl rfl) .refl fun _ => id
      split
      · exact hset
      · exact hset

theorem calm_sockAcceptTimeout : Calm s (sockAcceptTimeout k s).2 := by
  rw [sockAcceptTimeout]
  cases s.accepting[k]? with
  | none => exact .refl
  | some d => exact .of_same (fun _ => ⟨rfl, rfl⟩) .refl fun _ => id

/-! ## Steps that hand something out -/

theorem connectAddresses_same (a : SockAddr) : SameSlots s (connectAddresses d a s) ∧
    (connectAddresses d a s).tcp = s.tcp ∧ (connectAddresses d a s).connecting = s.connecting := by
  dsimp only [connectAddresses]
  have hfirst : SameSlots s (s.setSock d { s.socks d with remoteAddr := a }) := .setSock rfl rfl
  split
  · exact ⟨hfirst.trans (SameSlots.setSock (s := (sockEphemeralPort _).2) rfl rfl), rfl, rfl⟩
  · exact ⟨hfirst, rfl, rfl⟩

theorem sockConnect_cases (sd : ℤ) (addr : Option SockAddr) (now : ℕ) (s : SockTable) :
    Calm s (sockConnect sd addr now s).2 ∨
    ∃ d i, sockGet sd s = some d ∧ findFree s.tcp = some i ∧ SameSlots s (sockConnect sd addr now s).2 ∧
      (∀ j, j ≠ i → (sockConnect sd addr now s).2.tcp.sockets j = s.tcp.sockets j) ∧
      ((sockConnect sd addr now s).2.tcp.sockets i).used ∧
      ((sockConnect sd addr now s).2.tcp.sockets i).state = .synSent ∧
      (sockConnect sd addr now s).2.connecting = s.connecting ++ [⟨d, i⟩] := by
  rw [sockConnect]
  cases hget : sockGet sd s with
  | none => exact .inl .refl
  | some d =>
    cases addr with
    | none => exact .inl .refl
    | some a =>
      dsimp only
      split_ifs with hfamily htype hslot
      · exact .inl .refl
      · exact .inl .refl
      · obtain ⟨hsame, htcp, hconnecting⟩ := connectAddresses_same (s := s) (d := d) a
        rw [htcp] at hslot ⊢
        rcases tcpConnect_spec a.sinAddr (ntohs a.sinPort) now s.tcp with ⟨_, hcalm⟩ | ⟨i, _, hi, _⟩
        · exact .inl (.of_same hsame hcalm fun w hw => hconnecting ▸ hw)
        · omega
      · obtain ⟨hsame, htcp, hconnecting⟩ := connectAddresses_same (s := s) (d := d) a
        rw [htcp] at hslot ⊢
        rcases tcpConnect_spec a.sinAddr (ntohs a.sinPort) now s.tcp with ⟨hbad, _⟩ | ⟨i, hfree, hi, hothers, hused, hstate⟩
        · exact absurd hbad hslot
        · refine .inr ⟨d, i, rfl, hfree, hsame, hothers, hused, hstate, ?_⟩
          dsimp only
          rw [hconnecting, hi, Int.toNat_natCast]

theorem listenPort_same : SameSlots s (listenPort d s).2 ∧ (listenPort d s).2.tcp = s.tcp ∧
    (listenPort d s).2.connecting = s.connecting := by
  dsimp only [listenPort]
  split
  · exact ⟨SameSlots.setSock (s := (sockEphemeralPort s).2) rfl rfl, rfl, rfl⟩
  · exact ⟨fun _ => ⟨rfl, rfl⟩, rfl, rfl⟩

theorem listenPort_congr {k : Sock} (h : k.localAddr = (s.socks d).localAddr) :
    (listenPort d (s.setSock d k)).1 = (listenPort d s).1 := by
  dsimp only [listenPort]
  rw [socks_setSock_self, h]
  split <;> rfl

theorem attachListener_cases (d port : ℕ) (s : SockTable) :
    (Calm s (attachListener d port s).2 ∧ (attachListener d port s).1 = -eaddrinuse) ∨
    ∃ i, listenSlot port s.tcp = some i ∧ (attachListener d port s).1 = 0 ∧
      (∃ k, (attachListener d port s).2.socks = (s.setSock d k).socks ∧ k.used = (s.socks d).used ∧ k.tcpSock = i) ∧
      (∀ j, j ≠ i → (attachListener d port s).2.tcp.sockets j = s.tcp.sockets j) ∧
      ((attachListener d port s).2.tcp.sockets i).state = .listen ∧
      (attachListener d port s).2.connecting = s.connecting := by
  rw [attachListener]
  rcases tcpListen_spec port s.tcp with ⟨_, hlisten⟩ | ⟨i, hslot, hi, hothers, hstate⟩
  · rw [hlisten]
    exact .inl ⟨(Calm.of_tcp .refl).trans (.setSock rfl rfl), rfl⟩
  · dsimp only
    rw [hi, if_neg (by omega)]
    exact .inr ⟨i, hslot, rfl, ⟨_, rfl, rfl, rfl⟩, hothers, hstate, rfl⟩

structure Listens (s s' : SockTable) (d i : ℕ) : Prop where
  slot : (s'.socks d).tcpSock = i
  used : ∀ e, (s'.socks e).used = (s.socks e).used
  others : ∀ e, e ≠ d → (s'.socks e).tcpSock = (s.socks e).tcpSock
  sockets : ∀ j, j ≠ i → s'.tcp.sockets j = s.tcp.sockets j
  state : (s'.tcp.sockets i).state = .listen
  connecting : s'.connecting = s.connecting

theorem sockListen_cases (sd backlog : ℤ) (s : SockTable) :
    (Calm s (sockListen sd backlog s).2 ∧ (sockListen sd backlog s).1 ≠ 0) ∨
    ∃ d i, sockGet sd s = some d ∧ listenSlot (listenPort d s).1 s.tcp = some i ∧ (sockListen sd backlog s).1 = 0 ∧
      Listens s (sockListen sd backlog s).2 d i := by
  rw [sockListen]
  cases hget : sockGet sd s with
  | none => exact .inl ⟨.refl, (by decide : -ebadf ≠ 0)⟩
  | some d =>
    dsimp only
    split_ifs
    · exact .inl ⟨.refl, (by decide : -eopnotsupp ≠ 0)⟩
    · exact .inl ⟨.refl, (by decide : -einval ≠ 0)⟩
    all_goals
      generalize hk : ({ s.socks d with backlogSize := _, state := SockState.listening } : Sock) = k
      have hfirst : SameSlots s (s.setSock d k) := .setSock (by rw [← hk]) (by rw [← hk])
      obtain ⟨hsecond, htcp, hconnecting⟩ := listenPort_same (s := s.setSock d k) (d := d)
      have hport : (listenPort d (s.setSock d k)).1 = (listenPort d s).1 := listenPort_congr (by rw [← hk])
      have hsame := hfirst.trans hsecond
      rw [hport]
      rcases attachListener_cases d (listenPort d s).1 (listenPort d (s.setSock d k)).2 with
        ⟨hcalm, hres⟩ | ⟨i, hslot, hres, ⟨k', hsocks, hused, hslot'⟩, hothers, hstate, hwaits⟩
      · refine .inl ⟨(Calm.of_same hsame ?_ ?_).trans hcalm, ?_⟩
        · rw [htcp]
          exact .refl
        · rw [hconnecting]
          exact fun _ => id
        · rw [hres]
          decide
      · rw [htcp] at hslot hothers
        refine .inr ⟨d, i, rfl, hslot, hres, ⟨?_, fun e => ?_, fun e he => ?_, hothers, hstate, ?_⟩⟩
        · rw [hsocks, socks_setSock_self, hslot']
        · rw [hsocks]
          by_cases he : e = d
          · rw [he, socks_setSock_self, hused, (hsame d).1]
          · rw [socks_setSock_of_ne he, (hsame e).1]
        · rw [hsocks, socks_setSock_of_ne he, (hsame e).2]
        · rw [hwaits, hconnecting]
          rfl

theorem pushBacklog_same {k : Sock} : (k.pushBacklog sd).used = k.used ∧ (k.pushBacklog sd).tcpSock = k.tcpSock := by
  rw [Sock.pushBacklog]
  split_ifs <;> exact ⟨rfl, rfl⟩

theorem sockNotifyAccept_cases (s : SockTable) (a : Accept) :
    sockNotifyAccept s a = s ∨
    ∃ e, sockAlloc s = some e ∧ Designates (sockNotifyAccept s a) e a.slot ∧
      (∀ f, f ≠ e → ((sockNotifyAccept s a).socks f).used = (s.socks f).used ∧
        ((sockNotifyAccept s a).socks f).tcpSock = (s.socks f).tcpSock) ∧
      (sockNotifyAccept s a).tcp = s.tcp ∧ (sockNotifyAccept s a).connecting = s.connecting := by
  rw [sockNotifyAccept]
  cases hlisten : findListening a.port s with
  | none => exact .inl rfl
  | some d =>
    cases halloc : sockAlloc s with
    | none => exact .inl rfl
    | some e =>
      dsimp only
      generalize hk : ({ Sock.zero with
        used := true, domain := afInet, type := sockStream, state := SockState.connected, tcpSock := (a.slot : ℤ)
        remoteAddr := ⟨afInet, htons a.remotePort, a.remoteIp⟩, localAddr := (s.socks d).localAddr
        owner := (s.socks d).owner } : Sock) = k
      have hpush : SameSlots (s.setSock e k)
          ((s.setSock e k).setSock d (((s.setSock e k).socks d).pushBacklog e)) :=
        .setSock pushBacklog_same.1 pushBacklog_same.2
      refine .inr ⟨e, rfl, hpush.designates.mpr ?_, fun f hf => ?_, rfl, rfl⟩
      · rw [Designates, socks_setSock_self, ← hk]
        exact ⟨rfl, rfl⟩
      · rw [(hpush f).1, (hpush f).2, socks_setSock_of_ne hf]
        exact ⟨rfl, rfl⟩

theorem segmentArrives_of_accepts {src : ℕ} {bytes : List UInt8}
    (h : (tcpReceive src bytes now s.tcp).accepts = s.tcp.accepts) :
    segmentArrives src bytes now s = { s with tcp := tcpReceive src bytes now s.tcp } := by
  rw [segmentArrives, h, List.drop_length]
  rfl

theorem segmentArrives_of_notice {src : ℕ} {bytes : List UInt8} {a : Accept}
    (h : (tcpReceive src bytes now s.tcp).accepts = s.tcp.accepts ++ [a]) :
    segmentArrives src bytes now s = sockNotifyAccept { s with tcp := tcpReceive src bytes now s.tcp } a := by
  rw [segmentArrives, h, List.drop_left]
  rfl

end AetherOs.Socket
